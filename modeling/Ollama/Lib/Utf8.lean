import Mathlib.Data.List.Infix

/-!
# Texts in UTF-8 as lists of bytes

A valid text is the encoding of a list of characters.
-/

namespace Ollama.Lib.Utf8

open List

/-- The bytes of a list of characters. -/
def encode (cs : List Char) : List UInt8 := cs.flatMap String.utf8EncodeChar

/-- The text is the encoding of some characters. -/
def Valid (s : List UInt8) : Prop := ∃ cs, s = encode cs

def Continuation (b : UInt8) : Prop := 0x80 ≤ b.toNat ∧ b.toNat < 0xc0

/-- The first byte of a character of `size` bytes. -/
def Lead (size : ℕ) (b : UInt8) : Prop :=
  (size = 1 ∧ b.toNat < 0x80) ∨ (size = 2 ∧ 0xc0 ≤ b.toNat ∧ b.toNat < 0xe0) ∨
    (size = 3 ∧ 0xe0 ≤ b.toNat ∧ b.toNat < 0xf0) ∨ (size = 4 ∧ 0xf0 ≤ b.toNat ∧ b.toNat < 0xf8)

/-! ## §1  One character -/

/-- A character is a lead byte and the continuation bytes it announces. -/
theorem utf8EncodeChar_shape (c : Char) :
    ∃ b rest, String.utf8EncodeChar c = b :: rest ∧ Lead (rest.length + 1) b ∧
      ∀ x ∈ rest, Continuation x := by
  have hlow : ∀ v : ℕ, Continuation (UInt8.ofNat (v % 0x40 + 0x80)) := by
    intro v
    unfold Continuation
    rw [UInt8.toNat_ofNat']
    omega
  unfold String.utf8EncodeChar
  simp only
  split
  · refine ⟨_, [], rfl, Or.inl ⟨rfl, ?_⟩, forall_mem_nil _⟩
    rw [UInt8.toNat_ofNat']
    omega
  split
  · refine ⟨_, _, rfl, Or.inr (Or.inl ⟨rfl, ?_⟩), forall_mem_singleton.mpr (hlow _)⟩
    rw [UInt8.toNat_ofNat']
    omega
  split
  · refine ⟨_, _, rfl, Or.inr (Or.inr (Or.inl ⟨rfl, ?_⟩)), forall_mem_cons.mpr
      ⟨hlow _, forall_mem_singleton.mpr (hlow _)⟩⟩
    rw [UInt8.toNat_ofNat']
    omega
  · refine ⟨_, _, rfl, Or.inr (Or.inr (Or.inr ⟨rfl, ?_⟩)), forall_mem_cons.mpr
      ⟨hlow _, forall_mem_cons.mpr ⟨hlow _, forall_mem_singleton.mpr (hlow _)⟩⟩⟩
    rw [UInt8.toNat_ofNat']
    omega

theorem Lead.not_continuation {size : ℕ} {b : UInt8} (h : Lead size b) : ¬Continuation b := by
  unfold Lead at h
  unfold Continuation
  omega

/-! ## §2  Prefixes -/

@[simp] theorem encode_nil : encode [] = [] := rfl

@[simp] theorem encode_cons (c : Char) (cs : List Char) :
    encode (c :: cs) = String.utf8EncodeChar c ++ encode cs := rfl

@[simp] theorem encode_append (cs ds : List Char) : encode (cs ++ ds) = encode cs ++ encode ds :=
  flatMap_append

/-- The end of a prefix of a valid text: at the end of a character, or inside
one. -/
inductive Ends (s : List UInt8) (cs : List Char) : Prop
  | boundary (ds es : List Char) : cs = ds ++ es → s = encode ds → Ends s cs
  | inside (ds : List Char) (c : Char) (es : List Char) (p r : List UInt8) : cs = ds ++ c :: es →
      s = encode ds ++ p → String.utf8EncodeChar c = p ++ r → p ≠ [] → r ≠ [] → Ends s cs

theorem ends_of_prefix {s : List UInt8} {cs : List Char} (h : s <+: encode cs) : Ends s cs := by
  induction cs generalizing s with
  | nil => exact .boundary [] [] rfl (prefix_nil.mp h)
  | cons c cs ih =>
    obtain ⟨t, ht⟩ := h
    rcases append_eq_append_iff.mp ht with ⟨r, hr, _⟩ | ⟨p, hp, hrest⟩
    · -- the prefix ends within the first character
      by_cases hs : s = []
      · exact .boundary [] (c :: cs) rfl hs
      by_cases hr' : r = []
      · rw [hr', append_nil] at hr
        refine .boundary [c] cs rfl ?_
        rw [← hr, encode_cons, encode_nil, append_nil]
      · exact .inside [] c cs s r rfl rfl hr hs hr'
    · cases ih (s := p) ⟨t, hrest.symm⟩ with
      | boundary ds es hcs hpe =>
        refine .boundary (c :: ds) es (by rw [hcs]; rfl) ?_
        rw [hp, hpe, encode_cons]
      | inside ds d es p' r hcs hpe hd hne hne' =>
        refine .inside (c :: ds) d es p' r (by rw [hcs]; rfl) ?_ hd hne hne'
        rw [hp, hpe, encode_cons, append_assoc]

/-- A proper part of a character: its lead byte and some of the continuation
bytes. -/
theorem partial_shape {c : Char} {p r : List UInt8} (h : String.utf8EncodeChar c = p ++ r)
    (hp : p ≠ []) (hr : r ≠ []) :
    ∃ size b more x r', Lead size b ∧ p = b :: more ∧ more.length + 1 < size ∧
      (∀ y ∈ more, Continuation y) ∧ r = x :: r' ∧ Continuation x := by
  obtain ⟨b, rest, hc, hlead, hcont⟩ := utf8EncodeChar_shape c
  obtain ⟨b', more, rfl⟩ := exists_cons_of_ne_nil hp
  obtain ⟨x, r', rfl⟩ := exists_cons_of_ne_nil hr
  rw [h] at hc
  obtain ⟨rfl, hrest⟩ := List.cons.inj hc
  have hrest' : rest = more ++ x :: r' := hrest.symm
  rw [hrest'] at hlead hcont
  refine ⟨_, b', more, x, r', hlead, rfl, ?_, fun y hy => hcont y (mem_append_left _ hy),
    rfl, hcont x (by simp)⟩
  rw [length_append, length_cons]
  omega

/-! ## §3  Valid parts -/

theorem Valid.nil : Valid [] := ⟨[], rfl⟩

theorem Valid.head {b : UInt8} {s : List UInt8} (h : Valid (b :: s)) : ¬Continuation b := by
  obtain ⟨cs, hcs⟩ := h
  cases cs with
  | nil => cases hcs
  | cons c cs =>
    obtain ⟨b', rest, hc, hlead, _⟩ := utf8EncodeChar_shape c
    rw [encode_cons, hc] at hcs
    rw [(List.cons.inj hcs).1]
    exact hlead.not_continuation

/-- **Synchronisation.** What stands before a byte that is no continuation byte,
in a valid text, is valid, and so is what follows it. -/
theorem Valid.split {s t : List UInt8} (h : Valid (s ++ t))
    (ht : ∀ b t', t = b :: t' → ¬Continuation b) : Valid s ∧ Valid t := by
  obtain ⟨cs, hcs⟩ := h
  cases ends_of_prefix ⟨t, hcs⟩ with
  | boundary ds es hsplit hs =>
    refine ⟨⟨ds, hs⟩, es, ?_⟩
    rw [hsplit, encode_append, hs] at hcs
    exact append_cancel_left hcs
  | inside ds c es p r hsplit hs hc hp hr =>
    obtain ⟨_, _, _, x, r', _, _, _, _, hr', hx⟩ := partial_shape hc hp hr
    rw [hsplit, encode_append, hs, encode_cons, hc, append_assoc, append_assoc] at hcs
    have ht' := append_cancel_left (append_cancel_left hcs)
    rw [hr'] at ht'
    exact absurd hx (ht x _ ht')

theorem Lead.size_unique {m n : ℕ} {b : UInt8} (hm : Lead m b) (hn : Lead n b) : m = n := by
  unfold Lead at hm hn
  omega

/-- What follows a valid text in a valid text is valid. -/
theorem Valid.rest {s t : List UInt8} (hs : Valid s) (h : Valid (s ++ t)) : Valid t := by
  obtain ⟨ds, rfl⟩ := hs
  obtain ⟨cs, hcs⟩ := h
  induction ds generalizing cs with
  | nil => exact ⟨cs, hcs⟩
  | cons d ds ih =>
    rw [encode_cons, append_assoc] at hcs
    obtain ⟨b, more, hd, hlead, _⟩ := utf8EncodeChar_shape d
    cases cs with
    | nil =>
      rw [hd] at hcs
      cases hcs
    | cons c cs =>
      obtain ⟨b', more', hc, hlead', _⟩ := utf8EncodeChar_shape c
      rw [encode_cons, hd, hc, cons_append, cons_append] at hcs
      obtain ⟨rfl, htail⟩ := List.cons.inj hcs
      -- equal lead bytes announce the same number of bytes
      have hlen : more.length = more'.length := Nat.succ.inj (hlead.size_unique hlead')
      exact ih cs (append_inj htail hlen).2

theorem Valid.before {s t r : List UInt8} (h : Valid (s ++ (t ++ r))) (ht : Valid t)
    (hne : t ≠ []) : Valid s := by
  refine (h.split fun b t' heq => ?_).1
  obtain ⟨b', t'', rfl⟩ := exists_cons_of_ne_nil hne
  rw [← (List.cons.inj heq).1]
  exact ht.head

/-! ## §4  Reading the characters back -/

/-- The characters of a text of at most `n` bytes; a byte that begins none is
read as U+FFFD. -/
def runesFrom : ℕ → List UInt8 → List Char
  | 0, _ => []
  | _ + 1, [] => []
  | n + 1, b :: s =>
      match (b :: s).toByteArray.utf8DecodeChar? 0 with
      | some c => c :: runesFrom n ((b :: s).drop c.utf8Size)
      | none => Char.ofNat 0xfffd :: runesFrom n s

/-- The characters of a text. -/
def runes (s : List UInt8) : List Char := runesFrom s.length s

theorem runesFrom_encode (cs : List Char) :
    ∀ n, (encode cs).length ≤ n → runesFrom n (encode cs) = cs := by
  induction cs with
  | nil =>
    intro n _
    cases n <;> rfl
  | cons c cs ih =>
    intro n hn
    obtain ⟨b, rest, hc, _, _⟩ := utf8EncodeChar_shape c
    rw [encode_cons, length_append] at hn
    have hlen : (String.utf8EncodeChar c).length = c.utf8Size := String.length_utf8EncodeChar c
    have hpos : 0 < c.utf8Size := c.utf8Size_pos
    obtain ⟨n, rfl⟩ : ∃ m, n = m + 1 := ⟨n - 1, by omega⟩
    have hdecode : (encode (c :: cs)).toByteArray.utf8DecodeChar? 0 = some c := by
      rw [encode_cons, toByteArray_append]
      exact ByteArray.utf8DecodeChar?_utf8EncodeChar_append
    have hdrop : (encode (c :: cs)).drop c.utf8Size = encode cs := by
      rw [encode_cons, ← hlen, drop_left]
    have hcons : encode (c :: cs) = b :: (rest ++ encode cs) := by
      rw [encode_cons, hc]
      rfl
    rw [hcons] at hdecode hdrop ⊢
    rw [runesFrom, hdecode]
    simp only
    rw [hdrop, ih n (by omega)]

@[simp] theorem runes_encode (cs : List Char) : runes (encode cs) = cs :=
  runesFrom_encode cs _ le_rfl

theorem Valid.encode_runes {s : List UInt8} (h : Valid s) : encode (runes s) = s := by
  obtain ⟨cs, rfl⟩ := h
  rw [runes_encode]

theorem valid_encode (cs : List Char) : Valid (encode cs) := ⟨cs, rfl⟩

end Ollama.Lib.Utf8
