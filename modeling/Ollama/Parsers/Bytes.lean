import Ollama.Lib.Utf8
import Ollama.Parsers.Parser

/-!
# Texts as bytes

Go strings that need not be valid UTF-8, and what package `strings` does with them.
-/

namespace Ollama.Parsers

open Lib Utf8 List

/-- A Go string. -/
abbrev Bytes := List UInt8

/-- A string literal of the source. -/
def lit (s : String) : Bytes := encode s.toList

namespace Bytes

/-! ## §1  Runes -/

/-- The runes of at most `n` bytes, each with its bytes; a byte that begins none is
U+FFFD. -/
def runeBytesFrom : ℕ → Bytes → List (Char × Bytes)
  | 0, _ => []
  | _ + 1, [] => []
  | n + 1, b :: s =>
      match (b :: s).toByteArray.utf8DecodeChar? 0 with
      | some c =>
          (c, (b :: s).take c.utf8Size) :: runeBytesFrom n ((b :: s).drop c.utf8Size)
      | none => (Char.ofNat 0xfffd, [b]) :: runeBytesFrom n s

def runeBytes (s : Bytes) : List (Char × Bytes) := runeBytesFrom s.length s

def ofRunes (rs : List (Char × Bytes)) : Bytes := rs.flatMap Prod.snd

def isSpaceRune (r : Char × Bytes) : Bool := isSpace r.1

/-! ## §2  White space -/

/-- `asciiSpace` -/
def asciiSpace (b : UInt8) : Bool := b ∈ [9, 10, 11, 12, 13, 32]

/-- `TrimSpace`: bytes as long as they are ASCII, runes from there. -/
def trimSpace (s : Bytes) : Bytes :=
  let s := s.dropWhile asciiSpace
  match s.head? with
  | none => []
  | some b =>
      if 0x80 ≤ b then
        ofRunes (((runeBytes s).dropWhile isSpaceRune).rdropWhile isSpaceRune)
      else
        let s := s.rdropWhile asciiSpace
        match s.getLast? with
        | none => []
        | some c => if 0x80 ≤ c then ofRunes ((runeBytes s).rdropWhile isSpaceRune) else s

/-- `Fields`: the runs of runes that are not white space. -/
def fields (s : Bytes) : List Bytes :=
  (((runeBytes s).splitOnP isSpaceRune).map ofRunes).filter (· ≠ [])

/-- Text between two visible ASCII bytes, and ASCII white space around it. -/
theorem trimSpace_padded {w w' s : Bytes} {b c : UInt8} (hw : ∀ x ∈ w, asciiSpace x = true)
    (hw' : ∀ x ∈ w', asciiSpace x = true) (hb : s.head? = some b) (hc : s.getLast? = some c)
    (hb' : asciiSpace b = false) (hc' : asciiSpace c = false) (hlow : b < 0x80) (hlow' : c < 0x80) :
    trimSpace (w ++ (s ++ w')) = s := by
  have hne : s ≠ [] := by
    rintro rfl
    cases hb
  have hfront : (w ++ (s ++ w')).dropWhile asciiSpace = s ++ w' := by
    rw [dropWhile_append_of_pos hw]
    obtain ⟨x, s, rfl⟩ := exists_cons_of_ne_nil hne
    cases hb
    rw [cons_append, dropWhile_cons_of_neg (by rw [hb']; exact Bool.false_ne_true)]
  have hback : (s ++ w').rdropWhile asciiSpace = s := by
    unfold List.rdropWhile
    rw [reverse_append, dropWhile_append_of_pos (fun x hx => hw' x (mem_reverse.mp hx))]
    have hhead : s.reverse.head? = some c := by rw [head?_reverse, hc]
    cases hs : s.reverse with
    | nil =>
      rw [hs] at hhead
      cases hhead
    | cons x t =>
      rw [hs] at hhead
      cases hhead
      rw [dropWhile_cons_of_neg (by rw [hc']; exact Bool.false_ne_true), ← hs, reverse_reverse]
  unfold trimSpace
  simp only
  rw [hfront, head?_append_of_ne_nil _ hne, hb]
  simp only
  rw [if_neg (by rw [UInt8.not_le]; exact hlow), hback, hc]
  simp only
  rw [if_neg (by rw [UInt8.not_le]; exact hlow')]

/-! ## §3  Prefixes and suffixes -/

/-- `TrimPrefix` -/
def trimPrefix (s pre : Bytes) : Bytes := if pre <+: s then s.drop pre.length else s

/-- `TrimSuffix` -/
def trimSuffix (s suf : Bytes) : Bytes := if suf <:+ s then s.take (s.length - suf.length) else s

theorem take_length_sub (s t : Bytes) : (s ++ t).take ((s ++ t).length - t.length) = s := by
  rw [length_append, Nat.add_sub_cancel, take_left]

theorem trimPrefix_append (pre s : Bytes) : trimPrefix (pre ++ s) pre = s := by
  unfold trimPrefix
  rw [if_pos (prefix_append _ _), drop_left]

theorem trimSuffix_append (s suf : Bytes) : trimSuffix (s ++ suf) suf = s := by
  unfold trimSuffix
  rw [if_pos (suffix_append _ _), take_length_sub]

theorem trimSuffix_length_le (s suf : Bytes) : (trimSuffix s suf).length ≤ s.length := by
  unfold trimSuffix
  split
  · rw [length_take]
    exact Nat.min_le_right _ _
  · exact Nat.le_refl _

theorem trimPrefix_eq_self_iff {s pre : Bytes} (hpre : pre ≠ []) :
    trimPrefix s pre = s ↔ ¬pre <+: s := by
  constructor
  · rintro h ⟨t, rfl⟩
    rw [trimPrefix_append] at h
    have hlen := congrArg List.length h
    have := length_pos_iff.mpr hpre
    rw [length_append] at hlen
    omega
  · exact fun h => if_neg h

theorem trimSuffix_eq_self_iff {s suf : Bytes} (hsuf : suf ≠ []) :
    trimSuffix s suf = s ↔ ¬suf <:+ s := by
  constructor
  · rintro h ⟨t, rfl⟩
    rw [trimSuffix_append] at h
    have hlen := congrArg List.length h
    have := length_pos_iff.mpr hsuf
    rw [length_append] at hlen
    omega
  · exact fun h => if_neg h

/-! ## §4  Runes of a text -/

variable {cs w : List Char} {c : Char}

def rune (c : Char) : Char × Bytes := (c, String.utf8EncodeChar c)

theorem runeBytesFrom_encode (cs : List Char) :
    ∀ n, (encode cs).length ≤ n → runeBytesFrom n (encode cs) = cs.map rune := by
  induction cs with
  | nil =>
    intro n _
    cases n <;> rfl
  | cons c cs ih =>
    intro n hn
    obtain ⟨b, rest, hc, _, _⟩ := utf8EncodeChar_shape c
    rw [encode_cons, length_append] at hn
    have hlen : (String.utf8EncodeChar c).length = c.utf8Size := String.length_utf8EncodeChar c
    have hpos : 0 < c.utf8Size := c.utf8Size_pos
    obtain ⟨n, rfl⟩ : ∃ m, n = m + 1 := ⟨n - 1, by omega⟩
    have hdecode : (encode (c :: cs)).toByteArray.utf8DecodeChar? 0 = some c := by
      rw [encode_cons, toByteArray_append]
      exact ByteArray.utf8DecodeChar?_utf8EncodeChar_append
    have htake : (encode (c :: cs)).take c.utf8Size = String.utf8EncodeChar c := by
      rw [encode_cons, ← hlen, take_left]
    have hdrop : (encode (c :: cs)).drop c.utf8Size = encode cs := by
      rw [encode_cons, ← hlen, drop_left]
    have hcons : encode (c :: cs) = b :: (rest ++ encode cs) := by
      rw [encode_cons, hc]
      rfl
    rw [hcons] at hdecode htake hdrop ⊢
    rw [runeBytesFrom, hdecode]
    dsimp only
    rw [htake, hdrop, ih n (by omega)]
    rfl

theorem runeBytes_encode (cs : List Char) : runeBytes (encode cs) = cs.map rune :=
  runeBytesFrom_encode cs _ le_rfl

theorem ofRunes_rune (cs : List Char) : ofRunes (cs.map rune) = encode cs := by
  unfold ofRunes
  rw [flatMap_map]
  rfl

/-! ## §5  Words -/

def Solid (w : List Char) : Prop := ∀ c ∈ w, isSpace c = false

instance (w : List Char) : Decidable (Solid w) := List.decidableBAll _ w

theorem Solid.append {v : List Char} (hv : Solid v) (hw : Solid w) : Solid (v ++ w) := fun c hc =>
  (mem_append.mp hc).elim (hv c) (hw c)

theorem rune_solid (hw : Solid w) : ∀ r ∈ w.map rune, isSpaceRune r = false := by
  intro r hr
  obtain ⟨c, hc, rfl⟩ := mem_map.mp hr
  exact hw c hc

theorem encode_ne_nil (hw : w ≠ []) : encode w ≠ [] := by
  obtain ⟨c, w, rfl⟩ := exists_cons_of_ne_nil hw
  obtain ⟨b, rest, hc, -, -⟩ := utf8EncodeChar_shape c
  rw [encode_cons, hc]
  exact cons_ne_nil _ _

theorem fields_word (hw : Solid w) (hne : w ≠ []) : fields (encode w) = [encode w] := by
  unfold fields
  rw [runeBytes_encode, splitOnP_eq_singleton (rune_solid hw), map_singleton, ofRunes_rune]
  exact filter_cons_of_pos (decide_eq_true (encode_ne_nil hne))

theorem fields_word_append (hw : Solid w) (hne : w ≠ []) (hc : isSpace c = true) :
    fields (encode (w ++ c :: cs)) = encode w :: fields (encode cs) := by
  unfold fields
  rw [runeBytes_encode, runeBytes_encode, map_append, map_cons,
    splitOnP_append_cons_of_forall_mem (rune_solid hw) (rune c) (by exact hc), map_cons,
    ofRunes_rune]
  exact filter_cons_of_pos (decide_eq_true (encode_ne_nil hne))

theorem fields_space (hc : isSpace c = true) : fields (encode (c :: cs)) = fields (encode cs) := by
  unfold fields
  have hsplit : (rune c :: cs.map rune).splitOnP isSpaceRune = _ :=
    splitOnP_append_cons_of_forall_mem (forall_mem_nil _) (rune c) (by exact hc) (cs.map rune)
  rw [runeBytes_encode, runeBytes_encode, map_cons, hsplit, map_cons]
  exact filter_cons_of_neg (by simp [ofRunes])

end Bytes

end Ollama.Parsers
