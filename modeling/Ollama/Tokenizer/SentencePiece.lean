import Ollama.Tokenizer.BytePairEncoding
import Mathlib.Data.Prod.Lex

/-!
# SentencePiece

`model/sentencepiece.go`: spaces become U+2581, the runes of a fragment are
merged by score, and runes that are not in the vocabulary fall back to byte
tokens.
-/

namespace Ollama.Tokenizer

open Lib Lib.Utf8 List

/-! ## §1  The model -/

/-- `SentencePiece`: every token has a score. -/
structure SentencePiece (σ : Type) where
  vocab : Vocabulary σ
  scores_length : vocab.scores.length = vocab.values.length

structure Candidate (σ : Type) where
  a : ℕ
  b : ℕ
  score : σ
  size : ℕ
deriving DecidableEq

/-- The order of `queue.Less`: the higher score first, then the node further to
the left. -/
def Candidate.key {σ : Type} (c : Candidate σ) : σᵒᵈ ×ₗ ℕ := toLex (OrderDual.toDual c.score, c.a)

/-- `strings.ReplaceAll(s, spmWhitespaceSep, " ")` -/
def restoreSpaces : Str → Str
  | [] => []
  | b :: s =>
      match s with
      | x :: y :: rest =>
          if b = 0xe2 ∧ x = 0x96 ∧ y = 0x81 then 0x20 :: restoreSpaces rest
          else b :: restoreSpaces (x :: y :: rest)
      | s => b :: restoreSpaces s

/-- `strconv.ParseUint` of "0x" and two bytes, in base 0: an underscore may
follow the prefix. -/
def parseByte (h l : UInt8) : Option UInt8 :=
  match hexValue h, hexValue l with
  | some h, some l => some (UInt8.ofNat (16 * h + l))
  | none, some l => if h = 0x5f then some (UInt8.ofNat l) else none
  | _, none => none

namespace SentencePiece

variable {σ : Type} (spm : SentencePiece σ)

/-- A pair is queued when the vocabulary has the result; it is merged when the
lengths still add up. -/
def rules : MergeRules (Candidate σ) where
  a := Candidate.a
  b := Candidate.b
  pairwise i j left right :=
    (spm.vocab.encode (left ++ right)).bind fun id => spm.vocab.scores[id]?.map fun score =>
      ⟨i, j, score, left.length + right.length⟩
  fresh e left right := decide (left.length + right.length = e.size)
  pairwise_a := by
    intro i j l r e h
    obtain ⟨id, _, hid⟩ := Option.bind_eq_some_iff.mp h
    obtain ⟨score, _, rfl⟩ := Option.map_eq_some_iff.mp hid
    rfl
  pairwise_b := by
    intro i j l r e h
    obtain ⟨id, _, hid⟩ := Option.bind_eq_some_iff.mp h
    obtain ⟨score, _, rfl⟩ := Option.map_eq_some_iff.mp hid
    rfl

variable [LinearOrder σ] (heap : Heap (@Candidate.key σ))

def encodeGroup (token : Str) : List ℕ :=
  if token = [] then []
  else
    match spm.vocab.encode token with
    | some id => [id]
    | none => token.flatMap fun b => (spm.vocab.encode (byteToken b)).toList

def encodeFragment (frag : Fragment) : Option (List ℕ) :=
  if frag.ids ≠ [] then some frag.ids
  else
    let text := replaceSpaces frag.value
    match spm.vocab.encode text with
    | some id => some [id]
    | none =>
        (mergeRunes spm.rules heap (runes text)).map fun groups =>
          groups.flatMap fun g => spm.encodeGroup (Utf8.encode g)

/-- `Encode`; `none` when the code does not return. -/
def encode (s : Str) (addSpecial : Bool) : Option (List ℕ) := do
  let frags ← cutSpecials spm.vocab s
  let ids ← frags.mapM (spm.encodeFragment heap)
  if addSpecial ∧ ids.flatten ≠ [] then spm.vocab.addSpecials ids.flatten else some ids.flatten

/-- What `Decode` writes for a token; `none` is an error. -/
def decodeToken (data : Str) : Option Str :=
  let data := restoreSpaces data
  match byteSpelling data with
  | some (h, l) => (parseByte h l).map ([·])
  | none => some data

/-- `Decode`; `none` is an error. -/
def decode : List ℕ → Option Str
  | [] => some []
  | id :: ids => do
      let text ← decodeToken (spm.vocab.decode id)
      let rest ← decode ids
      some (text ++ rest)

end SentencePiece

/-! ## §2  Spaces -/

/-- U+2581 -/
def sepRune : Char := Char.ofNat 0x2581

def toSep (c : Char) : Char := if c = ' ' then sepRune else c

def fromSep (c : Char) : Char := if c = sepRune then ' ' else c

theorem utf8EncodeChar_injective : Function.Injective String.utf8EncodeChar := by
  intro c d h
  have henc : encode [c] = encode [d] := by rw [encode_cons, encode_cons, h]
  exact (List.cons.inj (encode_injective henc)).1

theorem utf8EncodeChar_space : String.utf8EncodeChar ' ' = [0x20] := by decide +kernel

theorem utf8EncodeChar_sep : String.utf8EncodeChar sepRune = spmWhitespaceSep := by decide +kernel

theorem replaceSpaces_append (s t : Str) :
    replaceSpaces (s ++ t) = replaceSpaces s ++ replaceSpaces t := flatMap_append

/-- A byte of a character is a space only in the space. -/
theorem space_notMem {c : Char} (h : c ≠ ' ') : ∀ b ∈ String.utf8EncodeChar c, b ≠ 0x20 := by
  obtain ⟨b, rest, hc, hlead, hrest⟩ := utf8EncodeChar_shape c
  intro x hx heq
  rw [hc] at hx
  rcases mem_cons.mp hx with rfl | hmem
  · refine h (utf8EncodeChar_injective ?_)
    have hsize : rest.length = 0 := by
      rw [heq] at hlead
      unfold Lead at hlead
      simp only [UInt8.reduceToNat] at hlead
      omega
    rw [hc, utf8EncodeChar_space, heq, length_eq_zero_iff.mp hsize]
  · have := (hrest x hmem).1
    rw [heq] at this
    exact absurd this (by decide)

theorem replaceSpaces_encode (cs : List Char) :
    replaceSpaces (encode cs) = encode (cs.map toSep) := by
  induction cs with
  | nil => rfl
  | cons c cs ih =>
    rw [encode_cons, replaceSpaces_append, ih, map_cons, encode_cons]
    congr 1
    by_cases hc : c = ' '
    · rw [hc, utf8EncodeChar_space, toSep, if_pos rfl, utf8EncodeChar_sep]
      rfl
    rw [toSep, if_neg hc]
    have hkeep : ∀ l : Str, (∀ b ∈ l, b ≠ 0x20) →
        (l.flatMap fun b => if b = 0x20 then spmWhitespaceSep else [b]) = l := by
      intro l hl
      induction l with
      | nil => rfl
      | cons b l ihl =>
        rw [flatMap_cons, if_neg (hl b mem_cons_self), ihl fun x hx => hl x (mem_cons_of_mem _ hx)]
        rfl
    exact hkeep _ (space_notMem hc)

theorem restoreSpaces_cons {b : UInt8} (hb : b ≠ 0xe2) (s : Str) :
    restoreSpaces (b :: s) = b :: restoreSpaces s := by
  match s with
  | [] => rfl
  | [_] => rfl
  | x :: y :: rest => rw [restoreSpaces, if_neg fun h => hb h.1]

theorem restoreSpaces_sep (s : Str) :
    restoreSpaces (spmWhitespaceSep ++ s) = 0x20 :: restoreSpaces s := rfl

theorem restoreSpaces_append {l : Str} (hl : ∀ b ∈ l, b ≠ 0xe2) (s : Str) :
    restoreSpaces (l ++ s) = l ++ restoreSpaces s := by
  induction l with
  | nil => rfl
  | cons b l ih =>
    rw [cons_append, restoreSpaces_cons (hl b mem_cons_self),
      ih fun x hx => hl x (mem_cons_of_mem _ hx), cons_append]

/-- Only U+2581 is replaced. -/
theorem restoreSpaces_char {c : Char} (h : c ≠ sepRune) (s : Str) :
    restoreSpaces (String.utf8EncodeChar c ++ s) = String.utf8EncodeChar c ++ restoreSpaces s := by
  obtain ⟨b, rest, hc, hlead, hrest⟩ := utf8EncodeChar_shape c
  have hcont : ∀ x ∈ rest, x ≠ 0xe2 := by
    intro x hx heq
    have := (hrest x hx).2
    rw [heq] at this
    exact absurd this (by decide)
  rw [hc, cons_append]
  by_cases hb : b = 0xe2
  · -- three bytes that are not those of U+2581
    obtain ⟨x, y, rfl⟩ : ∃ x y, rest = [x, y] := by
      refine length_eq_two.mp ?_
      rw [hb] at hlead
      unfold Lead at hlead
      simp only [UInt8.reduceToNat] at hlead
      omega
    have hne : ¬(b = 0xe2 ∧ x = 0x96 ∧ y = 0x81) := by
      rintro ⟨h₁, h₂, h₃⟩
      refine h (utf8EncodeChar_injective ?_)
      rw [hc, utf8EncodeChar_sep, h₁, h₂, h₃]
      rfl
    rw [cons_append, cons_append, nil_append, restoreSpaces, if_neg hne,
      restoreSpaces_cons (hcont x (by simp)), restoreSpaces_cons (hcont y (by simp))]
    rfl
  · rw [restoreSpaces_cons hb, restoreSpaces_append hcont, cons_append]

theorem restoreSpaces_encode (cs : List Char) :
    restoreSpaces (encode cs) = encode (cs.map fromSep) := by
  induction cs with
  | nil => rfl
  | cons c cs ih =>
    rw [encode_cons, map_cons, encode_cons]
    by_cases hc : c = sepRune
    · rw [hc, utf8EncodeChar_sep, restoreSpaces_sep, ih, fromSep, if_pos rfl, utf8EncodeChar_space]
      rfl
    · rw [restoreSpaces_char hc, ih, fromSep, if_neg hc]

theorem restoreSpaces_encode_append (cs ds : List Char) : restoreSpaces (encode cs ++ encode ds) =
      restoreSpaces (encode cs) ++ restoreSpaces (encode ds) := by
  rw [← encode_append, restoreSpaces_encode, restoreSpaces_encode, restoreSpaces_encode,
    map_append, encode_append]

/-- Spaces come back in a text without U+2581. -/
theorem map_fromSep_toSep {cs : List Char} (h : sepRune ∉ cs) :
    (cs.map toSep).map fromSep = cs := by
  rw [map_map]
  conv_rhs => rw [← map_id cs]
  refine map_congr_left fun c hc => ?_
  show fromSep (toSep c) = c
  unfold toSep
  split
  · rename_i hs
    rw [hs]
    rfl
  · have hne : c ≠ sepRune := fun he => h (he ▸ hc)
    rw [fromSep, if_neg hne]

/-- A text with U+2581 differs from what it is restored to at the first one. -/
theorem restoreSpaces_cases (cs : List Char) : restoreSpaces (encode cs) = encode cs ∨
      ∃ t t₁ t₂, encode cs = t ++ 0xe2 :: t₁ ∧ restoreSpaces (encode cs) = t ++ 0x20 :: t₂ := by
  induction cs with
  | nil => exact Or.inl rfl
  | cons c cs ih =>
    rw [encode_cons]
    by_cases hc : c = sepRune
    · rw [hc, utf8EncodeChar_sep, restoreSpaces_sep]
      exact Or.inr ⟨[], _, _, rfl, rfl⟩
    rw [restoreSpaces_char hc]
    rcases ih with heq | ⟨t, t₁, t₂, h₁, h₂⟩
    · exact Or.inl (by rw [heq])
    · refine Or.inr ⟨String.utf8EncodeChar c ++ t, t₁, t₂, ?_, ?_⟩
      · rw [h₁, append_assoc]
      · rw [h₂, append_assoc]

/-! ## §3  Garbled pieces -/

/-- What can become of a piece `src` of the text: it comes back; it is taken for
a byte; it cannot be decoded; or a space in it comes back as U+2581. -/
inductive Outcome (src : Str) : Option Str → Prop
  | exact : Outcome src (some src)
  | byte (b : UInt8) (u : Str) : src = 0x3c :: u → u ≠ [] → (0xe2 : UInt8) ∉ u →
      Outcome src (some [b])
  | error : Outcome src none
  | sep (t t₁ t₂ : Str) : src = t ++ 0x20 :: t₂ → Outcome src (some (t ++ 0xe2 :: t₁))

def written : List (Str × Option Str) → Option Str
  | [] => some []
  | p :: ps => do
      let text ← p.2
      let rest ← written ps
      some (text ++ rest)

theorem written_cons {src out text : Str} {ps : List (Str × Option Str)}
    (h : written ((src, some out) :: ps) = some text) :
    ∃ rest, written ps = some rest ∧ text = out ++ rest := by
  obtain ⟨rest, hr, ht⟩ := Option.bind_eq_some_iff.mp h
  exact ⟨rest, hr, (Option.some.inj ht).symm⟩

/-- A text that is written behind what should have come before it. -/
theorem exists_shift {t x u y : Str} (h : t ++ x = u ++ (t ++ y)) :
    ∃ u', x = u' ++ y ∧ u'.length = u.length ∧ ((0xe2 : UInt8) ∉ u → (0xe2 : UInt8) ∉ u') := by
  have hlen := congrArg List.length h
  rw [length_append, length_append, length_append] at hlen
  have htake : t ++ x.take u.length = u ++ t := by
    have := congrArg (List.take (t.length + u.length)) h
    rwa [take_length_add_append, ← append_assoc, Nat.add_comm t.length,
      ← length_append, take_left] at this
  have hdrop : x.drop u.length = y := by
    have := congrArg (List.drop (t.length + u.length)) h
    rwa [drop_length_add_append, ← append_assoc, Nat.add_comm t.length,
      ← length_append, drop_left] at this
  refine ⟨x.take u.length, ?_, ?_, fun hu => ?_⟩
  · conv_lhs => rw [← take_append_drop u.length x, hdrop]
  · rw [length_take]
    omega
  · have hcount := congrArg (List.count (0xe2 : UInt8)) htake
    rw [count_append, count_append, count_eq_zero.mpr hu] at hcount
    exact count_eq_zero.mp (by omega)

/-- What lags behind the text never catches up with it: what lags has no
U+2581 to offer, and every byte token adds to it. -/
theorem written_ne_lagging {ps : List (Str × Option Str)} (hps : ∀ p ∈ ps, Outcome p.1 p.2) :
    ∀ u : Str, u ≠ [] → (0xe2 : UInt8) ∉ u →
      written ps ≠ some (u ++ (ps.map Prod.fst).flatten) := by
  induction ps with
  | nil =>
    intro u hu _ h
    have hnil : [] = u ++ [] := Option.some.inj h
    rw [append_nil] at hnil
    exact hu hnil.symm
  | cons p ps ih =>
    intro u hu hno h
    obtain ⟨src, out⟩ := p
    have hps' : ∀ q ∈ ps, Outcome q.1 q.2 := fun q hq => hps q (mem_cons_of_mem _ hq)
    have hnil : ∀ v : Str, v.length = u.length → v ≠ [] := by
      intro v hv hv'
      rw [hv'] at hv
      exact hu (length_eq_zero_iff.mp hv.symm)
    rw [map_cons, flatten_cons] at h
    have hp : Outcome src out := hps (src, out) mem_cons_self
    cases hp with
    | exact =>
      obtain ⟨rest, hr, heq⟩ := written_cons h
      obtain ⟨u', hu', hlen, hno'⟩ := exists_shift heq.symm
      rw [hu'] at hr
      exact ih hps' u' (hnil u' hlen) (hno' hno) hr
    | byte b v hsrc hv hvno =>
      obtain ⟨rest, hr, heq⟩ := written_cons h
      obtain ⟨x, u', rfl⟩ := exists_cons_of_ne_nil hu
      have hsrc' : src = 0x3c :: v := hsrc
      rw [hsrc', cons_append, singleton_append] at heq
      have hrest := (List.cons.inj heq).2
      rw [← hrest, ← append_assoc] at hr
      refine ih hps' (u' ++ 0x3c :: v) (by simp) ?_ hr
      intro hmem
      rcases mem_append.mp hmem with hm | hm
      · exact hno (mem_cons_of_mem _ hm)
      · rcases mem_cons.mp hm with hm | hm
        · exact absurd hm (by decide)
        · exact hvno hm
    | error => cases h
    | sep t t₁ t₂ hsrc =>
      obtain ⟨rest, _, heq⟩ := written_cons h
      have hsrc' : src = t ++ 0x20 :: t₂ := hsrc
      rw [hsrc', append_assoc, append_assoc] at heq
      obtain ⟨u', hu', hlen, hno'⟩ := exists_shift heq.symm
      obtain ⟨x, u'', rfl⟩ := exists_cons_of_ne_nil (hnil u' hlen)
      exact hno' hno ((List.cons.inj hu').1 ▸ mem_cons_self)

/-- **The text comes back exactly when every piece does.** -/
theorem written_iff {ps : List (Str × Option Str)} (hps : ∀ p ∈ ps, Outcome p.1 p.2) :
    written ps = some (ps.map Prod.fst).flatten ↔ ∀ p ∈ ps, p.2 = some p.1 := by
  induction ps with
  | nil => exact iff_of_true rfl fun p hp => absurd hp not_mem_nil
  | cons p ps ih =>
    obtain ⟨src, out⟩ := p
    have hps' : ∀ q ∈ ps, Outcome q.1 q.2 := fun q hq => hps q (mem_cons_of_mem _ hq)
    rw [map_cons, flatten_cons]
    constructor
    · intro h
      have hp : Outcome src out := hps (src, out) mem_cons_self
      cases hp with
      | exact =>
        obtain ⟨rest, hr, heq⟩ := written_cons h
        have hrest := (ih hps').mp (hr.trans (congrArg some (append_cancel_left heq).symm))
        intro q hq
        rcases mem_cons.mp hq with rfl | hq
        · rfl
        · exact hrest q hq
      | byte b u hsrc hu hno =>
        -- a byte where six were: the rest of the token lags behind
        obtain ⟨rest, hr, heq⟩ := written_cons h
        have hsrc' : src = 0x3c :: u := hsrc
        rw [hsrc', cons_append, singleton_append] at heq
        rw [← (List.cons.inj heq).2] at hr
        exact absurd hr (written_ne_lagging hps' u hu hno)
      | error => cases h
      | sep t t₁ t₂ hsrc =>
        obtain ⟨rest, _, heq⟩ := written_cons h
        have hsrc' : src = t ++ 0x20 :: t₂ := hsrc
        rw [hsrc', append_assoc, append_assoc] at heq
        have hhead := (List.cons.inj (append_cancel_left heq)).1
        exact absurd hhead (by decide)
    · intro h
      have hout : out = some src := h (src, out) mem_cons_self
      have hrest := (ih hps').mpr fun q hq => h q (mem_cons_of_mem _ hq)
      rw [hout, written]
      rw [hrest]
      rfl

/-! ## §4  What is written for a piece -/

/-- What is read as a byte is spelled with digits. -/
theorem parseByte_digits {h l b : UInt8} (hp : parseByte h l = some b) : h ≠ 0xe2 ∧ l ≠ 0xe2 := by
  constructor
  · rintro rfl
    unfold parseByte at hp
    cases hl : hexValue l with
    | none =>
      rw [hl] at hp
      cases hp
    | some n =>
      rw [hl] at hp
      cases hp
  · rintro rfl
    unfold parseByte at hp
    cases hh : hexValue h <;> rw [hh] at hp <;> cases hp

theorem byteSpelling_eq_some {data : Str} {h l : UInt8} (hs : byteSpelling data = some (h, l)) :
    data = [0x3c, 0x30, 0x78, h, l, 0x3e] := by
  unfold byteSpelling at hs
  split at hs
  · split at hs
    · rename_i hc
      obtain ⟨rfl, rfl, rfl, rfl⟩ := hc
      cases hs
      rfl
    · cases hs
  · cases hs

namespace SentencePiece

theorem decodeToken_byteToken (b : UInt8) : decodeToken (byteToken b) = some [b] :=
  forall_byte (P := fun b => decodeToken (byteToken b) = some [b]) (by decide +kernel) b

variable {σ : Type} (spm : SentencePiece σ)

/-- The ids of a piece. -/
def encodePiece (p : Str) : List ℕ :=
  match spm.vocab.encode p with
  | some id => [id]
  | none => p.flatMap fun b => (spm.vocab.encode (byteToken b)).toList

/-- A piece comes back: it does not spell a byte token, or, where its bytes are
written one by one, has no space. -/
def Unmistakable (p : Str) : Prop :=
  if (spm.vocab.encode p).isSome then byteSpelling (restoreSpaces p) = none
  else restoreSpaces p = p

instance (p : Str) : Decidable (spm.Unmistakable p) := by
  unfold Unmistakable
  exact inferInstance

def shown (p : Str) : Str × Option Str :=
  (restoreSpaces p, if (spm.vocab.encode p).isSome then decodeToken p else some p)

theorem encodeGroup_eq (token : Str) :
    spm.encodeGroup token = if token = [] then [] else spm.encodePiece token := rfl

theorem decode_append (xs ys : List ℕ) :
    spm.decode (xs ++ ys) = (spm.decode xs).bind fun a => (spm.decode ys).map fun b => a ++ b := by
  induction xs with
  | nil =>
    show spm.decode ys = (spm.decode ys).map fun b => [] ++ b
    cases spm.decode ys <;> rfl
  | cons x xs ih =>
    rw [cons_append, decode, decode, ih]
    cases decodeToken (spm.vocab.decode x) <;> cases spm.decode xs <;> cases spm.decode ys <;> simp

variable {spm}

theorem decode_singleton {p : Str} {id : ℕ} (h : spm.vocab.encode p = some id) :
    spm.decode [id] = decodeToken p := by
  rw [decode, Vocabulary.decode_of_encode h]
  cases decodeToken p with
  | none => rfl
  | some text =>
    show some (text ++ []) = some text
    rw [append_nil]

theorem decode_bytes (hbytes : ∀ b, byteToken b ∈ spm.vocab.values) (p : Str) :
    spm.decode (p.flatMap fun b => (spm.vocab.encode (byteToken b)).toList) = some p := by
  induction p with
  | nil => rfl
  | cons b p ih =>
    obtain ⟨id, hid⟩ := Vocabulary.exists_encode (hbytes b)
    rw [flatMap_cons, decode_append, ih, hid, Option.toList_some, decode_singleton hid,
      decodeToken_byteToken]
    rfl

theorem decode_encodePiece (hbytes : ∀ b, byteToken b ∈ spm.vocab.values) (p : Str) :
    spm.decode (spm.encodePiece p) = (spm.shown p).2 := by
  unfold encodePiece shown
  cases h : spm.vocab.encode p with
  | some id => exact decode_singleton h
  | none => exact decode_bytes hbytes p

/-- What becomes of a piece. -/
theorem outcome_shown (cs : List Char) :
    Outcome (spm.shown (Utf8.encode cs)).1 (spm.shown (Utf8.encode cs)).2 := by
  unfold shown
  split
  · unfold decodeToken
    simp only
    cases hs : byteSpelling (restoreSpaces (Utf8.encode cs)) with
    | none => exact Outcome.exact
    | some p =>
      obtain ⟨h, l⟩ := p
      rw [byteSpelling_eq_some hs]
      show Outcome _ ((parseByte h l).map ([·]))
      cases hp : parseByte h l with
      | none => exact Outcome.error
      | some b =>
        obtain ⟨hh, hl⟩ := parseByte_digits hp
        refine Outcome.byte b [0x30, 0x78, h, l, 0x3e] rfl (by simp) ?_
        simp [hh.symm, hl.symm]
  · rcases restoreSpaces_cases cs with heq | ⟨t, t₁, t₂, h₁, h₂⟩
    · rw [heq]
      exact Outcome.exact
    · rw [h₁] at h₂ ⊢
      exact Outcome.sep t t₁ t₂ h₂

theorem shown_iff (p : Str) : (spm.shown p).2 = some (spm.shown p).1 ↔ spm.Unmistakable p := by
  unfold shown Unmistakable
  split
  · unfold decodeToken
    simp only
    cases hs : byteSpelling (restoreSpaces p) with
    | none => exact iff_of_true rfl rfl
    | some q =>
      obtain ⟨h, l⟩ := q
      rw [byteSpelling_eq_some hs]
      cases hp : parseByte h l <;> simp
  · rw [Option.some.injEq]
    exact eq_comm

theorem decode_pieces (hbytes : ∀ b, byteToken b ∈ spm.vocab.values) (ps : List Str) :
    spm.decode (ps.flatMap spm.encodePiece) = written (ps.map spm.shown) := by
  induction ps with
  | nil => rfl
  | cons p ps ih =>
    rw [flatMap_cons, decode_append, ih, decode_encodePiece hbytes, map_cons, written]
    cases (spm.shown p).2 <;> cases written (ps.map spm.shown) <;> rfl

end SentencePiece

/-! ## §5  The text comes back -/

namespace SentencePiece

variable {σ : Type} (spm : SentencePiece σ) [LinearOrder σ] (heap : Heap (@Candidate.key σ))

/-- The pieces of a fragment: a special token, a text the vocabulary has, or
what is left of the runes after merging. -/
def fragmentPieces (frag : Fragment) : Option (List Str) :=
  if frag.ids ≠ [] then some [frag.value]
  else
    let text := replaceSpaces frag.value
    if (spm.vocab.encode text).isSome then some [text]
    else (mergeRunes spm.rules heap (runes text)).map fun groups =>
      (groups.filter (· ≠ [])).map Utf8.encode

/-- The pieces a text is cut into. -/
def pieces (s : Str) : Option (List Str) := do
  let frags ← cutSpecials spm.vocab s
  let ps ← frags.mapM (spm.fragmentPieces heap)
  some ps.flatten

variable {spm} {heap}

/-- The pieces of a fragment are its text, and their ids are those of the
fragment. -/
theorem fragmentPieces_spec {frag : Fragment} (hok : frag.Ok spm.vocab)
    (hsep : sepRune ∉ runes frag.value) :
    ∃ ps, spm.fragmentPieces heap frag = some ps ∧
      spm.encodeFragment heap frag = some (ps.flatMap spm.encodePiece) ∧
      ps.flatMap restoreSpaces = frag.value ∧ ∀ p ∈ ps, Valid p := by
  have hvalue := hok.valid.encode_runes
  unfold fragmentPieces encodeFragment
  by_cases hids : frag.ids = []
  · rw [if_neg (not_not.mpr hids), if_neg (not_not.mpr hids)]
    have htext : replaceSpaces frag.value = Utf8.encode ((runes frag.value).map toSep) := by
      conv_lhs => rw [← hvalue]
      exact replaceSpaces_encode _
    have hback : restoreSpaces (Utf8.encode ((runes frag.value).map toSep)) = frag.value := by
      rw [restoreSpaces_encode, map_fromSep_toSep hsep, hvalue]
    simp only
    rw [htext]
    generalize (runes frag.value).map toSep = cs at hback ⊢
    cases hid : spm.vocab.encode (Utf8.encode cs) with
    | some id =>
      refine ⟨[Utf8.encode cs], rfl, ?_, ?_, ?_⟩
      · rw [flatMap_singleton, encodePiece, hid]
      · rw [flatMap_singleton, hback]
      · intro p hp
        rw [mem_singleton.mp hp]
        exact valid_encode cs
    | none =>
      obtain ⟨groups, hrun, hflat, _⟩ := @mergeRunes_spec _ _ _ _ spm.rules heap (fun _ => True)
        (fun _ _ _ _ => trivial) cs
      rw [runes_encode, hrun]
      refine ⟨(groups.filter (· ≠ [])).map Utf8.encode, rfl, ?_, ?_, ?_⟩
      · -- empty nodes have no ids
        have h : ∀ gs : List (List Char), (gs.flatMap fun g => spm.encodeGroup (Utf8.encode g)) =
            ((gs.filter (· ≠ [])).map Utf8.encode).flatMap spm.encodePiece := by
          intro gs
          induction gs with
          | nil => rfl
          | cons g gs ih =>
            rw [flatMap_cons, ih, encodeGroup_eq]
            by_cases hg : g = []
            · rw [hg, if_pos encode_nil, filter_cons_of_neg (by simp), nil_append]
            · have hne : Utf8.encode g ≠ [] := fun h => hg (encode_injective (h.trans encode_nil.symm))
              rw [if_neg hne, filter_cons_of_pos (by simpa using hg), map_cons, flatMap_cons]
        exact congrArg some (h groups)
      · have h : ∀ gs : List (List Char),
            ((gs.filter (· ≠ [])).map Utf8.encode).flatMap restoreSpaces =
              restoreSpaces (Utf8.encode gs.flatten) := by
          intro gs
          induction gs with
          | nil => rfl
          | cons g gs ih =>
            rw [flatten_cons, encode_append, restoreSpaces_encode_append, ← ih]
            by_cases hg : g = []
            · rw [hg, filter_cons_of_neg (by simp)]
              rfl
            · rw [filter_cons_of_pos (by simpa using hg), map_cons, flatMap_cons]
        rw [h, hflat, hback]
      · intro p hp
        obtain ⟨g, _, rfl⟩ := mem_map.mp hp
        exact valid_encode g
  · rw [if_pos hids, if_pos hids]
    obtain ⟨_, id, hid, henc⟩ := hok.special hids
    refine ⟨[frag.value], rfl, ?_, ?_, ?_⟩
    · rw [flatMap_singleton, encodePiece, henc, hid]
    · rw [flatMap_singleton]
      conv_lhs => rw [← hvalue]
      rw [restoreSpaces_encode]
      conv_rhs => rw [← hvalue]
      refine congrArg Utf8.encode ?_
      conv_rhs => rw [← map_id (runes frag.value)]
      refine map_congr_left fun c hc => ?_
      have hne : c ≠ sepRune := fun he => hsep (he ▸ hc)
      exact if_neg hne
    · intro p hp
      rw [mem_singleton.mp hp]
      exact hok.valid

/-- The pieces of a text are the text, and their ids are those of the text. -/
theorem pieces_spec (heap : Heap (@Candidate.key σ))
    (hspecial : ∀ t ∈ spm.vocab.specialVocabulary, t ≠ []) {s : Str}
    (hs : Valid s) (hsep : sepRune ∉ runes s) :
    ∃ ps, spm.pieces heap s = some ps ∧
      spm.encode heap s false = some (ps.flatMap spm.encodePiece) ∧
      ps.flatMap restoreSpaces = s ∧ ∀ p ∈ ps, Valid p := by
  obtain ⟨frags, hcut, htext, hok⟩ := cutSpecials_spec hspecial hs
  have hsep' : ∀ f ∈ frags, sepRune ∉ runes f.value := by
    intro f hf hmem
    refine hsep ?_
    have hrunes : ∀ fs : List Fragment, (∀ f ∈ fs, f.Ok spm.vocab) →
        runes (textOf fs) = fs.flatMap fun f => runes f.value := by
      intro fs hfs
      have henc : textOf fs = Utf8.encode (fs.flatMap fun f => runes f.value) := by
        induction fs with
        | nil => rfl
        | cons f fs ih =>
          rw [textOf_cons, flatMap_cons, encode_append, (hfs f mem_cons_self).valid.encode_runes,
            ih fun g hg => hfs g (mem_cons_of_mem _ hg)]
      rw [henc, runes_encode]
    rw [← htext, hrunes frags hok]
    exact mem_flatMap.mpr ⟨f, hf, hmem⟩
  unfold pieces SentencePiece.encode
  rw [hcut, ← htext]
  simp only [Option.bind_eq_bind, Option.bind_some]
  clear hcut htext
  -- fragment by fragment
  obtain ⟨pss, idss, hpss, hidss, hids, hsrc, hvalid⟩ : ∃ pss idss,
      frags.mapM (spm.fragmentPieces heap) = some pss ∧
      frags.mapM (spm.encodeFragment heap) = some idss ∧
      idss.flatten = pss.flatten.flatMap spm.encodePiece ∧
      pss.flatten.flatMap restoreSpaces = textOf frags ∧ ∀ p ∈ pss.flatten, Valid p := by
    induction frags with
    | nil => exact ⟨[], [], rfl, rfl, rfl, rfl, fun p hp => absurd hp not_mem_nil⟩
    | cons f fs ih =>
      obtain ⟨pss, idss, hpss, hidss, hids, hsrc, hvalid⟩ :=
        ih (fun g hg => hok g (mem_cons_of_mem _ hg)) (fun g hg => hsep' g (mem_cons_of_mem _ hg))
      obtain ⟨ps, hps, henc, htext, hv⟩ := @fragmentPieces_spec _ spm _ heap f
        (hok f mem_cons_self) (hsep' f mem_cons_self)
      refine ⟨ps :: pss, ps.flatMap spm.encodePiece :: idss, ?_, ?_, ?_, ?_, ?_⟩
      · rw [mapM_cons, hps, hpss]
        rfl
      · rw [mapM_cons, henc, hidss]
        rfl
      · rw [flatten_cons, flatten_cons, flatMap_append, hids]
      · rw [flatten_cons, flatMap_append, htext, hsrc, textOf_cons]
      · intro p hp
        rcases mem_append.mp (flatten_cons ▸ hp) with hp | hp
        · exact hv p hp
        · exact hvalid p hp
  refine ⟨pss.flatten, ?_, ?_, hsrc, hvalid⟩
  · rw [hpss]
    rfl
  · rw [hidss, ← hids]
    rfl

/-- **The text comes back exactly when no piece of it is mistaken**: no piece
that is in the vocabulary spells a byte token, and no piece that is written byte
by byte has a space. -/
theorem decode_encode_iff (heap : Heap (@Candidate.key σ))
    (hbytes : ∀ b, byteToken b ∈ spm.vocab.values)
    (hspecial : ∀ t ∈ spm.vocab.specialVocabulary, t ≠ []) {s : Str}
    (hs : Valid s) (hsep : sepRune ∉ runes s) :
    (∃ ids, spm.encode heap s false = some ids ∧ spm.decode ids = some s) ↔
      ∃ ps, spm.pieces heap s = some ps ∧ ∀ p ∈ ps, spm.Unmistakable p := by
  obtain ⟨ps, hps, henc, hsrc, hvalid⟩ := pieces_spec heap hspecial hs hsep
  have houtcome : ∀ q ∈ ps.map spm.shown, Outcome q.1 q.2 := by
    intro q hq
    obtain ⟨p, hp, rfl⟩ := mem_map.mp hq
    obtain ⟨cs, rfl⟩ := hvalid p hp
    exact outcome_shown cs
  have hfst : ((ps.map spm.shown).map Prod.fst).flatten = s := by
    rw [map_map]
    exact hsrc
  have hdec := decode_pieces hbytes ps
  have hiff := written_iff houtcome
  rw [hfst, ← hdec] at hiff
  rw [henc, hps]
  constructor
  · rintro ⟨ids, hids, hback⟩
    rw [← Option.some.inj hids] at hback
    exact ⟨ps, rfl, fun p hp =>
      (shown_iff p).mp (hiff.mp hback _ (mem_map_of_mem hp))⟩
  · rintro ⟨qs, hqs, hall⟩
    rw [← Option.some.inj hqs] at hall
    refine ⟨_, rfl, hiff.mpr fun q hq => ?_⟩
    obtain ⟨p, hp, rfl⟩ := mem_map.mp hq
    exact (shown_iff p).mpr (hall p hp)

/-! ## §6  A text taken for a byte token -/

/-- The byte tokens, and U+2581 for the space. -/
def sampleVocabulary : Vocabulary ℕ where
  values := ((List.range 256).map fun n => byteToken (UInt8.ofNat n)) ++ [spmWhitespaceSep]
  types := List.replicate 256 tokenTypeByte ++ [tokenTypeNormal]
  scores := List.replicate 257 0
  merges := []
  utf8 := by
    intro v hv
    rcases mem_append.mp hv with hv | hv
    · obtain ⟨n, _, rfl⟩ := mem_map.mp hv
      have hvalid : ∀ b, byteToken b = Utf8.encode ((byteToken b).map fun x =>
          Char.ofNat x.toNat) :=
        forall_byte (P := fun b => byteToken b = Utf8.encode ((byteToken b).map fun x =>
          Char.ofNat x.toNat)) (by decide +kernel)
      exact ⟨_, hvalid _⟩
    · rw [mem_singleton.mp hv]
      exact ⟨[sepRune], by decide +kernel⟩
  types_length := by decide +kernel

def sample : SentencePiece ℕ := ⟨sampleVocabulary, by decide +kernel⟩

theorem sample_bytes (b : UInt8) : byteToken b ∈ sample.vocab.values := by
  refine mem_append_left _ (mem_map.mpr ⟨b.toNat, mem_range.mpr b.toNat_lt, ?_⟩)
  rw [UInt8.ofNat_toNat]

/-- The text "<0x41>" comes back as "A". -/
theorem byte_spelling_lost :
    let s := Utf8.encode ['<', '0', 'x', '4', '1', '>']
    let heap : Heap (@Candidate.key ℕ) := Heap.list _
    (∀ b, byteToken b ∈ sample.vocab.values) ∧
      (∀ t ∈ sample.vocab.specialVocabulary, t ≠ []) ∧ Valid s ∧ sepRune ∉ runes s ∧
      ∃ ids, sample.encode heap s false = some ids ∧
        sample.decode ids = some (Utf8.encode ['A']) ∧ sample.decode ids ≠ some s := by
  refine ⟨sample_bytes, by decide +kernel, valid_encode _, by decide +kernel, [0x41], ?_, ?_, ?_⟩
  · decide +kernel
  · decide +kernel
  · decide +kernel

/-- The text "a <" comes back. -/
theorem decode_encode_iff_sample :
    ∃ ids, sample.encode (Heap.list _) (Utf8.encode ['a', ' ', '<']) false = some ids ∧
      sample.decode ids = some (Utf8.encode ['a', ' ', '<']) := by
  refine (decode_encode_iff (Heap.list _) sample_bytes (by decide +kernel) (valid_encode _)
    (by decide +kernel)).mpr ⟨[[0x61], spmWhitespaceSep, [0x3c]], ?_, ?_⟩
  · decide +kernel
  · decide +kernel

end SentencePiece

end Ollama.Tokenizer
