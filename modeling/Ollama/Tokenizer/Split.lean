import Mathlib
import Ollama.Lib.Utf8

/-!
# Pretokenization

`BytePairEncoding.split`: the patterns are applied one after the other, each to
the pieces that the ones before have left. The regexp engine is a parameter: all
that is known of it is that matches come in order, do not overlap and are not
empty.
-/

namespace Ollama.Tokenizer

open Lib.Utf8 List

/-! ## §1  The model -/

/-- A Go string. -/
abbrev Str := List UInt8

structure Match where
  index : ℕ
  length : ℕ
deriving DecidableEq, Repr

/-- The engine on one pattern: the matches that `FindRunesMatch` and then
`FindNextMatch` return on a list of runes. -/
abbrev Regexp := List Char → List Match

/-- The loop over the matches in a part, from `offset` on. -/
def splitMatches (r : List Char) : ℕ → List Match → List Str
  | offset, [] => if offset < r.length then [encode (r.drop offset)] else []
  | offset, m :: matches_ =>
      (if (offset : Int) - m.index ≠ 0 then [encode (r.take m.index)] else []) ++
        encode ((r.drop m.index).take m.length) :: splitMatches r (m.index + m.length) matches_

def splitPart (re : Regexp) (part : Str) : List Str :=
  let r := runes part
  splitMatches r 0 (re r)

def split (regexps : List Regexp) (s : Str) : List Str :=
  regexps.foldl (fun parts re => parts.flatMap (splitPart re)) [s]

/-- The matches from `offset` on are in order, within the text, do not overlap
and are not empty. -/
def InOrder (r : List Char) : ℕ → List Match → Prop
  | _, [] => True
  | offset, m :: matches_ =>
      offset ≤ m.index ∧ 0 < m.length ∧ m.index + m.length ≤ r.length ∧
        InOrder r (m.index + m.length) matches_

/-- What is assumed of the regexp engine. -/
def Regexp.Sound (re : Regexp) : Prop := ∀ r, InOrder r 0 (re r)

/-! ## §2  One piece -/

/-- The intended pieces: each match, and the text between, before and after
them. -/
def cutMatches (r : List Char) : ℕ → List Match → List (List Char)
  | offset, [] => if offset < r.length then [r.drop offset] else []
  | offset, m :: matches_ =>
      (if offset < m.index then [(r.drop offset).take (m.index - offset)] else []) ++
        (r.drop m.index).take m.length :: cutMatches r (m.index + m.length) matches_

def cut (re : Regexp) (r : List Char) : List (List Char) := cutMatches r 0 (re r)

/-- Each match begins where the one before ends: there is unmatched text only
before the first match and after the last one. -/
def Adjoining : List Match → Prop
  | m :: m' :: matches_ => m.index + m.length = m'.index ∧ Adjoining (m' :: matches_)
  | _ => True

instance decidableAdjoining : (l : List Match) → Decidable (Adjoining l)
  | [] => isTrue trivial
  | [_] => isTrue trivial
  | _ :: m' :: matches_ =>
      haveI := decidableAdjoining (m' :: matches_)
      inferInstanceAs (Decidable (_ ∧ _))

/-- The number of runes in some pieces. -/
def size (pieces : List (List Char)) : ℕ := (pieces.map List.length).sum

@[simp] theorem size_nil : size [] = 0 := rfl

@[simp] theorem size_cons (p : List Char) (ps : List (List Char)) :
    size (p :: ps) = p.length + size ps := rfl

theorem size_flatten (ps : List (List Char)) : ps.flatten.length = size ps := length_flatten

/-- The pieces the loop yields, as runes. -/
def yielded (r : List Char) : ℕ → List Match → List (List Char)
  | offset, [] => if offset < r.length then [r.drop offset] else []
  | offset, m :: matches_ =>
      (if offset ≠ m.index then [r.take m.index] else []) ++
        (r.drop m.index).take m.length :: yielded r (m.index + m.length) matches_

theorem splitMatches_eq (r : List Char) (matches_ : List Match) :
    ∀ offset, splitMatches r offset matches_ = (yielded r offset matches_).map encode := by
  induction matches_ with
  | nil =>
    intro offset
    rw [splitMatches, yielded]
    split <;> rfl
  | cons m matches_ ih =>
    intro offset
    rw [splitMatches, yielded, ih, map_append, map_cons]
    by_cases h : offset = m.index
    · rw [if_neg (by omega), if_neg (by omega)]
      rfl
    · rw [if_pos (by omega), if_pos h]
      rfl

variable {r : List Char} {matches_ : List Match}

/-- The intended pieces make up the text. -/
theorem cutMatches_flatten :
    ∀ {offset}, InOrder r offset matches_ → (cutMatches r offset matches_).flatten =
      r.drop offset := by
  induction matches_ with
  | nil =>
    intro offset _
    rw [cutMatches]
    split
    · exact flatten_singleton
    · rename_i h
      exact (drop_eq_nil_of_le (Nat.not_lt.mp h)).symm
  | cons m matches_ ih =>
    intro offset h
    obtain ⟨hle, _, _, hrest⟩ := h
    have hmatch : (r.drop m.index).take m.length ++ r.drop (m.index + m.length) =
        r.drop m.index := by
      rw [← drop_drop, take_append_drop]
    rw [cutMatches, flatten_append, flatten_cons, ih hrest, hmatch]
    split
    · rw [flatten_singleton]
      obtain ⟨k, hk⟩ := Nat.exists_eq_add_of_le hle
      rw [hk, Nat.add_sub_cancel_left, ← drop_drop, take_append_drop]
    · rw [flatten_nil, nil_append, show offset = m.index by omega]

theorem yielded_of_adjoining {m : Match} :
    ∀ {offset}, Adjoining (m :: matches_) → offset = m.index →
      yielded r offset (m :: matches_) = cutMatches r offset (m :: matches_) := by
  induction matches_ generalizing m with
  | nil =>
    rintro offset - rfl
    rw [yielded, cutMatches, if_neg (not_not.mpr rfl), if_neg (Nat.lt_irrefl _)]
    rfl
  | cons m' matches_ ih =>
    rintro offset ⟨hnext, hrest⟩ rfl
    rw [yielded, cutMatches, if_neg (not_not.mpr rfl), if_neg (Nat.lt_irrefl _), ih hrest hnext]

/-- The loop yields no less than the text, and more when it meets a gap with
something before it. -/
theorem le_size_yielded : ∀ {offset}, InOrder r offset matches_ →
      r.length ≤ offset + size (yielded r offset matches_) := by
  induction matches_ with
  | nil =>
    intro offset _
    rw [yielded]
    split
    · rw [size_cons, size_nil, length_drop]
      omega
    · omega
  | cons m matches_ ih =>
    intro offset h
    obtain ⟨hle, _, hend, hrest⟩ := h
    have := ih hrest
    have hlen : ((r.drop m.index).take m.length).length = m.length := by
      rw [length_take, length_drop]
      omega
    rw [yielded]
    split
    · rw [singleton_append, size_cons, size_cons, hlen, length_take]
      omega
    · rw [nil_append, size_cons, hlen]
      omega

theorem lt_size_yielded {m : Match} :
    ∀ {offset}, InOrder r offset (m :: matches_) → ¬Adjoining (m :: matches_) →
      r.length < offset + size (yielded r offset (m :: matches_)) := by
  induction matches_ generalizing m with
  | nil => exact fun _ hadj => absurd trivial hadj
  | cons m' matches_ ih =>
    intro offset h hadj
    obtain ⟨hle, hpos, hend, hrest⟩ := h
    have hlen : ((r.drop m.index).take m.length).length = m.length := by
      rw [length_take, length_drop]
      omega
    -- what the rest of the loop yields is already too much
    have htail : r.length < m.index + m.length +
        size (yielded r (m.index + m.length) (m' :: matches_)) := by
      by_cases hgap : m.index + m.length = m'.index
      · exact ih hrest fun hadj' => hadj ⟨hgap, hadj'⟩
      obtain ⟨hle', hpos', hend', hrest'⟩ := hrest
      have := le_size_yielded hrest'
      have hlen' : ((r.drop m'.index).take m'.length).length = m'.length := by
        rw [length_take, length_drop]
        omega
      rw [yielded, if_pos hgap, singleton_append, size_cons, size_cons, hlen', length_take]
      omega
    rw [yielded]
    split
    · rw [singleton_append, size_cons, size_cons, hlen, length_take]
      omega
    · rw [nil_append, size_cons, hlen]
      omega

/-! ## §3  All patterns -/

def yieldPart (re : Regexp) (r : List Char) : List (List Char) := yielded r 0 (re r)

theorem splitPart_encode (re : Regexp) (r : List Char) :
    splitPart re (encode r) = (yieldPart re r).map encode := by
  unfold splitPart
  rw [runes_encode]
  exact splitMatches_eq r (re r) 0

theorem flatMap_splitPart (re : Regexp) (parts : List (List Char)) :
    (parts.map encode).flatMap (splitPart re) = (parts.flatMap (yieldPart re)).map encode := by
  induction parts with
  | nil => rfl
  | cons part parts ih =>
    rw [map_cons, flatMap_cons, flatMap_cons, map_append, ih, splitPart_encode]

def yieldAll (regexps : List Regexp) (parts : List (List Char)) : List (List Char) :=
  regexps.foldl (fun parts re => parts.flatMap (yieldPart re)) parts

theorem foldl_splitPart (regexps : List Regexp) : ∀ parts : List (List Char),
      regexps.foldl (fun parts re => parts.flatMap (splitPart re)) (parts.map encode) =
        (yieldAll regexps parts).map encode := by
  induction regexps with
  | nil => exact fun _ => rfl
  | cons re regexps ih =>
    intro parts
    rw [foldl_cons, flatMap_splitPart]
    exact ih _

variable {re : Regexp}

theorem yieldPart_of_adjoining (h : Adjoining (re r)) : yieldPart re r = cut re r := by
  unfold yieldPart cut
  cases hm : re r with
  | nil => rfl
  | cons m matches_ =>
    rw [hm] at h
    have htail : yielded r (m.index + m.length) matches_ =
        cutMatches r (m.index + m.length) matches_ := by
      cases matches_ with
      | nil => rfl
      | cons m' matches_ => exact yielded_of_adjoining h.2 h.1
    rw [yielded, cutMatches, htail]
    rcases Nat.eq_zero_or_pos m.index with h0 | hpos
    · rw [if_neg (by omega), if_neg (by omega)]
    · rw [if_pos (by omega), if_pos hpos, drop_zero, Nat.sub_zero]

theorem le_size_yieldPart (hre : re.Sound) (r : List Char) : r.length ≤ size (yieldPart re r) := by
  have := le_size_yielded (hre r)
  rwa [Nat.zero_add] at this

theorem lt_size_yieldPart (hre : re.Sound)
    (h : ¬Adjoining (re r)) : r.length < size (yieldPart re r) := by
  have hsound := hre r
  unfold yieldPart
  cases hm : re r with
  | nil =>
    rw [hm] at h
    exact absurd trivial h
  | cons m matches_ =>
    rw [hm] at h hsound
    have := lt_size_yielded hsound h
    rwa [Nat.zero_add] at this

theorem size_append (ps qs : List (List Char)) : size (ps ++ qs) = size ps + size qs := by
  unfold size
  rw [map_append, sum_append]

theorem le_size_flatMap (hre : re.Sound) (parts : List (List Char)) :
    size parts ≤ size (parts.flatMap (yieldPart re)) := by
  induction parts with
  | nil => exact le_rfl
  | cons part parts ih =>
    have := le_size_yieldPart hre part
    rw [flatMap_cons, size_append, size_cons]
    omega

theorem lt_size_flatMap (hre : re.Sound) {parts : List (List Char)}
    {part : List Char} (hmem : part ∈ parts) (h : ¬Adjoining (re part)) :
    size parts < size (parts.flatMap (yieldPart re)) := by
  obtain ⟨front, back, rfl⟩ := append_of_mem hmem
  have hfront := le_size_flatMap hre front
  have hback := le_size_flatMap hre back
  have hpart := lt_size_yieldPart hre h
  rw [flatMap_append, flatMap_cons, size_append, size_append, size_append, size_cons]
  omega

theorem le_size_yieldAll {regexps : List Regexp} (hsound : ∀ re ∈ regexps, re.Sound) :
    ∀ parts, size parts ≤ size (yieldAll regexps parts) := by
  induction regexps with
  | nil => exact fun _ => le_rfl
  | cons re regexps ih =>
    intro parts
    exact (le_size_flatMap (hsound re mem_cons_self) parts).trans
      (ih (fun re' h => hsound re' (mem_cons_of_mem _ h)) _)

/-- **The condition on text and patterns**: in every piece into which the
patterns before have cut the text, there is no unmatched text between two
matches of a pattern. -/
def GapFree : List Regexp → List (List Char) → Prop
  | [], _ => True
  | re :: regexps, parts =>
      (∀ part ∈ parts, Adjoining (re part)) ∧ GapFree regexps (parts.flatMap (cut re))

theorem flatten_cut (hre : re.Sound) (r : List Char) : (cut re r).flatten = r :=
  (cutMatches_flatten (hre r)).trans drop_zero

theorem flatten_flatMap_cut (hre : re.Sound) (parts : List (List Char)) :
    (parts.flatMap (cut re)).flatten = parts.flatten := by
  induction parts with
  | nil => rfl
  | cons part parts ih =>
    rw [flatMap_cons, flatten_append, flatten_cut hre, ih, flatten_cons]

theorem yieldAll_flatten_iff {regexps : List Regexp} (hsound : ∀ re ∈ regexps, re.Sound) :
    ∀ parts, (yieldAll regexps parts).flatten = parts.flatten ↔ GapFree regexps parts := by
  induction regexps with
  | nil => exact fun _ => iff_of_true rfl trivial
  | cons re regexps ih =>
    intro parts
    have hre := hsound re mem_cons_self
    have hrest : ∀ re' ∈ regexps, re'.Sound := fun re' h => hsound re' (mem_cons_of_mem _ h)
    have hunfold : yieldAll (re :: regexps) parts =
        yieldAll regexps (parts.flatMap (yieldPart re)) := rfl
    rw [hunfold]
    by_cases hadj : ∀ part ∈ parts, Adjoining (re part)
    · have hcut : parts.flatMap (yieldPart re) = parts.flatMap (cut re) :=
        flatMap_congr fun part hp => yieldPart_of_adjoining (hadj part hp)
      rw [hcut, ← flatten_flatMap_cut hre parts, ih hrest]
      exact ⟨fun h => ⟨hadj, h⟩, fun h => h.2⟩
    -- text that has been repeated is never lost again
    refine iff_of_false (fun heq => ?_) fun h => hadj h.1
    push Not at hadj
    obtain ⟨part, hmem, hgap⟩ := hadj
    have hlt := lt_size_flatMap hre hmem hgap
    have hle := le_size_yieldAll hrest (parts.flatMap (yieldPart re))
    have hlen := congrArg List.length heq
    rw [size_flatten, size_flatten] at hlen
    omega

theorem flatten_map_encode (ps : List (List Char)) : (ps.map encode).flatten = encode ps.flatten := by
  induction ps with
  | nil => rfl
  | cons p ps ih => rw [map_cons, flatten_cons, flatten_cons, ih, encode_append]

theorem encode_injective : Function.Injective encode := Function.LeftInverse.injective runes_encode

/-- **Splitting keeps the text exactly when** no pattern leaves text unmatched
between two matches in a piece. -/
theorem split_flatten_iff {regexps : List Regexp} (hsound : ∀ re ∈ regexps, re.Sound) {s : Str}
    (hs : Valid s) : (split regexps s).flatten = s ↔ GapFree regexps [runes s] := by
  obtain ⟨r, rfl⟩ := hs
  have hsplit : split regexps (encode r) = (yieldAll regexps [r]).map encode :=
    foldl_splitPart regexps [r]
  rw [hsplit, flatten_map_encode, encode_injective.eq_iff, runes_encode,
    ← yieldAll_flatten_iff hsound [r], flatten_singleton]

/-- The pattern `[0-9]`. -/
def digitsFrom : ℕ → List Char → List Match
  | _, [] => []
  | i, c :: cs => if c.isDigit then ⟨i, 1⟩ :: digitsFrom (i + 1) cs else digitsFrom (i + 1) cs

def digits : Regexp := digitsFrom 0

theorem digits_sound : digits.Sound := by
  intro r
  have h : ∀ cs i offset, offset ≤ i → i + cs.length ≤ r.length →
      InOrder r offset (digitsFrom i cs) := by
    intro cs
    induction cs with
    | nil => exact fun _ _ _ _ => trivial
    | cons c cs ih =>
      intro i offset hi hle
      rw [length_cons] at hle
      rw [digitsFrom]
      split
      · exact ⟨hi, Nat.one_pos, show i + 1 ≤ r.length by omega, ih _ _ le_rfl (by omega)⟩
      · exact ih _ _ (by omega) (by omega)
  exact h r 0 0 le_rfl (by omega)

theorem digits_sound' : ∀ re ∈ [digits], re.Sound := by
  intro re hre
  rw [mem_singleton.mp hre]
  exact digits_sound

/-- The text "a12b". -/
theorem split_flatten_iff_digits :
    (∀ re ∈ [digits], re.Sound) ∧ Valid (encode ['a', '1', '2', 'b']) ∧
    ((split [digits] (encode ['a', '1', '2', 'b'])).flatten = encode ['a', '1', '2', 'b'] ↔
      GapFree [digits] [runes (encode ['a', '1', '2', 'b'])]) :=
  ⟨digits_sound', valid_encode _, split_flatten_iff digits_sound' (valid_encode _)⟩

/-! ## §4  A gap that repeats text -/

/-- **Text is repeated.** The text "1a2" split at its digits comes back as
"11a2". -/
theorem split_repeats : (∀ re ∈ [digits], re.Sound) ∧ Valid (encode ['1', 'a', '2']) ∧
    (split [digits] (encode ['1', 'a', '2'])).flatten ≠ encode ['1', 'a', '2'] := by
  refine ⟨digits_sound', valid_encode _, fun h => ?_⟩
  have hsplit : (split [digits] (encode ['1', 'a', '2'])).flatten =
      encode ['1', '1', 'a', '2'] := by decide +kernel
  rw [hsplit] at h
  exact absurd (encode_injective h) (by decide)

end Ollama.Tokenizer
