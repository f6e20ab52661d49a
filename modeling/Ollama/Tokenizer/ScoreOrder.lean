import Ollama.Tokenizer.SentencePiece
import Ollama.Tokenizer.MergeOrder

/-!
# SentencePiece merges by score

The naive algorithm merges the two neighbours whose text is in the vocabulary
with the highest score, the leftmost ones of several, while there are any. The
heap of `Encode` finds the same pairs.
-/

namespace Ollama.Tokenizer.SentencePiece

open Lib Lib.Utf8 Lib.PairMerge

variable {σ : Type} [LinearOrder σ] (spm : SentencePiece σ)

/-! ## §1  The naive algorithm -/

/-- The score of two neighbours, if their text is in the vocabulary; the highest
one comes first. -/
def pairScore (left right : List Char) : Option σᵒᵈ :=
  (spm.vocab.encode (Utf8.encode left ++ Utf8.encode right)).bind fun id =>
    spm.vocab.scores[id]?.map OrderDual.toDual

def mergeNaive (rs : List Char) : List (List Char) :=
  canonical spm.pairScore (· ++ ·) (rs.map fun c => [c])

def encodeFragmentNaive (frag : Fragment) : List ℕ :=
  if frag.ids ≠ [] then frag.ids
  else
    let text := replaceSpaces frag.value
    match spm.vocab.encode text with
    | some id => [id]
    | none => (spm.mergeNaive (runes text)).flatMap fun g => spm.encodeGroup (Utf8.encode g)

/-- `Encode` with the naive algorithm. -/
def encodeNaive (s : Str) (addSpecial : Bool) : Option (List ℕ) := do
  let frags ← cutSpecials spm.vocab s
  let ids := frags.flatMap spm.encodeFragmentNaive
  if addSpecial ∧ ids ≠ [] then spm.vocab.addSpecials ids else some ids

/-! ## §2  The heap -/

/-- `queue.Less` ranks by score, then from the left. -/
theorem ranked : Ranked spm.rules Candidate.key spm.pairScore True where
  fresh := by
    intro i j l r e h
    obtain ⟨id, _, hid⟩ := Option.bind_eq_some_iff.mp h
    obtain ⟨score, _, rfl⟩ := Option.map_eq_some_iff.mp hid
    exact decide_eq_true rfl
  stale := by
    intro i j l r r' e h hfresh hprefix
    obtain ⟨id, _, hid⟩ := Option.bind_eq_some_iff.mp h
    obtain ⟨score, _, rfl⟩ := Option.map_eq_some_iff.mp hid
    have hsize : l.length + r'.length = l.length + r.length := of_decide_eq_true hfresh
    exact hprefix.eq_of_length (Nat.add_left_cancel hsize).symm
  rank := by
    refine ⟨fun e => OrderDual.toDual e.score, fun i j x y => ?_, fun e e' hle => ?_⟩
    · unfold pairScore rules
      rw [Option.map_bind]
      congr 1
      funext id
      exact Option.map_map _ _ _
    · rcases Prod.Lex.toLex_le_toLex.mp hle with hlt | ⟨heq, hpos⟩
      · exact Or.inl hlt
      · exact Or.inr ⟨heq, fun _ => hpos⟩

variable {spm} (heap : Heap (@Candidate.key σ))

omit [LinearOrder σ] in
theorem flatMap_encodeGroup (groups : List (List Char)) :
    (groups.flatMap fun g => spm.encodeGroup (Utf8.encode g)) =
      (groups.filter fun g => decide (g ≠ [])).flatMap fun g => spm.encodeGroup (Utf8.encode g) := by
  induction groups with
  | nil => rfl
  | cons g groups ih =>
    rw [List.flatMap_cons, ih, List.filter_cons]
    by_cases hg : g = []
    · subst hg
      rfl
    · rw [if_pos (decide_eq_true hg), List.flatMap_cons]

theorem encodeFragment_eq_naive (frag : Fragment) :
    spm.encodeFragment heap frag = some (spm.encodeFragmentNaive frag) := by
  unfold encodeFragment encodeFragmentNaive
  split
  · rfl
  simp only
  cases spm.vocab.encode (replaceSpaces frag.value) with
  | some id => rfl
  | none =>
    obtain ⟨groups, hrun, _⟩ := @mergeRunes_spec _ _ _ _ spm.rules heap (fun _ => True)
      (fun _ _ _ _ => trivial) (runes (replaceSpaces frag.value))
    have hout := mergeRunes_outcome spm.ranked hrun
    rw [hrun, Option.map_some, flatMap_encodeGroup, ← canonical_of_outcome hout]
    rfl

/-- **The heap merges as the naive algorithm does**: whatever the vocabulary, the
scores and the text. -/
theorem encode_eq_naive (s : Str) (addSpecial : Bool) :
    spm.encode heap s addSpecial = spm.encodeNaive s addSpecial := by
  unfold encode encodeNaive
  cases cutSpecials spm.vocab s with
  | none => rfl
  | some frags =>
    have hids : frags.mapM (spm.encodeFragment heap) = some (frags.map spm.encodeFragmentNaive) := by
      induction frags with
      | nil => rfl
      | cons frag frags ih =>
        rw [List.mapM_cons, encodeFragment_eq_naive, ih]
        rfl
    simp only [Option.bind_eq_bind, Option.bind_some, hids, List.flatMap_def]

end Ollama.Tokenizer.SentencePiece
