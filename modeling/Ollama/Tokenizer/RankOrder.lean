import Ollama.Tokenizer.BytePairEncoding
import Ollama.Tokenizer.MergeOrder
import Mathlib.Data.Prod.Lex

/-!
# Byte pair encoding merges by rank

Canonical byte pair encoding merges the two neighbours of the lowest rank, the
leftmost ones of several. The heap of `Encode` compares ranks only, so it may
take any of several pairs of the lowest rank; that it ends in the same ids is a
matter of the merge table and the text.
-/

namespace Ollama.Tokenizer.BytePairEncoding

open Lib Lib.Utf8 Lib.PairMerge List

variable {σ : Type} (bpe : BytePairEncoding σ)

/-! ## §1  Canonical merging -/

/-- The rank of two neighbours in the merge table. -/
def pairRank (left right : List Char) : Option ℕ :=
  bpe.vocab.merge (Utf8.encode left) (Utf8.encode right)

/-- The runes of a piece, each a symbol. -/
def symbols (piece : Str) : List (List Char) := (runes (bpe.normalize piece)).map fun c => [c]

/-- The ids of some symbols. -/
def idsOf (s : List (List Char)) : List ℕ := s.flatMap bpe.encodeGroup

/-- The ids of a piece by canonical merging. -/
def encodeCanonical (piece : Str) : List ℕ :=
  match bpe.vocab.encode (bpe.normalize piece) with
  | some id => [id]
  | none => bpe.idsOf (canonical bpe.pairRank (· ++ ·) (bpe.symbols piece))

/-- Every result of a merge is a token. -/
def MergesAreTokens : Prop :=
  ∀ l r rank, bpe.vocab.merge l r = some rank → bpe.vocab.encode (l ++ r) ≠ none

/-! ## §2  Any heap -/

variable {bpe}

/-- The heap ranks by the merge table, and leaves ties open. -/
theorem ranked (hmerges : bpe.MergesAreTokens) :
    Ranked bpe.rules RankedPair.rank bpe.pairRank False where
  fresh := by
    intro i j l r e h
    obtain ⟨rank, hrank, rfl⟩ := Option.map_eq_some_iff.mp h
    refine Bool.and_eq_true_iff.mpr ⟨decide_eq_true rfl, ?_⟩
    exact Option.isSome_iff_ne_none.mpr (hmerges l r rank hrank)
  stale := by
    intro i j l r r' e h hfresh _
    obtain ⟨rank, _, rfl⟩ := Option.map_eq_some_iff.mp h
    have heq : l ++ r' = l ++ r := of_decide_eq_true (Bool.and_eq_true_iff.mp hfresh).1
    exact (append_cancel_left heq).symm
  rank := by
    refine ⟨RankedPair.rank, fun i j x y => ?_, fun e e' hle => ?_⟩
    · show ((bpe.vocab.merge (Utf8.encode x) (Utf8.encode y)).map _).map _ = _
      rw [Option.map_map]
      exact congrFun Option.map_id _
    · rcases lt_or_eq_of_le hle with hlt | heq
      · exact Or.inl hlt
      · exact Or.inr ⟨heq, False.elim⟩

theorem flatMap_encodeGroup (groups : List (List Char)) :
    groups.flatMap bpe.encodeGroup = bpe.idsOf (groups.filter fun g => decide (g ≠ [])) := by
  unfold idsOf
  induction groups with
  | nil => rfl
  | cons g groups ih =>
    rw [flatMap_cons, ih, filter_cons]
    by_cases hg : g = []
    · subst hg
      rfl
    · rw [if_pos (decide_eq_true hg), flatMap_cons]

variable {piece : Str}

theorem encodePiece_of_not_token (heap : Heap RankedPair.rank)
    (hpiece : bpe.vocab.encode (bpe.normalize piece) = none) :
    ∃ groups, mergeRunes bpe.rules heap (runes (bpe.normalize piece)) = some groups ∧
      bpe.encodePiece heap piece = some (bpe.idsOf (groups.filter fun g => decide (g ≠ []))) := by
  obtain ⟨groups, hrun, _⟩ := @mergeRunes_spec _ _ _ _ bpe.rules heap (fun _ => True)
    (fun _ _ _ _ => trivial) (runes (bpe.normalize piece))
  refine ⟨groups, hrun, ?_⟩
  unfold encodePiece
  simp only [hpiece, hrun]
  rw [Option.map_some, flatMap_encodeGroup]

theorem encodePiece_outcome (hmerges : bpe.MergesAreTokens) (heap : Heap RankedPair.rank)
    (hpiece : bpe.vocab.encode (bpe.normalize piece) = none) :
    ∃ s, Outcome bpe.pairRank (· ++ ·) False (bpe.symbols piece) s ∧
      bpe.encodePiece heap piece = some (bpe.idsOf s) := by
  obtain ⟨groups, hrun, hids⟩ := encodePiece_of_not_token heap hpiece
  exact ⟨_, mergeRunes_outcome (ranked hmerges) hrun, hids⟩

/-! ## §3  A heap for every run -/

def pairOf (pre : List (List Char)) (x y : List Char) (rank : ℕ) : RankedPair :=
  ⟨size pre, size pre + x.length, rank, Utf8.encode x ++ Utf8.encode y⟩

variable (bpe) in
inductive Scheduled : List (List Char) → List RankedPair → List (List Char) → Prop
  | done {s} : Done bpe.pairRank s → Scheduled s [] s
  | merge {s pre x y post rank schedule t} : Redex bpe.pairRank s pre x y post rank →
      Lowest bpe.pairRank False s pre rank →
      Scheduled (pre ++ (x ++ y) :: post) schedule t →
      Scheduled s (pairOf pre x y rank :: schedule) t

theorem exists_scheduled {s t : List (List Char)} (h : Outcome bpe.pairRank (· ++ ·) False s t) :
    ∃ schedule, bpe.Scheduled s schedule t := by
  obtain ⟨hrun, hdone⟩ := h
  induction hrun using Relation.ReflTransGen.head_induction_on with
  | refl => exact ⟨[], Scheduled.done hdone⟩
  | head hstep _ ih =>
    obtain ⟨schedule, hs⟩ := ih
    obtain ⟨hr, hl⟩ := hstep
    exact ⟨_, Scheduled.merge hr hl hs⟩

theorem idxOf_le_iff {earlier later : List RankedPair} {e e' : RankedPair} (h : e ∉ earlier)
    (h' : e' ∉ earlier)
    (hle : (earlier ++ e :: later).idxOf e' ≤ (earlier ++ e :: later).idxOf e) : e' = e := by
  rw [idxOf_append_of_notMem h, idxOf_append_of_notMem h', idxOf_cons_self] at hle
  have hzero : (e :: later).idxOf e' = 0 := by omega
  by_contra hne
  rw [idxOf_cons_ne _ (Ne.symm hne)] at hzero
  exact Nat.succ_ne_zero _ hzero

variable {nodes : ℕ → Node}

/-- What can be merged is not a pair whose right node is empty. -/
theorem not_mem_of_pair {pre post : List (List Char)} {x y : List Char}
    (h : Laid nodes 0 (-1) (pre ++ x :: y :: post)) {e : RankedPair} (hb : e.b = size pre + x.length)
    {earlier : List RankedPair} (hempty : ∀ e ∈ earlier, (nodes e.b).runes = []) : e ∉ earlier := by
  have h' : Laid nodes 0 (-1) ((pre ++ [x]) ++ y :: post) := by
    rw [append_assoc]
    exact h
  obtain ⟨hy, hyne⟩ := h'.node
  rw [Nat.zero_add, size_append, size_cons, size_nil, Nat.add_zero] at hy
  intro hmem
  have hnil := hempty e hmem
  rw [hb, hy] at hnil
  exact hyne hnil

/-- Symbols that take up as many runes are the same ones. -/
theorem append_inj_of_size {pre pre' post post' : List (List Char)}
    (h : Laid nodes 0 (-1) (pre ++ post)) (heq : pre ++ post = pre' ++ post')
    (hsize : size pre = size pre') : pre = pre' ∧ post = post' := by
  rcases append_eq_append_iff.mp heq with ⟨mid, rfl, rfl⟩ | ⟨mid, rfl, rfl⟩
  · rw [size_append] at hsize
    have hmid : mid = [] := eq_nil_of_size (fun x hx => h.ne_nil x (by simp [hx])) (by omega)
    rw [hmid, append_nil]
    exact ⟨rfl, rfl⟩
  · rw [size_append] at hsize
    have hmid : mid = [] := eq_nil_of_size (fun x hx => h.ne_nil x (by simp [hx])) (by omega)
    rw [hmid, append_nil]
    exact ⟨rfl, rfl⟩

variable {rank : ℕ}

/-- The pair that comes out of the heap and is merged is the one scheduled. -/
theorem eq_scheduled {heap : Heap RankedPair.rank} {len : ℕ} {earlier later : List RankedPair}
    (hties : ∀ q e rest, heap.pop q = some (e, rest) → ∀ e' ∈ rest, e.rank = e'.rank →
      (earlier ++ later).idxOf e ≤ (earlier ++ later).idxOf e')
    (hempty : ∀ e ∈ earlier, (nodes e.b).runes = [])
    {s pre post pre' post' : List (List Char)} {x y x' y' : List Char}
    {schedule queue rest : List RankedPair} {e : RankedPair}
    (hlater : later = pairOf pre x y rank :: schedule)
    (h : Holds bpe.rules len nodes s queue) (hr : Redex bpe.pairRank s pre x y post rank)
    (hl : Lowest bpe.pairRank False s pre rank) (hpop : heap.pop queue = some (e, rest))
    (heq : s = pre' ++ x' :: y' :: post')
    (he : bpe.rules.pairwise (size pre') (size pre' + x'.length) (Utf8.encode x')
      (Utf8.encode y') = some e) :
    e = pairOf pre x y rank ∧ pre' = pre ∧ x' = x ∧ y' = y ∧ post' = post := by
  have ha : e.a = size pre' := bpe.rules.pairwise_a _ _ _ _ _ he
  have hb : e.b = size pre' + x'.length := bpe.rules.pairwise_b _ _ _ _ _ he
  have hlaid := h.laid
  have hqueued : bpe.rules.pairwise (size pre) (size pre + x.length) (Utf8.encode x)
      (Utf8.encode y) = some (pairOf pre x y rank) := by
    show (bpe.vocab.merge _ _).map _ = _
    rw [show bpe.vocab.merge (Utf8.encode x) (Utf8.encode y) = some rank from hr.rank]
    rfl
  have hmem := (heap.perm _ _ _ hpop).mem_iff.mp (h.queued.all pre x y post _ hr.eq hqueued)
  have hsame : e = pairOf pre x y rank := by
    rcases mem_cons.mp hmem with hfirst | hin
    · exact hfirst.symm
    obtain ⟨rank', hrank', rfl⟩ := Option.map_eq_some_iff.mp he
    have hrank : rank' = rank :=
      le_antisymm (heap.least _ _ _ hpop (pairOf pre x y rank) hin)
        (hl.le (⟨heq, hrank'⟩ : Redex bpe.pairRank s pre' x' y' post' rank'))
    have hidx := hties _ _ _ hpop (pairOf pre x y rank) hin hrank
    rw [hlater] at hidx
    refine idxOf_le_iff ?_ ?_ hidx
    · rw [hr.eq] at hlaid
      exact not_mem_of_pair hlaid rfl hempty
    · rw [heq] at hlaid
      exact not_mem_of_pair hlaid hb hempty
  rw [heq] at hlaid
  obtain ⟨hpre, htail⟩ := append_inj_of_size hlaid (heq.symm.trans hr.eq)
    (ha.symm.trans (congrArg RankedPair.a hsame))
  obtain ⟨hx, htail⟩ := List.cons.inj htail
  obtain ⟨hy, hpost⟩ := List.cons.inj htail
  exact ⟨hsame, hpre, hx, hy, hpost⟩

/-- **A heap that breaks ties by the schedule follows it.** -/
theorem Scheduled.run (hmerges : bpe.MergesAreTokens) {heap : Heap RankedPair.rank} {len : ℕ}
    {all : List RankedPair} (hties : ∀ q e rest, heap.pop q = some (e, rest) →
      ∀ e' ∈ rest, e.rank = e'.rank → all.idxOf e ≤ all.idxOf e') :
    ∀ fuel nodes queue s earlier schedule t nodes', bpe.Scheduled s schedule t →
      all = earlier ++ schedule → Holds bpe.rules len nodes s queue →
      (∀ e ∈ earlier, (nodes e.b).runes = []) →
      mergeLoop bpe.rules heap len fuel nodes queue = some nodes' →
      Laid nodes' 0 (-1) t ∧ size t = len := by
  intro fuel
  induction fuel with
  | zero =>
    intro nodes queue s earlier schedule t nodes' hs _ h _ hrun
    cases queue with
    | nil =>
      rw [mergeLoop_nil] at hrun
      cases hrun
      cases hs with
      | done hd => exact ⟨h.laid, h.length⟩
      | merge hr _ _ => exact absurd hr (h.done (ranked hmerges) _ _ _ _ _)
    | cons e queue =>
      obtain ⟨e', rest, hpop⟩ := heap.exists_of_ne_nil (e :: queue) (cons_ne_nil _ _)
      rw [mergeLoop, hpop] at hrun
      cases hrun
  | succ fuel ih =>
    intro nodes queue s earlier schedule t nodes' hs hall h hempty hrun
    cases queue with
    | nil =>
      rw [mergeLoop_nil] at hrun
      cases hrun
      cases hs with
      | done hd => exact ⟨h.laid, h.length⟩
      | merge hr _ _ => exact absurd hr (h.done (ranked hmerges) _ _ _ _ _)
    | cons e₀ queue =>
      obtain ⟨e, rest, hpop⟩ := heap.exists_of_ne_nil (e₀ :: queue) (cons_ne_nil _ _)
      by_cases hpass : Passes bpe.rules nodes e
      · obtain ⟨pre', x', y', post', heq, he, hstep, h'⟩ := h.round (ranked hmerges) hpop hpass rfl
        cases hs with
        | done hd => exact absurd hd hstep.not_done
        | @merge _ pre x y post rank schedule _ hr hl hs =>
          rw [hall] at hties
          obtain ⟨hsame, rfl, rfl, rfl, rfl⟩ :=
            eq_scheduled hties hempty rfl h hr hl hpop heq he
          rw [mergeLoop_merge hpop hpass rfl] at hrun
          refine ih _ _ _ (earlier ++ [pairOf pre' x' y' rank]) schedule t nodes' hs ?_ h' ?_ hrun
          · rw [hall, append_assoc]
            rfl
          have hab : bpe.rules.a e < bpe.rules.b e := by
            have hxpos := length_pos_iff.mpr (h.laid.ne_nil x' (by rw [heq]; simp))
            rw [bpe.rules.pairwise_a _ _ _ _ _ he, bpe.rules.pairwise_b _ _ _ _ _ he]
            omega
          -- nodes that are empty stay so, and the right node becomes so
          intro e' he'
          rcases mem_append.mp he' with he' | he'
          · exact mergeAt_empty hab (hempty e' he') hpass.1
          · rw [mem_singleton.mp he', ← hsame]
            exact mergeAt_runes_right
      · rw [mergeLoop_drop hpop hpass] at hrun
        exact ih _ _ _ _ _ _ _ hs hall
          ⟨h.laid, h.length, h.queued.drop (ranked hmerges) h.laid hpop hpass⟩ hempty hrun

/-- **Every run is that of some heap.** -/
theorem exists_heap (hmerges : bpe.MergesAreTokens) {t : List (List Char)}
    (hpiece : bpe.vocab.encode (bpe.normalize piece) = none)
    (h : Outcome bpe.pairRank (· ++ ·) False (bpe.symbols piece) t) :
    ∃ heap : Heap RankedPair.rank, bpe.encodePiece heap piece = some (bpe.idsOf t) := by
  obtain ⟨schedule, hs⟩ := exists_scheduled h
  -- ties are broken by the place in the schedule
  let key : RankedPair → ℕ ×ₗ ℕ := fun e => toLex (e.rank, schedule.idxOf e)
  let heap : Heap RankedPair.rank := (Heap.list key).coarsen fun e e' hle =>
    Prod.Lex.monotone_fst _ _ hle
  refine ⟨heap, ?_⟩
  obtain ⟨groups, hrun, hids⟩ := encodePiece_of_not_token heap hpiece
  obtain ⟨nodes', hloop, rfl⟩ := Option.map_eq_some_iff.mp hrun
  obtain ⟨hlaid, hlen⟩ := @Scheduled.run _ _ hmerges heap _ schedule (by
    intro q e rest hpop e' he' hrank
    rcases Prod.Lex.toLex_le_toLex.mp ((Heap.list key).least q e rest hpop e' he') with hlt | ⟨_, hle⟩
    · exact absurd hrank (Nat.ne_of_lt hlt)
    · exact hle) _ _ _ _ [] _ _ _ hs rfl (holds_init bpe.rules _) (by simp) hloop
  rw [hids]
  have hfilter := hlaid.filter
  rw [hlen, ← range_eq_range'] at hfilter
  rw [hfilter]

/-! ## §4  When the heap does not matter -/

theorem encodePiece_of_tied (hmerges : bpe.MergesAreTokens)
    (hpiece : bpe.vocab.encode (bpe.normalize piece) = none)
    (h : Tied bpe.pairRank (· ++ ·) bpe.idsOf (bpe.symbols piece)) (heap : Heap RankedPair.rank) :
    bpe.encodePiece heap piece = some (bpe.encodeCanonical piece) := by
  obtain ⟨s, hs, hids⟩ := encodePiece_outcome hmerges heap hpiece
  rw [hids, (tied_iff _ _).mp h s hs, encodeCanonical, hpiece]

/-- **The heap does not matter exactly when ties do not**: when whichever pair of
the lowest rank is merged next, canonical merging goes on to the same ids. -/
theorem encodePiece_canonical_iff (hmerges : bpe.MergesAreTokens) {piece : Str}
    (hpiece : bpe.vocab.encode (bpe.normalize piece) = none) :
    (∀ heap : Heap RankedPair.rank, bpe.encodePiece heap piece = some (bpe.encodeCanonical piece)) ↔
    Tied bpe.pairRank (· ++ ·) bpe.idsOf (bpe.symbols piece) := by
  constructor
  · intro h
    refine (tied_iff _ _).mpr fun t ht => ?_
    obtain ⟨heap, hheap⟩ := exists_heap hmerges hpiece ht
    have hids := (hheap.symm.trans (h heap))
    rw [encodeCanonical, hpiece] at hids
    exact Option.some.inj hids
  · exact fun h heap => encodePiece_of_tied hmerges hpiece h heap

/-! ## §5  Five equal letters -/

/-- The tokens "a", "aa" and "b", and the merge "a a". -/
def lettersVocabulary : Vocabulary ℕ where
  values := [[0x61], [0x61, 0x61], [0x62]]
  types := [tokenTypeNormal, tokenTypeNormal, tokenTypeNormal]
  scores := [0, 0, 0]
  merges := [[0x61, 0x20, 0x61]]
  utf8 := by
    intro v hv
    rcases mem_cons.mp hv with rfl | hv
    · exact ⟨['a'], by decide +kernel⟩
    · rcases mem_cons.mp hv with rfl | hv
      · exact ⟨['a', 'a'], by decide +kernel⟩
      · exact ⟨['b'], by rw [mem_singleton.mp hv]; decide +kernel⟩
  types_length := rfl

def letters : BytePairEncoding ℕ := ⟨lettersVocabulary, [], false⟩

theorem letters_merge {l r : Str} (h : letters.vocab.merge l r = some rank) :
    l = [0x61] ∧ r = [0x61] := by
  have hmem : l ++ [0x20] ++ r ∈ [[0x61, 0x20, (0x61 : UInt8)]] :=
    mem_of_getElem? (lastIndex_eq_some h)
  have heq := mem_singleton.mp hmem
  have hlen := congrArg List.length heq
  match l, heq, hlen with
  | [], heq, _ => simp at heq
  | [x], heq, _ =>
    obtain ⟨rfl, htail⟩ := List.cons.inj heq
    exact ⟨rfl, (List.cons.inj htail).2⟩
  | [x, y], heq, _ => simp at heq
  | x :: y :: z :: l, _, hlen =>
    simp only [length_append, length_cons, length_nil] at hlen
    omega

theorem letters_tokens : letters.MergesAreTokens := by
  intro l r rank h
  obtain ⟨rfl, rfl⟩ := letters_merge h
  decide +kernel

/-- A binary heap that takes the first pair of "aaaaa" and then the last one
leaves the letter in the middle. -/
theorem letters_not_canonical :
    let piece : Str := [0x61, 0x61, 0x61, 0x61, 0x61]
    letters.MergesAreTokens ∧ letters.vocab.encode (letters.normalize piece) = none ∧
      letters.encodePiece (Heap.swapLast _) piece = some [1, 0, 1] ∧
      letters.encodeCanonical piece = [1, 1, 0] := by
  refine ⟨letters_tokens, ?_, ?_, ?_⟩
  · decide +kernel
  · decide +kernel
  · decide +kernel

theorem letters_pairRank {x y : List Char} (h : letters.pairRank x y = some rank) :
    x = ['a'] ∧ y = ['a'] := by
  obtain ⟨hx, hy⟩ := letters_merge h
  have ha : Utf8.encode ['a'] = [0x61] := by decide +kernel
  exact ⟨encode_injective (hx.trans ha.symm), encode_injective (hy.trans ha.symm)⟩

theorem letters_trained : Trained letters.pairRank (· ++ ·) := by
  intro x y k h
  obtain ⟨rfl, rfl⟩ := letters_pairRank h
  constructor
  · intro w k' h'
    exact absurd (letters_pairRank h').2 (by decide)
  · intro z k' h'
    exact absurd (letters_pairRank h').1 (by decide)

/-- The ids of "aab" are those of "aa" and "b" with any heap. -/
theorem encodePiece_canonical_iff_letters :
    Tied letters.pairRank (· ++ ·) letters.idsOf (letters.symbols [0x61, 0x61, 0x62]) ∧
      ∀ heap : Heap RankedPair.rank, letters.encodePiece heap [0x61, 0x61, 0x62] =
          some (letters.encodeCanonical [0x61, 0x61, 0x62]) := by
  rw [encodePiece_canonical_iff letters_tokens (by decide +kernel), and_self_iff]
  refine letters_trained.tied (fun s hs => ?_) letters.idsOf
  rintro ⟨pre, x, y, z, post, k, rfl, hxy, hyz, _⟩
  obtain ⟨_, rfl⟩ := letters_pairRank hyz
  have hstart : letters.symbols [0x61, 0x61, 0x62] = [['a'], ['a'], ['b']] := by decide +kernel
  rw [hstart] at hs
  -- three letters are those of the piece, and a step leaves two symbols
  rcases hs.cases_tail with heq | ⟨u, hu, hstep⟩
  · match pre, heq with
    | [], heq => simp at heq
    | w :: pre, heq =>
      have hlen := congrArg List.length heq
      simp only [cons_append, length_cons, length_append, length_nil] at hlen
      omega
  · have hle : ∀ v, Relation.ReflTransGen (Step letters.pairRank (· ++ ·) False)
        [['a'], ['a'], ['b']] v → v.length ≤ 3 := by
      intro v hv
      induction hv with
      | refl => exact Nat.le_refl 3
      | tail _ hstep ih =>
        have := hstep.length
        omega
    have h₁ := hle u hu
    have h₂ := hstep.length
    rw [length_append] at h₂
    simp only [length_cons] at h₂
    omega

end Ollama.Tokenizer.BytePairEncoding
