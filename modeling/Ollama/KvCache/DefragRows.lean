import Ollama.KvCache.Runs

/-!
# `defrag` and the rows it moves

`defrag` keeps metadata and data together exactly when it merges no copies.
The metadata side (`CellsKept`) holds in every run: each occupied cell is at
one new location, `newIndex`, and the occupied cells are at the front. The
data side (`RowsKept`) fails where two adjacent holes are filled from two
adjacent cells: the cells go in backwards, one by one, the rows forwards, in
one copy.
-/

namespace Ollama.KvCache

open Lib List TwoFinger

namespace Causal

/-! ## §1  Where a cell goes -/

/-- The location `defrag` moves an occupied cell to: the `k`-th hole, when `k`
occupied cells follow the cell and the hole is before it. -/
def newIndex (cells : List CacheCell) (s : Nat) : Nat :=
  ((List.range s).find? fun d =>
    !used cells d && tally (fun i => !used cells i) 0 d ==
      tally (used cells) (s + 1) cells.length).getD s

variable {cells : List CacheCell}

theorem mem_movePlan {d s : Nat} : (d, s) ∈ movePlan cells ↔
      d < s ∧ used cells d = false ∧ used cells s = true ∧ tally (fun i => !used cells i) 0 d =
          tally (used cells) (s + 1) cells.length := by
  rw [movePlan, mem_plan_iff]
  constructor
  · rintro ⟨_, h₁, _, h₂, h₃, h₄⟩
    rw [show cells.length - 1 + 1 = cells.length by omega] at h₄
    exact ⟨h₁, h₂, h₃, h₄⟩
  · rintro ⟨h₁, h₂, h₃, h₄⟩
    have hlt := lt_length_of_used h₃
    rw [show cells.length - 1 + 1 = cells.length by omega]
    exact ⟨Nat.zero_le _, h₁, by omega, h₂, h₃, h₄⟩

theorem newIndex_of_mem {d s : Nat} (h : (d, s) ∈ movePlan cells) : newIndex cells s = d := by
  obtain ⟨hlt, hd, hs, htally⟩ := mem_movePlan.mp h
  unfold newIndex
  cases hfind : (List.range s).find? fun d =>
      !used cells d && tally (fun i => !used cells i) 0 d ==
        tally (used cells) (s + 1) cells.length with
  | none =>
      have hno := find?_eq_none.mp hfind d (mem_range.mpr hlt)
      simp [hd, htally] at hno
  | some d' =>
      have hp := find?_some hfind
      have hlt' := mem_range.mp (mem_of_find?_eq_some hfind)
      rw [Bool.and_eq_true, Bool.not_eq_true', beq_iff_eq] at hp
      have hmem : (d', s) ∈ movePlan cells := mem_movePlan.mpr ⟨hlt', hp.1, hs, hp.2⟩
      exact congrArg Prod.fst (plan_place_inj hmem h rfl)

theorem newIndex_of_not_mem {s : Nat}
    (hs : used cells s = true) (h : ∀ p ∈ movePlan cells, p.2 ≠ s) :
    newIndex cells s = s := by
  unfold newIndex
  rw [find?_eq_none.mpr]
  · rfl
  · intro d hd hp
    rw [Bool.and_eq_true, Bool.not_eq_true', beq_iff_eq] at hp
    exact h (d, s) (mem_movePlan.mpr ⟨mem_range.mp hd, hp.1, hs, hp.2⟩) rfl

theorem newIndex_cases {s : Nat} (hs : used cells s = true) :
    (newIndex cells s, s) ∈ movePlan cells ∨
      (newIndex cells s = s ∧ ∀ p ∈ movePlan cells, p.2 ≠ s) := by
  by_cases h : ∃ p ∈ movePlan cells, p.2 = s
  · obtain ⟨⟨d, s'⟩, hp, rfl⟩ := h
    left
    rw [newIndex_of_mem hp]
    exact hp
  · have hnot : ∀ p ∈ movePlan cells, p.2 ≠ s := fun p hp heq => h ⟨p, hp, heq⟩
    exact Or.inr ⟨newIndex_of_not_mem hs hnot, hnot⟩

/-! ## §2  What is kept -/

/-- **The metadata.** Every occupied cell is at its new location with the same
position and sequences, no two share a location, nothing else is occupied, and
the occupied cells are at the front. -/
structure CellsKept (cells cells' : List CacheCell) : Prop where
  cell : ∀ s, used cells s = true → cellAt cells' (newIndex cells s) = cellAt cells s
  inj : ∀ s t, used cells s = true → used cells t = true →
    newIndex cells s = newIndex cells t → s = t
  onto : ∀ i, used cells' i = true → ∃ s, used cells s = true ∧ newIndex cells s = i
  front : ∃ m, ∀ i, used cells' i = true ↔ i < m

/-- **The data.** Whatever the rows are, the copies put the row of every
occupied cell at the new location of the cell. -/
def RowsKept (cells : List CacheCell) (moves : List CellMove) : Prop :=
  ∀ (ρ : Type) (rows : Nat → ρ) (s : Nat), used cells s = true →
    moves.foldl copyRows rows (newIndex cells s) = rows s

/-- What a defragmentation from `cells` to `cells'` with the copies `moves` is
to keep. -/
structure DefragKeeps (cells cells' : List CacheCell) (moves : List CellMove) : Prop where
  metadata : CellsKept cells cells'
  data : RowsKept cells moves

/-- Two adjacent holes are filled from two adjacent cells: the locations `d`,
`d + 1` are free, `s`, `s + 1` occupied and after them, and as many locations
are free before `d` as are occupied after `s + 1`. -/
def MergesRun (cells : List CacheCell) : Prop :=
  ∃ d s, d + 1 < s ∧ used cells d = false ∧ used cells (d + 1) = false ∧
    used cells s = true ∧ used cells (s + 1) = true ∧
    tally (fun i => !used cells i) 0 d = tally (used cells) (s + 2) cells.length

theorem compacted_cellsKept {cells cells' : List CacheCell}
    (h : Compacted (movePlan cells) cells cells') : CellsKept cells cells' := by
  have hfree : ∀ p ∈ movePlan cells, used cells p.1 = false ∧ used cells p.2 = true :=
    fun p hp => (of_mem_plan hp).2.2.2
  have hcell : ∀ s, used cells s = true → cellAt cells' (newIndex cells s) = cellAt cells s := by
    intro s hs
    rcases newIndex_cases hs with hmem | ⟨heq, hnot⟩
    · exact h.hole _ hmem
    · rw [heq]
      refine h.other s (fun p hp hps => ?_) hnot
      rw [← hps, (hfree p hp).1] at hs
      cases hs
  have hused : ∀ i, used cells' i = true ↔
      (∃ p ∈ movePlan cells, p.1 = i) ∨ (used cells i = true ∧ ∀ p ∈ movePlan cells, p.2 ≠ i) := by
    intro i
    by_cases hhole : ∃ p ∈ movePlan cells, p.1 = i
    · obtain ⟨p, hp, rfl⟩ := hhole
      refine iff_of_true ?_ (Or.inl ⟨p, hp, rfl⟩)
      rw [used_iff, h.hole p hp]
      exact used_iff.mp (hfree p hp).2
    by_cases hplace : ∃ p ∈ movePlan cells, p.2 = i
    · obtain ⟨p, hp, rfl⟩ := hplace
      refine iff_of_false ?_ ?_
      · rw [used_iff, h.place p hp]
        simp
      · rintro (hc | ⟨_, hc⟩)
        · exact hhole hc
        · exact hc p hp rfl
    · have hsame : cellAt cells' i = cellAt cells i :=
        h.other i (fun p hp hc => hhole ⟨p, hp, hc⟩) (fun p hp hc => hplace ⟨p, hp, hc⟩)
      rw [used_iff, hsame, ← used_iff]
      constructor
      · exact fun hi => Or.inr ⟨hi, fun p hp hc => hplace ⟨p, hp, hc⟩⟩
      · rintro (hc | ⟨hi, _⟩)
        · exact absurd hc hhole
        · exact hi
  refine ⟨hcell, ?_, ?_, ?_⟩
  · intro s t hs ht heq
    rcases newIndex_cases hs with hps | ⟨hss, _⟩
    · rcases newIndex_cases ht with hpt | ⟨htt, _⟩
      · exact congrArg Prod.snd (plan_hole_inj hps hpt heq)
      · -- the hole of `s` would be the occupied location `t`
        have hd := (hfree _ hps).1
        rw [heq, htt, ht] at hd
        cases hd
    · rcases newIndex_cases ht with hpt | ⟨htt, _⟩
      · have hd := (hfree _ hpt).1
        rw [← heq, hss, hs] at hd
        cases hd
      · rw [← hss, heq, htt]
  · intro i hi
    rcases (hused i).mp hi with ⟨⟨d, s⟩, hp, rfl⟩ | ⟨hi', hnot⟩
    · exact ⟨s, (hfree _ hp).2, newIndex_of_mem hp⟩
    · exact ⟨i, hi', newIndex_of_not_mem hi' hnot⟩
  obtain ⟨m, hm⟩ := plan_compacts (used cells) 0 (cells.length - 1)
  refine ⟨min m cells.length, fun i => ?_⟩
  by_cases hlt : i < cells.length
  · have hiff := hm i (Nat.zero_le _) (by omega)
    rw [hused i, show i < min m cells.length ↔ i < m by omega]
    exact hiff
  · refine iff_of_false (fun hi => ?_) (by omega)
    have := lt_length_of_used hi
    rw [h.length] at this
    exact hlt this

/-! ## §3  Merged copies -/

theorem exists_adjacent_of_not_chain : ∀ {l : List (Nat × Nat)},
    ¬ List.IsChain (fun p q => ¬ Adjacent p q) l → ∃ p ∈ l, ∃ q ∈ l, Adjacent p q
  | [], h => absurd List.IsChain.nil h
  | [p], h => absurd (List.IsChain.singleton p) h
  | p :: q :: l, h => by
      by_cases hpq : Adjacent p q
      · exact ⟨p, by simp, q, by simp, hpq⟩
      · have htail : ¬ List.IsChain (fun p q => ¬ Adjacent p q) (q :: l) :=
          fun hc => h (isChain_cons_cons.mpr ⟨hpq, hc⟩)
        obtain ⟨r, hr, t, ht, hrt⟩ := exists_adjacent_of_not_chain htail
        exact ⟨r, mem_cons_of_mem _ hr, t, mem_cons_of_mem _ ht, hrt⟩

/-- Adjacent pairs of a compaction are neighbours in the list: no hole lies
between theirs. -/
theorem not_chain_of_adjacent {n : Nat} : ∀ {l : List (Nat × Nat)}, Compaction n l →
    ∀ {p q : Nat × Nat}, p ∈ l → q ∈ l → Adjacent p q →
    ¬ List.IsChain (fun p q => ¬ Adjacent p q) l
  | [], _, _, _, hp, _, _ => by cases hp
  | [a], _, p, q, hp, hq, hpq => by
      rw [mem_singleton.mp hp, mem_singleton.mp hq] at hpq
      exact absurd hpq.1 (by omega)
  | a :: b :: l, hc, p, q, hp, hq, hpq => by
      intro hchain
      obtain ⟨hab, hchain'⟩ := isChain_cons_cons.mp hchain
      have hlt := (hc.head (mem_cons_self (a := b) (l := l))).1
      rcases mem_cons.mp hp with rfl | hp'
      · rcases mem_cons.mp hq with rfl | hq'
        · exact absurd hpq.1 (by omega)
        rcases mem_cons.mp hq' with rfl | hq''
        · exact hab hpq
        · have := (hc.tail.head hq'').1
          have := hpq.1
          omega
      · rcases mem_cons.mp hq with rfl | hq'
        · have := (hc.head hp').1
          have := hpq.1
          omega
        · exact not_chain_of_adjacent hc.tail hp' hq' hpq hchain'

theorem mergesRun_iff (cells : List CacheCell) :
    MergesRun cells ↔ ¬ List.IsChain (fun p q => ¬ Adjacent p q) (movePlan cells) := by
  constructor
  · rintro ⟨d, s, hlt, hd, hd', hs, hs', htally⟩
    have hbound := lt_length_of_used hs'
    have hp : (d, s + 1) ∈ movePlan cells :=
      mem_movePlan.mpr ⟨by omega, hd, hs', htally⟩
    have hq : (d + 1, s) ∈ movePlan cells := by
      refine mem_movePlan.mpr ⟨hlt, hd', hs, ?_⟩
      rw [tally_right (Nat.zero_le _), hd, htally,
        tally_left (by omega : s + 1 < cells.length), hs']
      rfl
    exact not_chain_of_adjacent (movePlan_compaction cells) hp hq ⟨rfl, rfl⟩
  · intro hchain
    obtain ⟨⟨d, s'⟩, hp, ⟨d', s⟩, hq, hd', hs'⟩ := exists_adjacent_of_not_chain hchain
    simp only at hd' hs'
    subst hd' hs'
    obtain ⟨_, hd, hs', htally⟩ := mem_movePlan.mp hp
    obtain ⟨hlt, hd', hs, _⟩ := mem_movePlan.mp hq
    exact ⟨d, s, hlt, hd, hd', hs, hs', htally⟩

theorem mergeRuns_start (p : Nat × Nat) (l : List (Nat × Nat)) :
    mergeRuns ⟨0, 0, 0⟩ (p :: l) = mergeRuns ⟨p.2, p.1, 1⟩ l := by
  rfl

/-- **The rows follow the cells exactly when no copies are merged.** -/
theorem rowsKept_iff (cells : List CacheCell) :
    RowsKept cells (mergeRuns ⟨0, 0, 0⟩ (movePlan cells)) ↔ ¬ MergesRun cells := by
  rw [mergesRun_iff, not_not]
  have hc := movePlan_compaction cells
  have hindex : ∀ p ∈ movePlan cells, newIndex cells p.2 = p.1 :=
    fun p hp => newIndex_of_mem hp
  have hplace : ∀ p ∈ movePlan cells, used cells p.2 = true :=
    fun p hp => (of_mem_plan hp).2.2.2.2
  have hhole : ∀ p ∈ movePlan cells, used cells p.1 = false :=
    fun p hp => (of_mem_plan hp).2.2.2.1
  have hcases : ∀ s, used cells s = true → (newIndex cells s, s) ∈ movePlan cells ∨
      (newIndex cells s = s ∧ ∀ p ∈ movePlan cells, p.2 ≠ s) :=
    fun s hs => newIndex_cases hs
  generalize movePlan cells = l at hc hindex hplace hhole hcases
  cases l with
  | nil =>
      refine iff_of_true (fun ρ rows s hs => ?_) List.IsChain.nil
      rcases hcases s hs with hmem | ⟨heq, _⟩
      · cases hmem
      · rw [heq]
        rfl
  | cons p l =>
      rw [mergeRuns_start]
      constructor
      · intro hrows
        by_contra hchain
        obtain ⟨q, hq, s, hlt, _, hrow⟩ :=
          foldl_mergeRuns_of_not_chain l p (fun i => i) hc hchain
        have hkept := hrows Nat (fun i => i) q.2 (hplace q hq)
        rw [hindex q hq, hrow] at hkept
        omega
      · intro hchain ρ rows s hs
        obtain ⟨hmoved, hother⟩ := foldl_mergeRuns_of_chain l p rows hc hchain
        rcases hcases s hs with hmem | ⟨heq, _⟩
        · exact hmoved _ hmem
        · rw [heq]
          refine hother s (fun q hq hqs => ?_)
          rw [← hqs, hhole q hq] at hs
          cases hs

/-! ## §4  In a run -/

/-- Compaction moves cells but changes none, so it leaves nothing for the
second `updateSlidingWindow` to delete. -/
theorem Compacted.settled {l : List (Nat × Nat)} {cells cells' : List CacheCell}
    {batch : Batch} {memory : Int} (h : Compacted l cells cells')
    (hs : Settled batch memory cells) : Settled batch memory cells' := by
  have horigin : ∀ {i : Nat} {s : Int}, s ∈ (cellAt cells' i).sequences →
      ∃ j, cellAt cells' i = cellAt cells j := by
    intro i s hi
    rcases h.origin i with hj | hempty
    · exact hj
    · rw [hempty] at hi
      cases hi
  refine ⟨?_, ?_⟩
  · intro s lowest hlow i hi
    obtain ⟨j, hj⟩ := horigin hi
    rw [hj] at hi ⊢
    exact hs.inBatch s lowest hlow j hi
  intro s hlow i hi
  obtain ⟨j, hj⟩ := horigin hi
  rw [hj] at hi ⊢
  obtain ⟨hfirst, hall⟩ := hs.others s hlow j hi
  refine ⟨hfirst, fun k hk => ?_⟩
  obtain ⟨k', hk'⟩ := horigin hk
  rw [hk'] at hk ⊢
  exact hall k' hk

/-- The cells and the copies of `defrag` where `StartForward` calls it. -/
theorem defrag_spec {c : Causal} (h : c.RangesCover) (maxMoves : Int) :
    Compacted (movePlan c.updateSlidingWindow.cells) c.updateSlidingWindow.cells
      (c.updateSlidingWindow.defrag maxMoves).1.cells ∧
    (c.updateSlidingWindow.defrag maxMoves).2 =
      mergeRuns ⟨0, 0, 0⟩ (movePlan c.updateSlidingWindow.cells) := by
  have hw := updateSlidingWindow_spec h
  have hset := updateSlidingWindow_settled h
  generalize c.updateSlidingWindow = w at hw hset
  obtain ⟨hcells, hcopies⟩ := defragCells_spec w.cells maxMoves
  rw [defrag_eq]
  refine ⟨?_, hcopies⟩
  rw [updateSlidingWindow_cells_of_settled (compact_cover hw.cover maxMoves)]
  · exact hcells
  intro hmem
  have hmem' : c.swaMemorySize ≠ maxInt32 := by
    rw [← hw.sameSetup.memory]
    exact hmem
  show Settled w.curBatch w.swaMemorySize (defragCells w.cells maxMoves).cells
  rw [hw.curBatch, hw.sameSetup.memory]
  exact hcells.settled (hset hmem')

/-- **`defrag` keeps metadata and data together exactly when it merges no
copies**: in every run, where `StartForward` calls it, for every batch and
graph size. -/
theorem defrag_keeps_iff {c : Causal} (h : system.Reachable c) (batch : Batch) (maxMoves : Int) :
    DefragKeeps (c.beginBatch batch).updateSlidingWindow.cells
        ((c.beginBatch batch).updateSlidingWindow.defrag maxMoves).1.cells
        ((c.beginBatch batch).updateSlidingWindow.defrag maxMoves).2 ↔
      ¬ MergesRun (c.beginBatch batch).updateSlidingWindow.cells := by
  have hcover := (reachable_wellformed h).cover
  obtain ⟨hcells, hcopies⟩ :=
    defrag_spec (c := c.beginBatch batch) ⟨hcover.covers, hcover.below⟩ maxMoves
  rw [hcopies, ← rowsKept_iff]
  exact ⟨fun hk => hk.data, fun hr => ⟨compacted_cellsKept hcells, hr⟩⟩

/-- Sequence 0 was removed from the first two cells, sequence 1 is in the three
after them, and the last one was never used. -/
def twoHoles : Causal :=
  [Call.startForward [⟨0, 0⟩, ⟨1, 0⟩] false 1, .startForward [⟨0, 1⟩, ⟨1, 1⟩, ⟨2, 1⟩] false 1,
    .remove 0 0 maxInt32 false].foldl apply sixCells

theorem twoHoles_reachable : system.Reachable twoHoles :=
  reachable_foldl sixCells_reachable _

/-- Both holes are filled with one copy there. -/
theorem defrag_keeps_iff_twoHoles :
    ¬ DefragKeeps (twoHoles.beginBatch [⟨0, 2⟩]).updateSlidingWindow.cells
        ((twoHoles.beginBatch [⟨0, 2⟩]).updateSlidingWindow.defrag 1).1.cells
        ((twoHoles.beginBatch [⟨0, 2⟩]).updateSlidingWindow.defrag 1).2 := by
  intro hkept
  refine (defrag_keeps_iff twoHoles_reachable [⟨0, 2⟩] 1).mp hkept ⟨0, 3, ?_⟩
  decide +kernel

/-- A batch of three tokens makes `defrag` fill both holes with one copy: the
last cell of sequence 1 gets the row of the one before it. -/
theorem defrag_swaps_rows :
    ¬ ∀ c, system.Reachable c → ∀ (batch : Batch) (maxMoves : Int), 1 ≤ maxMoves →
      (c.beginBatch batch).updateSlidingWindow.findStartLoc = none →
      DefragKeeps (c.beginBatch batch).updateSlidingWindow.cells
        ((c.beginBatch batch).updateSlidingWindow.defrag maxMoves).1.cells
        ((c.beginBatch batch).updateSlidingWindow.defrag maxMoves).2 := by
  intro h
  have hkept := (h twoHoles twoHoles_reachable [⟨0, 2⟩, ⟨1, 2⟩, ⟨2, 2⟩] 1
    (Int.le_refl _) (by decide +kernel)).data Nat (fun i => i) 4 (by decide +kernel)
  revert hkept
  decide +kernel

end Causal

end Ollama.KvCache
