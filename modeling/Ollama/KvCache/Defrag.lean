import Ollama.KvCache.Window
import Ollama.Lib.TwoFinger

/-!
# What `defrag` does to the cells and to the rows

The loop of `defrag` is a two-finger compaction of the occupied cells
(`Lib.TwoFinger.plan`). §1 gives the cells it leaves, §2 the copies it
issues, §3 what the copies do to a storage. A pending copy is extended when
the next hole is one up and the next cell one down, but a copy keeps the
order of its rows, so what a merged copy writes is not what the cells say.
-/

namespace Ollama.KvCache

open Lib List TwoFinger

def used (cells : List CacheCell) (i : Nat) : Bool :=
  decide ((cellAt cells i).sequences ≠ [])

variable {cells : List CacheCell} {i : Nat}

theorem used_iff : used cells i = true ↔ (cellAt cells i).sequences ≠ [] := by
  simp [used]

theorem not_used_iff : used cells i = false ↔ (cellAt cells i).sequences = [] := by
  simp [used]

theorem lt_length_of_used (h : used cells i = true) : i < cells.length := by
  by_contra hlt
  rw [used_iff, cellAt_of_length_le (Nat.le_of_not_lt hlt)] at h
  exact h rfl

namespace Causal

/-! ## §1  The cells -/

/-- `c.cells[dst] = c.cells[src]; c.cells[src] = cacheCell{}`. -/
def moveCell (cells : List CacheCell) (p : Nat × Nat) : List CacheCell :=
  (cells.set p.1 (cellAt cells p.2)).set p.2 {}

/-- Pairs of a hole and a place that a compaction of `n` cells may visit: the
holes ascend, the places descend, and no hole is above a place. -/
structure Compaction (n : Nat) (l : List (Nat × Nat)) : Prop where
  pairwise : l.Pairwise (fun p q => p.1 < q.1 ∧ q.2 < p.2)
  below : ∀ p ∈ l, ∀ q ∈ l, p.1 < q.2
  bound : ∀ p ∈ l, p.2 < n

variable {l : List (Nat × Nat)}

theorem Compaction.tail {n : Nat} {p : Nat × Nat} (h : Compaction n (p :: l)) : Compaction n l where
  pairwise := (pairwise_cons.mp h.pairwise).2
  below q hq r hr :=
    h.below q (mem_cons_of_mem _ hq) r (mem_cons_of_mem _ hr)
  bound q hq := h.bound q (mem_cons_of_mem _ hq)

theorem Compaction.head {n : Nat} {p q : Nat × Nat}
    (h : Compaction n (p :: l)) (hq : q ∈ l) : p.1 < q.1 ∧ q.2 < p.2 :=
  (pairwise_cons.mp h.pairwise).1 q hq

theorem compaction_plan (cells : List CacheCell) (dst src : Nat) (hsrc : src < cells.length) :
    Compaction cells.length (plan (used cells) dst src) where
  pairwise := plan_pairwise _ _ _
  below _ hp _ hq := plan_hole_lt_place hp hq
  bound _ hp := Nat.lt_of_le_of_lt (of_mem_plan hp).2.2.1 hsrc

theorem length_moveCell (cells : List CacheCell) (p : Nat × Nat) :
    (moveCell cells p).length = cells.length := by
  simp [moveCell]

variable {cells : List CacheCell}

theorem cellAt_moveCell {p : Nat × Nat} (hlt : p.1 < p.2) (hbound : p.2 < cells.length) (i : Nat) :
    cellAt (moveCell cells p) i =
      if i = p.1 then cellAt cells p.2 else if i = p.2 then {} else cellAt cells i := by
  unfold moveCell
  rw [cellAt_set, cellAt_set, length_set]
  by_cases h₁ : i = p.1
  · subst h₁
    rw [if_pos rfl, if_neg (fun h => by omega), if_pos ⟨rfl, by omega⟩]
  · rw [if_neg h₁]
    by_cases h₂ : i = p.2
    · rw [if_pos h₂, if_pos ⟨h₂.symm, hbound⟩]
    · rw [if_neg h₂, if_neg (fun h => h₂ h.1.symm), if_neg (fun h => h₁ h.1.symm)]

structure Compacted (l : List (Nat × Nat)) (cells cells' : List CacheCell) : Prop where
  length : cells'.length = cells.length
  hole : ∀ p ∈ l, cellAt cells' p.1 = cellAt cells p.2
  place : ∀ p ∈ l, cellAt cells' p.2 = {}
  other : ∀ i, (∀ p ∈ l, p.1 ≠ i) → (∀ p ∈ l, p.2 ≠ i) → cellAt cells' i = cellAt cells i

theorem foldl_moveCell : ∀ (l : List (Nat × Nat)) (cells : List CacheCell),
    Compaction cells.length l → Compacted l cells (l.foldl moveCell cells)
  | [], _, _ => ⟨rfl, by simp, by simp, fun _ _ _ => rfl⟩
  | p :: l, cells, h => by
      have hlt : p.1 < p.2 := h.below p mem_cons_self p mem_cons_self
      have hcell := cellAt_moveCell hlt (h.bound p mem_cons_self)
      have ih := foldl_moveCell l (moveCell cells p) ((length_moveCell cells p).symm ▸ h.tail)
      rw [foldl_cons]
      refine ⟨ih.length.trans (length_moveCell cells p), ?_, ?_, ?_⟩
      · intro q hq
        rcases mem_cons.mp hq with rfl | hq
        · rw [ih.other q.1, hcell, if_pos rfl]
          · intro r hr heq
            have := (h.head hr).1
            omega
          · intro r hr heq
            have := h.below q mem_cons_self r (mem_cons_of_mem _ hr)
            omega
        · have h₁ := h.below p mem_cons_self q (mem_cons_of_mem _ hq)
          have h₂ := (h.head hq).2
          rw [ih.hole q hq, hcell, if_neg (by omega), if_neg (by omega)]
      · intro q hq
        rcases mem_cons.mp hq with rfl | hq
        · rw [ih.other q.2, hcell, if_neg (by omega), if_pos rfl]
          · intro r hr heq
            have := h.below r (mem_cons_of_mem _ hr) q mem_cons_self
            omega
          · intro r hr heq
            have := (h.head hr).2
            omega
        · exact ih.place q hq
      · intro i h₁ h₂
        rw [ih.other i (fun q hq => h₁ q (mem_cons_of_mem _ hq))
          (fun q hq => h₂ q (mem_cons_of_mem _ hq)), hcell,
          if_neg (Ne.symm (h₁ p mem_cons_self)),
          if_neg (Ne.symm (h₂ p mem_cons_self))]

theorem Compacted.origin {cells cells' : List CacheCell} (h : Compacted l cells cells') (i : Nat) :
    (∃ j, cellAt cells' i = cellAt cells j) ∨ cellAt cells' i = {} := by
  by_cases h₁ : ∃ p ∈ l, p.1 = i
  · obtain ⟨p, hp, rfl⟩ := h₁
    exact Or.inl ⟨p.2, h.hole p hp⟩
  by_cases h₂ : ∃ p ∈ l, p.2 = i
  · obtain ⟨p, hp, rfl⟩ := h₂
    exact Or.inr (h.place p hp)
  · refine Or.inl ⟨i, h.other i ?_ ?_⟩
    · exact fun p hp heq => h₁ ⟨p, hp, heq⟩
    · exact fun p hp heq => h₂ ⟨p, hp, heq⟩

/-! ## §2  The loop -/

/-- A pending copy with no rows stands for none. -/
def flush (m : CellMove) : List CellMove :=
  if 0 < m.len then [m] else []

/-- The copies issued for the pairs `l` when `m` is pending. -/
def mergeRuns : CellMove → List (Nat × Nat) → List CellMove
  | m, [] => flush m
  | m, (dst, src) :: l =>
      if 0 < m.len ∧ src + m.len = m.src ∧ dst = m.dst + m.len then
        mergeRuns ⟨src, m.dst, m.len + 1⟩ l
      else flush m ++ mergeRuns ⟨src, dst, 1⟩ l

def DefragState.pending (st : DefragState) : CellMove :=
  ⟨st.pendingSrc, st.pendingDst, st.pendingLen⟩

def DefragState.issued (st : DefragState) : List CellMove :=
  st.computed ++ st.queued

theorem findSrc_spec (cells : List CacheCell) (dst : Nat) : ∀ src, dst < src →
    dst ≤ findSrc cells dst src ∧ findSrc cells dst src ≤ src ∧
    plan (used cells) dst src = plan (used cells) dst (findSrc cells dst src) ∧
    (dst < findSrc cells dst src → used cells (findSrc cells dst src) = true)
  | 0, h => absurd h (Nat.not_lt_zero _)
  | src + 1, h => by
      unfold findSrc
      rw [if_pos h]
      by_cases hs : (cellAt cells (src + 1)).sequences ≠ []
      · rw [if_pos hs]
        exact ⟨Nat.le_of_lt h, Nat.le_refl _, rfl, fun _ => used_iff.mpr hs⟩
      rw [if_neg hs]
      have hfree : used cells (src + 1) = false :=
        not_used_iff.mpr (Decidable.not_not.mp hs)
      rw [plan_of_free hfree, Nat.add_sub_cancel]
      by_cases hlt : dst < src
      · obtain ⟨h₁, h₂, h₃, h₄⟩ := findSrc_spec cells dst src hlt
        exact ⟨h₁, Nat.le_succ_of_le h₂, h₃, h₄⟩
      have hsrc : src = dst := by omega
      have hstop : findSrc cells dst src = src := by
        rw [hsrc]
        cases dst with
        | zero => rfl
        | succ dst => rw [findSrc, if_neg (Nat.lt_irrefl _)]
      rw [hstop]
      exact ⟨by omega, Nat.le_succ _, rfl, fun hc => absurd hc hlt⟩

/-- What the loop has still to do from `st` and the low finger `dst` on: the
cells and the copies it will leave. -/
structure Remaining (dst : Nat) (st : DefragState) (cells : List CacheCell)
    (copies : List CellMove) : Prop where
  cells : cells = (plan (used st.cells) dst st.src).foldl moveCell st.cells
  copies : copies = st.issued ++ mergeRuns st.pending (plan (used st.cells) dst st.src)

structure LoopInv (st : DefragState) : Prop where
  src : st.src < st.cells.length
  moves : st.moves = st.queued.length

variable {st : DefragState}

theorem LoopInv.compute (h : LoopInv st) : LoopInv st.compute :=
  ⟨h.src, rfl⟩

theorem issued_compute (st : DefragState) : st.compute.issued = st.issued := by
  simp [DefragState.issued, DefragState.compute]

/-- Moving one pair: the pending copy is extended or issued. -/
theorem move_spec (h : LoopInv st) {dst : Nat} (hlt : dst < st.src) (hd : used st.cells dst = false)
    (hs : used st.cells st.src = true)
    {copies : List CellMove} (hr : Remaining dst st cells copies) :
    LoopInv (st.move dst) ∧ Remaining (dst + 1) (st.move dst) cells copies := by
  have hcells : (st.move dst).cells = moveCell st.cells (dst, st.src) := by
    unfold DefragState.move DefragState.issue
    by_cases hm : 0 < st.pendingLen ∧ st.src + st.pendingLen = st.pendingSrc ∧
        dst = st.pendingDst + st.pendingLen
    · simp only [if_pos hm]; rfl
    · simp only [if_neg hm]; split <;> rfl
  have hsrc : (st.move dst).src = st.src := by
    unfold DefragState.move DefragState.issue
    by_cases hm : 0 < st.pendingLen ∧ st.src + st.pendingLen = st.pendingSrc ∧
        dst = st.pendingDst + st.pendingLen
    · simp only [if_pos hm]
    · simp only [if_neg hm]; split <;> rfl
  have hcell := @cellAt_moveCell st.cells (dst, st.src) hlt h.src
  have hplan : plan (used (st.move dst).cells) (dst + 1) (st.move dst).src =
      plan (used st.cells) (dst + 1) (st.src - 1) := by
    rw [hsrc, hcells]
    have hfree : used (moveCell st.cells (dst, st.src)) st.src = false := by
      rw [not_used_iff, hcell, if_neg (Nat.ne_of_gt hlt), if_pos rfl]
    rw [plan_of_free hfree]
    refine plan_congr fun i h₁ h₂ => ?_
    unfold used
    rw [hcell, if_neg (by show i ≠ dst; omega), if_neg (by show i ≠ st.src; omega)]
  have hold := plan_of_pair hlt hd hs
  refine ⟨⟨?_, ?_⟩, ⟨?_, ?_⟩⟩
  · rw [hsrc, hcells, length_moveCell]
    exact h.src
  · unfold DefragState.move DefragState.issue
    by_cases hm : 0 < st.pendingLen ∧ st.src + st.pendingLen = st.pendingSrc ∧
        dst = st.pendingDst + st.pendingLen
    · simp only [if_pos hm]; exact h.moves
    · simp only [if_neg hm]
      split
      · simp [h.moves]
      · exact h.moves
  · rw [hr.cells, hold, foldl_cons, hplan, hcells]
  rw [hr.copies, hold, hplan]
  unfold DefragState.move DefragState.issue DefragState.issued DefragState.pending
  rw [mergeRuns]
  by_cases hm : 0 < st.pendingLen ∧ st.src + st.pendingLen = st.pendingSrc ∧
      dst = st.pendingDst + st.pendingLen
  · simp only [if_pos hm]
  · simp only [if_neg hm]
    by_cases hp : 0 < st.pendingLen
    · simp [flush, hp]
    · simp [flush, hp]

/-- **Step lemma.** An iteration keeps what the loop will leave. -/
theorem step_spec (maxMoves : Int) (h : LoopInv st) {dst : Nat}
    (hlt : dst < st.src) {copies : List CellMove} (hr : Remaining dst st cells copies) :
    LoopInv (st.step maxMoves dst) ∧ Remaining (dst + 1) (st.step maxMoves dst) cells copies ∧
      (st.step maxMoves dst).src ≤ st.src := by
  have hcompute : ∀ st' : DefragState, LoopInv st' →
      Remaining (dst + 1) st' cells copies → st'.src ≤ st.src →
      LoopInv (if maxMoves ≤ st'.moves then st'.compute else st') ∧
      Remaining (dst + 1) (if maxMoves ≤ st'.moves then st'.compute else st') cells copies ∧
      (if maxMoves ≤ st'.moves then st'.compute else st').src ≤ st.src := by
    intro st' h₁ h₂ h₃
    by_cases hc : maxMoves ≤ st'.moves
    · rw [if_pos hc]
      exact ⟨h₁.compute, ⟨h₂.cells, h₂.copies.trans (by rw [issued_compute]; rfl)⟩, h₃⟩
    · rw [if_neg hc]
      exact ⟨h₁, h₂, h₃⟩
  unfold DefragState.step
  by_cases hd : (cellAt st.cells dst).sequences = []
  · simp only [if_pos hd]
    obtain ⟨h₁, h₂, h₃, h₄⟩ := findSrc_spec st.cells dst st.src hlt
    have hinv : LoopInv { st with src := findSrc st.cells dst st.src } :=
      ⟨Nat.lt_of_le_of_lt h₂ h.src, h.moves⟩
    have hrem : Remaining dst { st with src := findSrc st.cells dst st.src } cells copies :=
      ⟨hr.cells.trans (by rw [h₃]), hr.copies.trans (by rw [h₃]; rfl)⟩
    by_cases hgo : dst < findSrc st.cells dst st.src
    · simp only [if_pos hgo]
      obtain ⟨hinv', hrem'⟩ := move_spec hinv hgo (not_used_iff.mpr hd) (h₄ hgo) hrem
      refine hcompute _ hinv' hrem' ?_
      refine Nat.le_trans (Nat.le_of_eq ?_) h₂
      unfold DefragState.move DefragState.issue
      simp only
      split
      · rfl
      · split <;> rfl
    · simp only [if_neg hgo]
      refine hcompute _ hinv ?_ h₂
      -- the fingers have met, nothing is left to move
      have hnil : ∀ k, dst ≤ k → plan (used st.cells) k (findSrc st.cells dst st.src) = [] :=
        fun k hk => plan_of_le (by omega)
      refine ⟨hrem.cells.trans ?_, hrem.copies.trans ?_⟩
      · rw [hnil dst (Nat.le_refl _), hnil (dst + 1) (Nat.le_succ _)]
      · rw [hnil dst (Nat.le_refl _), hnil (dst + 1) (Nat.le_succ _)]
  · simp only [if_neg hd]
    have hplan : plan (used st.cells) dst st.src = plan (used st.cells) (dst + 1) st.src :=
      plan_of_occ (used_iff.mpr hd)
    exact hcompute st h
      ⟨hr.cells.trans (by rw [hplan]), hr.copies.trans (by rw [hplan])⟩ (Nat.le_refl _)

/-- Induction over the iterations: what remains is kept until the fingers
meet, and then it is what has been done. -/
theorem defragLoop_spec (maxMoves : Int) : ∀ (fuel dst : Nat) (st : DefragState),
    LoopInv st → st.src - dst ≤ fuel → ∀ {cells : List CacheCell}
    {copies : List CellMove}, Remaining dst st cells copies →
    let st' := defragLoop maxMoves fuel dst st
    LoopInv st' ∧ st'.cells = cells ∧ st'.issued ++ flush st'.pending = copies := by
  have hdone : ∀ (dst : Nat) (st : DefragState), LoopInv st → ¬ dst < st.src →
      ∀ {cells : List CacheCell} {copies : List CellMove},
      Remaining dst st cells copies →
      LoopInv st ∧ st.cells = cells ∧ st.issued ++ flush st.pending = copies := by
    intro dst st h hlt cells copies hr
    have hnil : plan (used st.cells) dst st.src = [] :=
      plan_of_le (Nat.not_lt.mp hlt)
    refine ⟨h, ?_, ?_⟩
    · rw [hr.cells, hnil]
      rfl
    · rw [hr.copies, hnil]
      rfl
  intro fuel
  induction fuel with
  | zero =>
      intro dst st h hf cells copies hr
      exact hdone dst st h (by omega) hr
  | succ fuel ih =>
      intro dst st h hf cells copies hr
      unfold defragLoop
      by_cases hlt : dst < st.src
      · rw [if_pos hlt]
        obtain ⟨h₁, h₂, h₃⟩ := step_spec maxMoves h hlt hr
        exact ih (dst + 1) _ h₁ (by omega) h₂
      · rw [if_neg hlt]
        exact hdone dst st h hlt hr

def movePlan (cells : List CacheCell) : List (Nat × Nat) :=
  plan (used cells) 0 (cells.length - 1)

theorem movePlan_compaction (cells : List CacheCell) :
    Compaction cells.length (movePlan cells) := by
  by_cases h : cells.length = 0
  · have hnil : movePlan cells = [] := plan_of_le (by omega)
    rw [hnil]
    exact ⟨List.Pairwise.nil, by simp, by simp⟩
  · exact compaction_plan cells 0 _ (by omega)

/-- **The compaction of `defrag`.** The cells are moved along `movePlan`, and
all copies are computed, in the order in which they were issued, whatever the
graph size. -/
theorem defragCells_spec (cells : List CacheCell) (maxMoves : Int) :
    Compacted (movePlan cells) cells (defragCells cells maxMoves).cells ∧
    (defragCells cells maxMoves).computed = mergeRuns ⟨0, 0, 0⟩ (movePlan cells) := by
  have hfinish : ∀ st : DefragState, st.moves = st.queued.length →
      st.finish.cells = st.cells ∧ st.finish.computed = st.issued ++ flush st.pending := by
    intro st hm
    unfold DefragState.finish DefragState.issue DefragState.compute
    by_cases hp : 0 < st.pendingLen
    · simp [hp, flush, DefragState.pending, DefragState.issued]
    · by_cases hq : st.queued = []
      · simp [hp, hm, hq, flush, DefragState.pending, DefragState.issued]
      · have hlen : 0 < st.queued.length := length_pos_iff.mpr hq
        simp [hp, hm, hlen, flush, DefragState.pending, DefragState.issued]
  unfold defragCells
  by_cases hz : cells.length = 0
  · have hnil : cells = [] := eq_nil_of_length_eq_zero hz
    subst hnil
    obtain ⟨h₁, h₂⟩ := hfinish { cells := [], src := 0 } rfl
    have hplan : movePlan [] = [] := plan_of_le (Nat.le_refl _)
    rw [hplan]
    refine ⟨⟨congrArg List.length h₁, by simp, by simp, fun i _ _ => ?_⟩, h₂⟩
    exact congrArg (fun cells => cellAt cells i) h₁
  · obtain ⟨h₁, h₂, h₃⟩ := defragLoop_spec maxMoves cells.length 0
      { cells := cells, src := cells.length - 1 }
      ⟨by show cells.length - 1 < cells.length; omega, rfl⟩
      (by show cells.length - 1 - 0 ≤ cells.length; omega) ⟨rfl, rfl⟩
    obtain ⟨h₄, h₅⟩ := hfinish _ h₁.moves
    rw [h₄, h₅, h₂, h₃]
    exact ⟨foldl_moveCell _ _ (movePlan_compaction cells), rfl⟩

/-! ## §3  The rows -/

section Rows

variable {ρ : Type}

/-- One `moveCells` call on the rows of a storage. -/
def copyRows (rows : Nat → ρ) (m : CellMove) : Nat → ρ :=
  fun i => if m.dst ≤ i ∧ i < m.dst + m.len then rows (m.src + (i - m.dst)) else rows i

variable {rows : Nat → ρ} {m : CellMove}

theorem copyRows_of_lt {i : Nat} (h : i < m.dst) : copyRows rows m i = rows i :=
  if_neg (fun hc => by omega)

theorem copyRows_dst (h : 0 < m.len) : copyRows rows m m.dst = rows m.src := by
  unfold copyRows
  rw [if_pos ⟨Nat.le_refl _, by omega⟩, Nat.sub_self, Nat.add_zero]

theorem foldl_flush (h : 0 < m.len) : (flush m).foldl copyRows rows = copyRows rows m := by
  rw [flush, if_pos h]
  rfl

/-- Nothing is written below the pending copy. -/
theorem foldl_mergeRuns_below : ∀ (l : List (Nat × Nat)) (m : CellMove)
    (rows : Nat → ρ) (i : Nat), (∀ p ∈ l, i < p.1) → i < m.dst → 0 < m.len →
    (mergeRuns m l).foldl copyRows rows i = rows i
  | [], m, rows, i, _, hi, hlen => by
      rw [mergeRuns, foldl_flush hlen, copyRows_of_lt hi]
  | (dst, src) :: l, m, rows, i, hl, hi, hlen => by
      have hl' : ∀ p ∈ l, i < p.1 := fun p hp => hl p (mem_cons_of_mem _ hp)
      have hdst : i < dst := hl (dst, src) mem_cons_self
      unfold mergeRuns
      by_cases hm : 0 < m.len ∧ src + m.len = m.src ∧ dst = m.dst + m.len
      · rw [if_pos hm]
        exact foldl_mergeRuns_below l _ rows i hl' hi (Nat.succ_pos _)
      · rw [if_neg hm, foldl_append, foldl_flush hlen,
          foldl_mergeRuns_below l _ _ i hl' hdst Nat.one_pos, copyRows_of_lt hi]

/-- The first row a pending copy writes comes from the row it starts at, or
from a lower one when it is extended. -/
theorem foldl_mergeRuns_dst {n : Nat} : ∀ (l : List (Nat × Nat)) (m : CellMove)
    (rows : Nat → ρ), Compaction n l → 0 < m.len →
    (∀ p ∈ l, m.dst < p.1 ∧ p.2 < m.src) →
    ∃ s, s ≤ m.src ∧ (s = m.src ∨ ∃ p ∈ l, p.2 = s) ∧
      (mergeRuns m l).foldl copyRows rows m.dst = rows s
  | [], m, rows, _, hlen, _ => by
      refine ⟨m.src, Nat.le_refl _, Or.inl rfl, ?_⟩
      rw [mergeRuns, foldl_flush hlen, copyRows_dst hlen]
  | (dst, src) :: l, m, rows, hc, hlen, hl => by
      obtain ⟨hdst, hsrc⟩ := hl (dst, src) mem_cons_self
      unfold mergeRuns
      by_cases hm : 0 < m.len ∧ src + m.len = m.src ∧ dst = m.dst + m.len
      · rw [if_pos hm]
        obtain ⟨s, hle, hs, hrow⟩ := foldl_mergeRuns_dst l ⟨src, m.dst, m.len + 1⟩
          rows hc.tail (Nat.succ_pos _)
          (fun p hp => ⟨(hl p (mem_cons_of_mem _ hp)).1, (hc.head hp).2⟩)
        refine ⟨s, Nat.le_trans hle (Nat.le_of_lt hsrc), Or.inr ?_, hrow⟩
        rcases hs with hs | ⟨p, hp, hps⟩
        · exact ⟨(dst, src), mem_cons_self, hs.symm⟩
        · exact ⟨p, mem_cons_of_mem _ hp, hps⟩
      · refine ⟨m.src, Nat.le_refl _, Or.inl rfl, ?_⟩
        rw [if_neg hm, foldl_append, foldl_flush hlen, foldl_mergeRuns_below l _ _ _
            (fun p hp => (hl p (mem_cons_of_mem _ hp)).1) hdst Nat.one_pos,
          copyRows_dst hlen]

/-- `q` follows `p` one hole up and one place down, which is when a copy of one
row is extended. -/
def Adjacent (p q : Nat × Nat) : Prop := q.1 = p.1 + 1 ∧ p.2 = q.2 + 1

instance (p q : Nat × Nat) : Decidable (Adjacent p q) :=
  inferInstanceAs (Decidable (_ ∧ _))

theorem mergeRuns_of_not_adjacent {p q : Nat × Nat} {l : List (Nat × Nat)} (h : ¬ Adjacent p q) :
    mergeRuns ⟨p.2, p.1, 1⟩ (q :: l) = ⟨p.2, p.1, 1⟩ :: mergeRuns ⟨q.2, q.1, 1⟩ l := by
  rw [mergeRuns, if_neg]
  · rw [flush, if_pos Nat.one_pos, singleton_append]
  · rintro ⟨_, h₁, h₂⟩
    exact h ⟨h₂, h₁.symm⟩

/-- **No merged copies.** Where no two neighbouring pairs are adjacent, every
hole receives the row of its place. -/
theorem foldl_mergeRuns_of_chain {n : Nat} : ∀ (l : List (Nat × Nat))
    (p : Nat × Nat) (rows : Nat → ρ), Compaction n (p :: l) →
    List.IsChain (fun p q => ¬ Adjacent p q) (p :: l) →
    (∀ q ∈ p :: l, (mergeRuns ⟨p.2, p.1, 1⟩ l).foldl copyRows rows q.1 = rows q.2) ∧
    (∀ i, (∀ q ∈ p :: l, q.1 ≠ i) → (mergeRuns ⟨p.2, p.1, 1⟩ l).foldl copyRows rows i = rows i)
  | [], p, rows, _, _ => by
      rw [mergeRuns, foldl_flush Nat.one_pos]
      refine ⟨fun q hq => ?_, fun i hi => ?_⟩
      · rw [mem_singleton.mp hq]
        exact copyRows_dst Nat.one_pos
      · have hne := hi p mem_cons_self
        exact if_neg (fun hc => by simp only at hc; omega)
  | q :: l, p, rows, hc, hchain => by
      obtain ⟨hpq, hchain'⟩ := isChain_cons_cons.mp hchain
      rw [mergeRuns_of_not_adjacent hpq, foldl_cons]
      obtain ⟨ih₁, ih₂⟩ := foldl_mergeRuns_of_chain l q
        (copyRows rows ⟨p.2, p.1, 1⟩) hc.tail hchain'
      have hother : ∀ i, i ≠ p.1 → copyRows rows ⟨p.2, p.1, 1⟩ i = rows i :=
        fun i hi => if_neg (fun hc => by simp only at hc; omega)
      refine ⟨fun r hr => ?_, fun i hi => ?_⟩
      · rcases mem_cons.mp hr with rfl | hr
        · rw [ih₂ r.1 (fun t ht heq => by have := (hc.head ht).1; omega)]
          exact copyRows_dst Nat.one_pos
        · rw [ih₁ r hr]
          refine hother _ ?_
          have := hc.below p mem_cons_self r (mem_cons_of_mem _ hr)
          omega
      · rw [ih₂ i (fun t ht => hi t (mem_cons_of_mem _ ht))]
        exact hother i (Ne.symm (hi p mem_cons_self))

/-- **Merged copies.** Where two neighbouring pairs are adjacent, the hole of
the first adjacent pair receives another place's row than its own. -/
theorem foldl_mergeRuns_of_not_chain {n : Nat} : ∀ (l : List (Nat × Nat))
    (p : Nat × Nat) (rows : Nat → ρ), Compaction n (p :: l) →
    ¬ List.IsChain (fun p q => ¬ Adjacent p q) (p :: l) →
    ∃ q ∈ p :: l, ∃ s, s < q.2 ∧ (∃ r ∈ p :: l, r.2 = s) ∧
      (mergeRuns ⟨p.2, p.1, 1⟩ l).foldl copyRows rows q.1 = rows s
  | [], p, _, _, hchain => absurd (List.IsChain.singleton p) hchain
  | q :: l, p, rows, hc, hchain => by
      by_cases hpq : Adjacent p q
      · have hmerge : mergeRuns ⟨p.2, p.1, 1⟩ (q :: l) = mergeRuns ⟨q.2, p.1, 2⟩ l := by
          rw [mergeRuns, if_pos ⟨Nat.one_pos, hpq.2.symm, hpq.1⟩]
        obtain ⟨s, hle, hs, hrow⟩ := foldl_mergeRuns_dst l ⟨q.2, p.1, 2⟩ rows
          hc.tail.tail Nat.two_pos
          (fun r hr => ⟨(hc.head (mem_cons_of_mem _ hr)).1, (hc.tail.head hr).2⟩)
        have hlt : q.2 < p.2 := (hc.head mem_cons_self).2
        refine ⟨p, mem_cons_self, s, Nat.lt_of_le_of_lt hle hlt, ?_, ?_⟩
        · rcases hs with hs | ⟨r, hr, hrs⟩
          · exact ⟨q, by simp, hs.symm⟩
          · exact ⟨r, by simp [hr], hrs⟩
        · rw [hmerge]
          exact hrow
      · have hchain' : ¬ List.IsChain (fun p q => ¬ Adjacent p q) (q :: l) :=
          fun h => hchain (isChain_cons_cons.mpr ⟨hpq, h⟩)
        obtain ⟨r, hr, s, hlt, ⟨t, ht, hts⟩, hrow⟩ := foldl_mergeRuns_of_not_chain l q
          (copyRows rows ⟨p.2, p.1, 1⟩) hc.tail hchain'
        refine ⟨r, mem_cons_of_mem _ hr, s, hlt, ⟨t, mem_cons_of_mem _ ht, hts⟩, ?_⟩
        rw [mergeRuns_of_not_adjacent hpq, foldl_cons, hrow]
        have := hc.below p mem_cons_self t (mem_cons_of_mem _ ht)
        exact if_neg (fun hc => by simp only at hc; omega)

end Rows

end Causal

end Ollama.KvCache
