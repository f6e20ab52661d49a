import Ollama.KvCache.Shift
import Ollama.KvCache.Sizing

/-!
# Other sequences

`Remove` and `CopyPrefix` leave the cells, the positions and the key rows of the other sequences as
they are, also when `Remove` stops at a shared cell or the shift function returns an error; and the
sequence that was left half done can be removed as a whole.
-/

namespace Ollama.KvCache

open List

namespace Causal

/-! ## §1  Rows -/

/-- A shift function that works row by row, and leaves a row as it is when the offset is 0. -/
structure RowShift (ρ : Type) where
  rotate : Nat → Int → ρ → ρ
  zero : ∀ layer row, rotate layer 0 row = row

variable {ρ : Type}

/-- The key rows of each layer after a call whose result is copied back. -/
def RowShift.copyBack (f : RowShift ρ) (rows : Nat → Nat → ρ) (call : ShiftCall) : Nat → Nat → ρ :=
  fun layer i =>
    match offsetAt call layer i with
    | some offset => f.rotate layer offset (rows layer i)
    | none => rows layer i

/-- A row that is only given the offset 0 stays. -/
theorem RowShift.copyBack_zero (f : RowShift ρ) {calls : List ShiftCall} {layer i : Nat}
    (h : ∀ o ∈ applied calls layer i, o = 0) (rows : Nat → Nat → ρ) :
    calls.foldl f.copyBack rows layer i = rows layer i := by
  induction calls generalizing rows with
  | nil => rfl
  | cons call calls ih =>
      have hcall : ∀ o, offsetAt call layer i = some o → o = 0 := by
        intro o ho
        exact h o (mem_filterMap.mpr ⟨call, mem_cons_self, ho⟩)
      have hcalls : ∀ o ∈ applied calls layer i, o = 0 := by
        intro o ho
        obtain ⟨call', hmem, ho'⟩ := mem_filterMap.mp ho
        exact h o (mem_filterMap.mpr ⟨call', mem_cons_of_mem call hmem, ho'⟩)
      rw [foldl_cons, ih hcalls]
      unfold RowShift.copyBack
      cases ho : offsetAt call layer i with
      | none => rfl
      | some o =>
          rw [hcall o ho]
          exact f.zero layer _

/-- A sequence has the cells, the positions and the rows that it had, inside its range. -/
structure Undisturbed (seq : Int) (c c' : Causal) (rows rows' : Nat → Nat → ρ) : Prop where
  cells : ∀ i, seq ∈ (cellAt c'.cells i).sequences ↔ seq ∈ (cellAt c.cells i).sequences
  pos : ∀ i, seq ∈ (cellAt c.cells i).sequences → (cellAt c'.cells i).pos = (cellAt c.cells i).pos
  row : ∀ i, seq ∈ (cellAt c.cells i).sequences → ∀ layer, rows' layer i = rows layer i
  range : ∀ i, seq ∈ (cellAt c'.cells i).sequences →
    ∃ r, c'.cellRanges.lookup seq = some r ∧ r.Has i

theorem Undisturbed.trans {seq : Int} {c₁ c₂ c₃ : Causal} {rows₁ rows₂ rows₃ : Nat → Nat → ρ}
    (h : Undisturbed seq c₁ c₂ rows₁ rows₂) (h' : Undisturbed seq c₂ c₃ rows₂ rows₃) :
    Undisturbed seq c₁ c₃ rows₁ rows₃ where
  cells i := (h'.cells i).trans (h.cells i)
  pos i hi := (h'.pos i ((h.cells i).mpr hi)).trans (h.pos i hi)
  row i hi layer := (h'.row i ((h.cells i).mpr hi) layer).trans (h.row i hi layer)
  range := h'.range

/-! ## §2  `Remove` and `CopyPrefix` -/

variable {c : Causal} {layers : List Nat} {shiftFn : Option ShiftFn}
variable {seq beginIndex endIndex s : Int}

/-- A loop that does not stop has moved no shared cell. -/
theorem removeCells_alone (seq beginIndex endIndex offset : Int) :
    ∀ (cells : List CacheCell) (i : Nat) (r : CellRange),
      (removeCells seq beginIndex endIndex offset i r cells).2.2 = false → ∀ k,
        seq ∈ (cellAt cells k).sequences → endIndex ≤ (cellAt cells k).pos →
          ∀ s ∈ (cellAt cells k).sequences, s = seq
  | [], i, r, _, k, hk, _, _, _ => nomatch hk
  | cell :: rest, i, r, h, k, hk, hend, s, hs => by
      have ih := removeCells_alone seq beginIndex endIndex offset rest (i + 1)
      unfold removeCells at h
      cases k with
      | succ k =>
          split at h
          · split at h
            · exact ih r h k hk hend s hs
            split at h
            · split at h
              · cases h
              · exact ih (r.add i) h k hk hend s hs
            · exact ih (r.add i) h k hk hend s hs
          · exact ih r h k hk hend s hs
      | zero =>
          rw [cellAt_cons_zero] at hk hend hs
          rw [if_pos hk, if_neg fun hc => Int.not_lt.mpr hend hc.2, if_pos hend] at h
          split at h
          · cases h
          · next hshared =>
            by_contra hne
            exact hshared (any_eq_true.mpr ⟨s, hs, decide_eq_true hne⟩)

/-- The rows of a cell with another sequence are given no offset but 0. -/
theorem applied_other (hs : s ≠ seq) {i : Nat} (hi : s ∈ (cellAt c.cells i).sequences) {layer : Nat} :
    ∀ o ∈ applied (c.removeShifting layers shiftFn seq beginIndex endIndex).2.1 layer i, o = 0 := by
  have hspec := removeCells_spec seq beginIndex endIndex (beginIndex - endIndex) c.cells 0
    KvCache.newRange
  have halone := removeCells_alone seq beginIndex endIndex (beginIndex - endIndex) c.cells 0
    KvCache.newRange
  have hnil : ∀ o ∈ applied ([] : List ShiftCall) layer i, o = 0 := fun o ho => nomatch ho
  unfold removeShifting
  dsimp only
  by_cases hmax : endIndex ≠ maxInt32
  · rw [if_pos hmax, if_pos hmax]
    generalize removeCells seq beginIndex endIndex (beginIndex - endIndex) 0 KvCache.newRange
      c.cells = res at hspec halone
    obtain ⟨cells, r, stopped⟩ := res
    cases stopped with
    | true => exact hnil
    | false =>
        rw [if_neg Bool.false_ne_true]
        split
        · exact hnil
        rw [show endIndex + (beginIndex - endIndex) = beginIndex by omega]
        cases shiftFn with
        | none => exact hnil
        | some shiftFn =>
            intro o ho
            obtain ⟨call, hcall, hoff⟩ := mem_filterMap.mp ho
            obtain ⟨-, heq⟩ := shiftFrom_offset _ _ call hcall layer i o hoff
            -- a shared cell that was not stopped at is before the range
            have hstays : ¬rotates cells seq beginIndex i = true := by
              intro hrot
              obtain ⟨hmem, hle⟩ := of_decide_eq_true hrot
              have hcell := hspec.cell rfl i
              have hseq := hspec.mem i seq hmem
              have hbefore : ¬endIndex ≤ (cellAt c.cells i).pos := by
                intro hend
                exact hs (halone rfl i hseq hend s hi)
              have hnotin : ¬(beginIndex ≤ (cellAt c.cells i).pos ∧
                  (cellAt c.cells i).pos < endIndex) := by
                intro hin
                rw [hcell] at hmem
                exact (mem_removedCell.mp hmem).2 ⟨rfl, hin⟩
              rw [hcell, removedCell, if_pos hseq, if_neg hnotin, if_neg hbefore] at hle
              exact hnotin ⟨hle, Int.not_le.mp hbefore⟩
            rw [heq, if_neg hstays]
  · rw [if_neg hmax, if_neg hmax]
    split
    · exact hnil
    · split
      · exact hnil
      · exact hnil

theorem remove_lookup (hs : s ≠ seq) (shiftFails : Bool) :
    (c.remove seq beginIndex endIndex shiftFails).1.cellRanges.lookup s = c.cellRanges.lookup s := by
  unfold remove
  dsimp only
  generalize (if endIndex ≠ maxInt32 then beginIndex - endIndex else 0) = offset
  split
  · rfl
  · split
    · exact AList.lookup_erase_ne hs
    · split <;> exact AList.lookup_insert_ne hs

theorem remove_mem_other (hs : s ≠ seq) (shiftFails : Bool) (i : Nat) :
    s ∈ (cellAt (c.remove seq beginIndex endIndex shiftFails).1.cells i).sequences ↔
      s ∈ (cellAt c.cells i).sequences := by
  refine ⟨fun hi => (remove_other hs hi).1, fun hi => ?_⟩
  have htouched := remove_touched c seq beginIndex endIndex shiftFails i
  generalize cellAt (c.remove seq beginIndex endIndex shiftFails).1.cells i = cell at htouched
  cases htouched with
  | same => exact hi
  | dropped => exact CacheCell.mem_drop.mpr ⟨hi, hs⟩
  | shifted hend hall => exact hi

/-- **`Remove`.** It does not disturb another sequence, whether or not it returns an error. -/
theorem removeShifting_undisturbed (h : c.RangesCover) (f : RowShift ρ) (hs : s ≠ seq)
    (rows : Nat → Nat → ρ) :
    Undisturbed s c (c.removeShifting layers shiftFn seq beginIndex endIndex).1 rows
      ((c.removeShifting layers shiftFn seq beginIndex endIndex).2.1.foldl f.copyBack rows) := by
  have hcache := @removeShifting_cache c layers shiftFn seq beginIndex endIndex false
  have hmem := @remove_mem_other c seq beginIndex endIndex s hs false
  refine ⟨fun i => ?_, fun i hi => ?_, fun i hi layer => ?_, fun i hi => ?_⟩
  · rw [hcache]
    exact hmem i
  · rw [hcache]
    exact (remove_other hs ((hmem i).mpr hi)).2
  · exact f.copyBack_zero (applied_other hs hi) rows
  · rw [hcache] at hi ⊢
    rw [remove_lookup hs]
    exact h.covers i s ((hmem i).mp hi)

/-- **`CopyPrefix`.** It does not disturb a sequence that is not the destination. -/
theorem copyPrefix_undisturbed (h : c.RangesCover) {dstSeq : Int} (hs : s ≠ dstSeq)
    (srcSeq len : Int) (rows : Nat → Nat → ρ) :
    Undisturbed s c (c.copyPrefix srcSeq dstSeq len) rows rows := by
  have hmem : ∀ i, s ∈ (cellAt (c.copyPrefix srcSeq dstSeq len).cells i).sequences ↔
      s ∈ (cellAt c.cells i).sequences := by
    intro i
    rw [cellAt_copyPrefix, mem_copyCell, if_neg hs]
  refine ⟨hmem, fun i _ => ?_, fun _ _ _ => rfl, fun i hi => ?_⟩
  · rw [cellAt_copyPrefix, copyCell_pos]
  · obtain ⟨r, hr, hhas⟩ := h.covers i s ((hmem i).mp hi)
    exact ⟨r, (AList.lookup_insert_ne hs).trans hr, hhas⟩

/-! ## §3  After an error -/

/-- Batches with positions below `math.MaxInt32`, which stands for the end, and removals of a
range. -/
def InRange (_c : Causal) : Call → Prop
  | .startForward batch _ _ => ∀ e ∈ batch, 0 ≤ e.pos ∧ e.pos < maxInt32
  | .setCausal _ _ => True
  | .copyPrefix _ _ _ => True
  | .remove _ beginIndex endIndex _ => 0 ≤ beginIndex ∧ beginIndex ≤ endIndex

def Ranged (c : Causal) : Prop := ∀ seq, ∀ p ∈ stored c.cells seq, 0 ≤ p ∧ p < maxInt32

theorem Ranged.startForward {c : Causal} (hw : Wellformed c) (h : c.Ranged) {batch : Batch}
    (hbatch : ∀ e ∈ batch, 0 ≤ e.pos ∧ e.pos < maxInt32) (reserve : Bool) (maxMoves : Int) :
    (c.startForward batch reserve maxMoves).cache.Ranged := by
  intro seq p hp
  cases reserve with
  | true =>
      exact h seq p hp
  | false =>
      by_cases hnil : (c.startForward batch false maxMoves).err = none
      · rw [startForward_stored hw.cover hnil] at hp
        rcases hp with hp | ⟨e, he, -, rfl⟩
        · exact h seq p hp.1
        · exact hbatch e he
      · rw [startForward_failed_stored hw.cover hnil] at hp
        exact h seq p hp.1

theorem Ranged.remove {c : Causal} (h : c.Ranged) (hbegin : 0 ≤ beginIndex)
    (hle : beginIndex ≤ endIndex) (shiftFails : Bool) :
    (c.remove seq beginIndex endIndex shiftFails).1.Ranged := by
  rintro s p ⟨i, hi, rfl⟩
  by_cases hs : s = seq
  · subst hs
    have hmem : s ∈ (cellAt c.cells i).sequences :=
      (removeCells_spec s beginIndex endIndex (removeOffset beginIndex endIndex) c.cells 0
        KvCache.newRange).mem i s (by rwa [← remove_cells c s beginIndex endIndex shiftFails])
    have hold := h s _ ⟨i, hmem, rfl⟩
    obtain ⟨-, hnonneg, hdown⟩ := remove_own hbegin hle hi hold.1
    exact ⟨hnonneg, Int.lt_of_le_of_lt hdown hold.2⟩
  · obtain ⟨hmem, hpos⟩ := remove_other hs hi
    rw [hpos]
    exact h s _ ⟨i, hmem, rfl⟩

theorem init_ranged {c : Causal} (h : system.init c) : c.Ranged := by
  obtain ⟨window, memory, chunk, config, maxSequences, capacity, maxBatch, h⟩ := h
  unfold Causal.init at h
  extract_lets cachePadding maskBatchPadding window memory₁ memory₂ memory cacheSize at h
  by_cases hmem : memory < window
  · rw [if_pos hmem] at h
    cases h
  rw [if_neg hmem] at h
  cases h
  intro seq p hp
  rw [stored_replicate] at hp
  cases hp

theorem apply_ranged {c : Causal} (hw : Wellformed c) (hr : c.Ranged) {call : Call}
    (hcall : InRange c call) : (c.apply call).Ranged := by
  cases call with
  | startForward batch reserve maxMoves => exact hr.startForward hw hcall reserve maxMoves
  | setCausal ctx except =>
      intro seq p hp
      change p ∈ stored (c.setCausal ctx except).cells seq at hp
      rw [(setCausal_cells c ctx except).1] at hp
      exact hr seq p hp
  | copyPrefix srcSeq dstSeq len =>
      intro seq p hp
      change p ∈ stored (c.copyPrefix srcSeq dstSeq len).cells seq at hp
      rw [copyPrefix_stored] at hp
      split at hp
      · exact hr _ p hp.1
      · exact hr _ p hp
  | remove seq beginIndex endIndex shiftFails => exact hr.remove hcall.1 hcall.2 shiftFails

theorem reachable_ranged {c : Causal} (h : (system.guard InRange).Reachable c) : c.Ranged := by
  refine h.invariant_of (Q := Wellformed) (P := Ranged) (fun _ h => reachable_wellformed h.of_guard)
    (fun _ hinit => init_ranged hinit) ?_
  rintro c call c' hw hr ⟨hcall, rfl⟩
  exact apply_ranged hw hr hcall

/-- A loop that takes the sequence out of all its cells finds no range. -/
theorem removeCells_whole (seq beginIndex endIndex offset : Int) :
    ∀ (cells : List CacheCell) (i : Nat) (r : CellRange),
      (∀ cell ∈ cells, seq ∈ cell.sequences → beginIndex ≤ cell.pos ∧ cell.pos < endIndex) →
        (removeCells seq beginIndex endIndex offset i r cells).2 = (r, false)
  | [], _, _, _ => rfl
  | cell :: rest, i, r, h => by
      have ih := removeCells_whole seq beginIndex endIndex offset rest (i + 1) r
        fun cell' hcell' => h cell' (mem_cons_of_mem cell hcell')
      unfold removeCells
      by_cases hmem : seq ∈ cell.sequences
      · rw [if_pos hmem, if_pos (h cell mem_cons_self hmem)]
        exact ih
      · rw [if_neg hmem]
        exact ih

/-- The whole of a sequence can be removed. -/
theorem remove_whole (hr : ∀ p ∈ stored c.cells seq, 0 ≤ p ∧ p < maxInt32) :
    (c.removeShifting layers shiftFn seq 0 maxInt32).2 = ([], none) ∧
      (∀ i, seq ∉ (cellAt (c.removeShifting layers shiftFn seq 0 maxInt32).1.cells i).sequences) ∧
      (c.removeShifting layers shiftFn seq 0 maxInt32).1.cellRanges.lookup seq = none := by
  have hspec := removeCells_spec seq 0 maxInt32 0 c.cells 0 KvCache.newRange
  have hres := removeCells_whole seq 0 maxInt32 0 c.cells 0 KvCache.newRange
    fun cell hcell hmem => by
      obtain ⟨i, hi, rfl⟩ := getElem_of_mem hcell
      rw [← cellAt_eq_getElem hi] at hmem ⊢
      exact hr _ ⟨i, hmem, rfl⟩
  unfold removeShifting
  dsimp only
  rw [if_neg (not_not.mpr rfl)]
  generalize removeCells seq 0 maxInt32 0 0 KvCache.newRange c.cells = res at hspec hres
  obtain ⟨cells, r, stopped⟩ := res
  cases hres
  refine ⟨rfl, fun i hi => ?_, AList.lookup_erase seq c.cellRanges⟩
  have hi' : seq ∈ (cellAt cells i).sequences := hi
  rw [hspec.cell rfl i] at hi'
  obtain ⟨hmem, hout⟩ := mem_removedCell.mp hi'
  exact hout ⟨rfl, hr _ ⟨i, hmem, rfl⟩⟩

/-- After an error the whole of the sequence can be removed, and nothing else has changed. -/
structure Recovers (f : RowShift ρ) (c : Causal) (layers : List Nat) (shiftFn : Option ShiftFn)
    (seq : Int) (rows : Nat → Nat → ρ) (failed : Causal × List ShiftCall) : Prop where
  nil : (failed.1.removeShifting layers shiftFn seq 0 maxInt32).2.2 = none
  gone : ∀ i, seq ∉
    (cellAt (failed.1.removeShifting layers shiftFn seq 0 maxInt32).1.cells i).sequences
  range : (failed.1.removeShifting layers shiftFn seq 0 maxInt32).1.cellRanges.lookup seq = none
  others : ∀ s, s ≠ seq →
    Undisturbed s c (failed.1.removeShifting layers shiftFn seq 0 maxInt32).1 rows
      ((failed.2 ++ (failed.1.removeShifting layers shiftFn seq 0 maxInt32).2.1).foldl f.copyBack
        rows)

/-- Rotations of keys that are numbers. -/
def addOffset : RowShift Int := ⟨fun _ offset row => row + offset, fun _ row => Int.add_zero row⟩

/-- Sequence 0 at the positions 3 and 2; its second cell is shared with sequence 1. -/
def sharedCell : Causal :=
  [Call.startForward [⟨3, 0⟩, ⟨2, 0⟩] false 1, .copyPrefix 0 1 3].foldl apply sixCells

end Causal

end Ollama.KvCache
