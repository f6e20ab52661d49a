import Ollama.KvCache.Stored
import Ollama.KvCache.Masking
import Mathlib.Algebra.BigOperators.Group.Finset.Piecewise
import Mathlib.Algebra.Order.BigOperators.Group.Finset
import Mathlib.Data.Int.Interval

/-!
# The size of the cache

`Init` allocates enough: in no run does a batch find the cache full, when a removal
that stopped at a shared cell is followed by the removal of the whole sequence.
-/

namespace Ollama.KvCache

open List

namespace Causal

/-! ## §1  Counting cells -/

def usedCells (cells : List CacheCell) : Finset Nat :=
  (Finset.range cells.length).filter fun i => used cells i = true

def cellsOf (cells : List CacheCell) (seq : Int) : Finset Nat :=
  (Finset.range cells.length).filter fun i => seq ∈ (cellAt cells i).sequences

variable {cells : List CacheCell}

theorem mem_usedCells {i : Nat} : i ∈ usedCells cells ↔ used cells i = true := by
  unfold usedCells
  rw [Finset.mem_filter, Finset.mem_range]
  exact and_iff_right_of_imp lt_length_of_used

theorem mem_cellsOf {seq : Int} {i : Nat} :
    i ∈ cellsOf cells seq ↔ seq ∈ (cellAt cells i).sequences := by
  unfold cellsOf
  rw [Finset.mem_filter, Finset.mem_range]
  exact and_iff_right_of_imp lt_length_of_mem

theorem card_cellsOf_le {seq : Int} (h : StoredOnce cells seq) {a b : Int}
    (hin : ∀ p ∈ stored cells seq, a ≤ p ∧ p < b) : (cellsOf cells seq).card ≤ (b - a).toNat := by
  rw [← Int.card_Ico]
  refine Finset.card_le_card_of_injOn (fun i => (cellAt cells i).pos) (fun i hi => ?_)
    fun i hi j hj hp => ?_
  · exact Finset.mem_coe.mpr (Finset.mem_Ico.mpr (hin _ ⟨i, mem_cellsOf.mp hi, rfl⟩))
  · exact h i j (mem_cellsOf.mp hi) (mem_cellsOf.mp hj) hp

theorem card_usedCells_le {ids : Finset Int}
    (hids : ∀ seq, (stored cells seq).Nonempty → seq ∈ ids) :
    (usedCells cells).card ≤ ∑ seq ∈ ids, (cellsOf cells seq).card := by
  have hsub : usedCells cells ⊆ ids.biUnion (cellsOf cells) := by
    intro i hi
    obtain ⟨seq, hseq⟩ := exists_mem_of_ne_nil _ (used_iff.mp (mem_usedCells.mp hi))
    exact Finset.mem_biUnion.mpr ⟨seq, hids seq ⟨_, i, hseq, rfl⟩, mem_cellsOf.mpr hseq⟩
  exact (Finset.card_le_card hsub).trans Finset.card_biUnion_le

/-- The tokens of a batch, counted by sequence. -/
theorem sum_tokens {ids : Finset Int} : ∀ {batch : Batch}, (∀ e ∈ batch, e.seq ∈ ids) →
      ∑ seq ∈ ids, tokens batch seq = batch.length := by
  intro batch
  induction batch using List.reverseRecOn with
  | nil =>
      intro _
      exact Finset.sum_const_zero
  | append_singleton batch e ih =>
      intro h
      have hmem : e.seq ∈ ids := h e (mem_append_right _ (mem_singleton.mpr rfl))
      have hone : ∑ seq ∈ ids, (if e.seq = seq then 1 else 0) = 1 := by
        rw [Finset.sum_ite_eq, if_pos hmem]
      have hrest := ih fun e' he' => h e' (mem_append_left _ he')
      rw [length_append, length_singleton, ← hrest, ← hone, ← Finset.sum_add_distrib]
      exact Finset.sum_congr rfl fun seq _ => tokens_append batch e seq

/-! ## §2  Finding room -/

/-- The loop misses no free block. -/
theorem findStart_complete {all : List CacheCell} {n : Nat} :
    ∀ (cells : List CacheCell) (i start count : Nat), all.drop i = cells →
      start + count = i → count < n → findStart n i start count cells = none →
      ∀ loc, start ≤ loc → loc + n ≤ all.length →
        ∃ j, loc ≤ j ∧ j < loc + n ∧ (cellAt all j).sequences ≠ []
  | [], i, start, count, hdrop, hcount, hlt, _, loc, hle, hroom => by
      have hlen := drop_eq_nil_iff.mp hdrop
      omega
  | cell :: rest, i, start, count, hdrop, hcount, hlt, h, loc, hle, hroom => by
      have hi : i < all.length := by
        by_contra hge
        rw [drop_eq_nil_of_le (Nat.le_of_not_lt hge)] at hdrop
        cases hdrop
      rw [drop_eq_getElem_cons hi] at hdrop
      obtain ⟨hcell, hrest⟩ := List.cons.inj hdrop
      rw [← cellAt_eq_getElem hi] at hcell
      unfold findStart at h
      by_cases hempty : cell.sequences = []
      · rw [if_pos hempty] at h
        by_cases hn : n ≤ count + 1
        · rw [if_pos hn] at h
          cases h
        · rw [if_neg hn] at h
          exact findStart_complete rest (i + 1) start (count + 1) hrest (by omega) (by omega) h
            loc hle hroom
      · rw [if_neg hempty] at h
        by_cases hin : loc ≤ i
        · exact ⟨i, hin, by omega, hcell ▸ hempty⟩
        · exact findStart_complete rest (i + 1) (i + 1) 0 hrest rfl (by omega) h loc (by omega) hroom

variable {c : Causal}

theorem findStartLoc_complete (hpos : 1 ≤ c.curBatch.length) {loc : Nat}
    (hroom : loc + c.curBatch.length ≤ c.cells.length)
    (hfree : ∀ i, loc ≤ i → i < loc + c.curBatch.length → (cellAt c.cells i).sequences = []) :
    c.findStartLoc ≠ none := by
  intro hnone
  obtain ⟨j, hle, hlt, hne⟩ := findStart_complete c.cells 0 0 0 rfl rfl hpos hnone loc
    (Nat.zero_le loc) hroom
  exact hne (hfree j hle hlt)

theorem front_le {cells cells' : List CacheCell} (h : Rearranged cells cells') {m : Nat}
    (hfront : ∀ i, used cells' i = true ↔ i < m) : m ≤ (usedCells cells).card := by
  obtain ⟨f, -, -, honto⟩ := h.places
  have hsurj : Set.SurjOn f (usedCells cells) (Finset.range m) := by
    intro i hi
    obtain ⟨j, hj, hji⟩ := honto i ((hfront i).mpr (Finset.mem_range.mp hi))
    exact ⟨j, mem_usedCells.mpr hj, hji⟩
  have hcard := Finset.card_le_card_of_surjOn f hsurj
  rwa [Finset.card_range] at hcard

/-- A defragmented cache has room for what fits beside the cells in use. -/
theorem locate_room (h : c.RangesCover) (hpos : 1 ≤ c.curBatch.length)
    (hfit : (usedCells c.updateSlidingWindow.cells).card + c.curBatch.length ≤ c.cells.length)
    (maxMoves : Int) : (c.locate maxMoves).loc ≠ none := by
  have hw := updateSlidingWindow_spec h
  have hre := defrag_rearranged h maxMoves
  obtain ⟨m, hfront⟩ := (compacted_cellsKept (defrag_spec h maxMoves).1).front
  have hm := front_le hre hfront
  have hbatch : (c.updateSlidingWindow.defrag maxMoves).1.curBatch = c.curBatch :=
    (updateSlidingWindow_spec (compact_cover hw.cover maxMoves)).curBatch.trans hw.curBatch
  unfold locate
  simp only
  split
  · exact nofun
  have hroom : m + (c.updateSlidingWindow.defrag maxMoves).1.curBatch.length ≤
      (c.updateSlidingWindow.defrag maxMoves).1.cells.length := by
    rw [hbatch, hre.length, hw.shrinks.length]
    omega
  refine findStartLoc_complete ?_ hroom fun i hle _ => ?_
  · rwa [hbatch]
  · exact not_used_iff.mp (Bool.eq_false_iff.mpr fun hi => Nat.not_lt.mpr hle ((hfront i).mp hi))

/-! ## §3  What eviction leaves -/

/-- The lowest position of a sequence in the batch is one of its positions. -/
theorem batchLowest_attained (batch : Batch) : ∀ seq lowest,
    (batchLowest batch).lookup seq = some lowest → ∃ e ∈ batch, e.seq = seq ∧ e.pos = lowest.pos := by
  induction batch using List.reverseRecOn with
  | nil =>
      intro seq lowest h
      cases h
  | append_singleton batch e ih =>
      intro seq lowest h
      have hold : ∀ {seq lowest}, (batchLowest batch).lookup seq = some lowest →
          ∃ e' ∈ batch ++ [e], e'.seq = seq ∧ e'.pos = lowest.pos := by
        intro seq lowest h
        obtain ⟨e', he', hs⟩ := ih seq lowest h
        exact ⟨e', mem_append_left _ he', hs⟩
      have hnew : e ∈ batch ++ [e] := mem_append_right _ (mem_singleton.mpr rfl)
      have hsnoc : batchLowest (batch ++ [e]) = lowerEntry (batchLowest batch) e := by
        rw [batchLowest, foldl_append]
        rfl
      rw [hsnoc, lowerEntry] at h
      cases hm : (batchLowest batch).lookup e.seq with
      | none =>
          rw [hm] at h
          by_cases hs : seq = e.seq
          · rw [hs, AList.lookup_insert] at h
            cases h
            exact ⟨e, hnew, hs.symm, rfl⟩
          · rw [AList.lookup_insert_ne hs] at h
            exact hold h
      | some low =>
          rw [hm] at h
          by_cases hs : seq = e.seq
          · rw [hs, AList.lookup_insert] at h
            cases h
            split
            · exact ⟨e, hnew, hs.symm, rfl⟩
            · exact hs ▸ hold hm
          · rw [AList.lookup_insert_ne hs] at h
            exact hold h

/-- Eviction keeps no more of a sequence than the memory, before the position where
it goes on. -/
theorem Keeps.ge (h : c.RangesCover) (hmem : c.swaMemorySize ≠ maxInt32)
    {seq n p : Int} (hn : StartsAt (stored c.cells seq) n) (hp : p ∈ stored c.cells seq)
    (hbatch : ∀ e ∈ c.curBatch, e.seq = seq → n ≤ e.pos) (hk : c.Keeps seq p) :
    n - c.swaMemorySize ≤ p := by
  obtain ⟨i, hi, hip⟩ := hn.direct ⟨p, hp⟩
  obtain ⟨r, hr, hhas⟩ := h.covers i seq hi
  cases hin : (batchLowest c.curBatch).lookup seq with
  | some lowest =>
      have hlow := hk hmem lowest (by rw [lookup_lowestPositions, hin])
      obtain ⟨e, he, hs, hpos⟩ := batchLowest_attained c.curBatch seq lowest hin
      have := hbatch e he hs
      omega
  | none =>
      have hlow := hk hmem ⟨lastPos c.cells seq r + 1, false⟩
        (by rw [lookup_lowestPositions, hin, hr]; rfl)
      have hlast := (lastPos_spec c.cells seq r).2.1 i hhas hi
      have hlow' : lastPos c.cells seq r + 1 - c.swaMemorySize ≤ p := hlow
      omega

/-! ## §4  Removals -/

/-- What `Remove` may do to a cell: leave it, take the sequence out, or shift it when
no other sequence holds it. -/
inductive Touched (seq beginIndex endIndex offset : Int) (cell : CacheCell) : CacheCell → Prop
  | same : Touched seq beginIndex endIndex offset cell cell
  | dropped : Touched seq beginIndex endIndex offset cell (cell.drop seq)
  | shifted : endIndex ≤ cell.pos → (∀ s ∈ cell.sequences, s = seq) →
      Touched seq beginIndex endIndex offset cell { cell with pos := cell.pos + offset }

theorem removeCells_touched (seq beginIndex endIndex offset : Int) :
    ∀ (cells : List CacheCell) (i : Nat) (r : CellRange) (k : Nat),
      Touched seq beginIndex endIndex offset (cellAt cells k)
        (cellAt (removeCells seq beginIndex endIndex offset i r cells).1 k)
  | [], i, r, k => by
      unfold removeCells
      exact .same
  | cell :: rest, i, r, k => by
      have ih := removeCells_touched seq beginIndex endIndex offset rest (i + 1)
      unfold removeCells
      split
      · split
        · cases k with
          | zero => exact .dropped
          | succ k => exact ih r k
        split
        · split
          · exact .same
          rename_i hend hshared
          cases k with
          | zero =>
              refine .shifted hend fun s hs => ?_
              by_contra hne
              exact hshared (any_eq_true.mpr ⟨s, hs, decide_eq_true hne⟩)
          | succ k => exact ih (r.add i) k
        · cases k with
          | zero => exact .same
          | succ k => exact ih (r.add i) k
      · cases k with
        | zero => exact .same
        | succ k => exact ih r k

def removeOffset (beginIndex endIndex : Int) : Int :=
  if endIndex ≠ maxInt32 then beginIndex - endIndex else 0

theorem remove_cells (c : Causal) (seq beginIndex endIndex : Int) (shiftFails : Bool) :
    (c.remove seq beginIndex endIndex shiftFails).1.cells =
      (removeCells seq beginIndex endIndex (removeOffset beginIndex endIndex) 0
        KvCache.newRange c.cells).1 := by
  unfold remove removeOffset
  simp only
  generalize removeCells seq beginIndex endIndex
    (if endIndex ≠ maxInt32 then beginIndex - endIndex else 0) 0 KvCache.newRange c.cells = res
  split
  · rfl
  · split
    · rfl
    · split <;> rfl

theorem remove_stopped {seq beginIndex endIndex : Int} {shiftFails : Bool}
    (h : (c.remove seq beginIndex endIndex shiftFails).2 ≠ some .sharedShift) :
    (removeCells seq beginIndex endIndex (removeOffset beginIndex endIndex) 0
      KvCache.newRange c.cells).2.2 = false := by
  unfold remove at h
  rw [Bool.eq_false_iff]
  intro hstop
  unfold removeOffset at hstop
  rw [if_pos hstop] at h
  exact h rfl

section Removed

variable {c : Causal} {seq beginIndex endIndex : Int} {shiftFails : Bool}

theorem remove_touched (c : Causal) (seq beginIndex endIndex : Int) (shiftFails : Bool) (k : Nat) :
    Touched seq beginIndex endIndex (removeOffset beginIndex endIndex) (cellAt c.cells k)
      (cellAt (c.remove seq beginIndex endIndex shiftFails).1.cells k) := by
  rw [remove_cells]
  exact removeCells_touched _ _ _ _ _ _ _ k

variable {k : Nat}

theorem remove_other {s : Int} (hs : s ≠ seq)
    (hk : s ∈ (cellAt (c.remove seq beginIndex endIndex shiftFails).1.cells k).sequences) :
    s ∈ (cellAt c.cells k).sequences ∧
      (cellAt (c.remove seq beginIndex endIndex shiftFails).1.cells k).pos =
        (cellAt c.cells k).pos := by
  have htouched := remove_touched c seq beginIndex endIndex shiftFails k
  generalize cellAt (c.remove seq beginIndex endIndex shiftFails).1.cells k = cell at hk htouched
  cases htouched with
  | same => exact ⟨hk, rfl⟩
  | dropped => exact ⟨(CacheCell.mem_drop.mp hk).1, rfl⟩
  | shifted hend hall => exact absurd (hall s hk) hs

/-- Positions stay, or go down by the length of a range that was before them. -/
theorem remove_own (hb : 0 ≤ beginIndex) (hle : beginIndex ≤ endIndex)
    (hk : seq ∈ (cellAt (c.remove seq beginIndex endIndex shiftFails).1.cells k).sequences)
    (hp : 0 ≤ (cellAt c.cells k).pos) :
    seq ∈ (cellAt c.cells k).sequences ∧
      0 ≤ (cellAt (c.remove seq beginIndex endIndex shiftFails).1.cells k).pos ∧
      (cellAt (c.remove seq beginIndex endIndex shiftFails).1.cells k).pos ≤
        (cellAt c.cells k).pos := by
  have htouched := remove_touched c seq beginIndex endIndex shiftFails k
  generalize cellAt (c.remove seq beginIndex endIndex shiftFails).1.cells k = cell at hk htouched
  cases htouched with
  | same => exact ⟨hk, hp, Int.le_refl _⟩
  | dropped => exact ⟨(CacheCell.mem_drop.mp hk).1, hp, Int.le_refl _⟩
  | shifted hend hall =>
      have hoff : 0 ≤ (cellAt c.cells k).pos + removeOffset beginIndex endIndex ∧
          (cellAt c.cells k).pos + removeOffset beginIndex endIndex ≤ (cellAt c.cells k).pos := by
        unfold removeOffset
        split
        · omega
        · omega
      exact ⟨hk, hoff⟩

/-- A removal that does not stop shifts what was behind the range, and leaves what
was before it. -/
theorem remove_kept (hlimit : ∀ p ∈ stored c.cells seq, p < maxInt32)
    (hstop : (c.remove seq beginIndex endIndex shiftFails).2 ≠ some .sharedShift)
    (hk : seq ∈ (cellAt (c.remove seq beginIndex endIndex shiftFails).1.cells k).sequences) :
    seq ∈ (cellAt c.cells k).sequences ∧
      ((cellAt c.cells k).pos < beginIndex ∧ (cellAt c.cells k).pos < endIndex ∧
          (cellAt (c.remove seq beginIndex endIndex shiftFails).1.cells k).pos =
            (cellAt c.cells k).pos ∨
        endIndex ≤ (cellAt c.cells k).pos ∧
          (cellAt (c.remove seq beginIndex endIndex shiftFails).1.cells k).pos =
            (cellAt c.cells k).pos + (beginIndex - endIndex)) := by
  have hspec := removeCells_spec seq beginIndex endIndex (removeOffset beginIndex endIndex) c.cells 0
    KvCache.newRange
  rw [remove_cells] at hk ⊢
  have hmem := hspec.mem k seq hk
  have hpos := hlimit _ ⟨k, hmem, rfl⟩
  refine ⟨hmem, ?_⟩
  rw [hspec.cell (remove_stopped hstop) k] at hk ⊢
  unfold removedCell at hk ⊢
  rw [if_pos hmem] at hk ⊢
  by_cases hin : beginIndex ≤ (cellAt c.cells k).pos ∧ (cellAt c.cells k).pos < endIndex
  · rw [if_pos hin] at hk
    exact absurd rfl (CacheCell.mem_drop.mp hk).2
  rw [if_neg hin]
  by_cases hend : endIndex ≤ (cellAt c.cells k).pos
  · rw [if_pos hend]
    refine Or.inr ⟨hend, ?_⟩
    unfold removeOffset
    rw [if_pos (by omega)]
  · rw [if_neg hend]
    refine Or.inl ⟨?_, Int.not_le.mp hend, rfl⟩
    by_contra hlt
    exact hin ⟨Int.not_lt.mp hlt, Int.not_le.mp hend⟩

end Removed

/-! ## §5  Runs -/

/-- A cache, with the sequences that a removal has left half done. -/
structure Halfway where
  cache : Causal
  halfDone : List Int

/-- The calls of these runs: batches of 1 to `maxBatch` tokens that continue the
sequences of `ids` below the capacity, copies to one of `ids`, removals of a range. -/
def InBounds (ids : Finset Int) (capacity maxBatch : Nat) (c : Causal) : Call → Prop
  | .startForward batch reserve _ => reserve = false →
      (1 ≤ batch.length ∧ batch.length ≤ maxBatch) ∧
      (∃ next : Int → Int, (∀ seq, StartsAt (stored c.cells seq) (next seq)) ∧ Follows next batch) ∧
      ∀ e ∈ batch, e.seq ∈ ids ∧ e.pos < capacity ∧ e.pos < maxInt32
  | .setCausal _ _ => True
  | .copyPrefix _ dstSeq _ => dstSeq ∈ ids
  | .remove _ beginIndex endIndex _ => 0 ≤ beginIndex ∧ beginIndex ≤ endIndex

/-- The cache after a call. A removal that stops at a shared cell leaves its sequence
half done, until the whole sequence is removed. -/
def Halfway.apply (t : Halfway) (call : Call) : Halfway :=
  ⟨t.cache.apply call,
    match call with
    | .copyPrefix srcSeq dstSeq _ =>
        if srcSeq ∈ t.halfDone then dstSeq :: t.halfDone
        else t.halfDone.filter fun s => s ≠ dstSeq
    | .remove seq beginIndex endIndex shiftFails =>
        if (t.cache.remove seq beginIndex endIndex shiftFails).2 = some .sharedShift then
          seq :: t.halfDone
        else if beginIndex = 0 ∧ endIndex = maxInt32 then t.halfDone.filter fun s => s ≠ seq
        else t.halfDone
    | _ => t.halfDone⟩

/-- The runs of a cache that was initialised for the sequences `ids`, in any mode. -/
def sizedSystem (ids : Finset Int) (maxSequences capacity maxBatch : Nat) :
    Lib.System Halfway Call where
  init t := ids.card ≤ maxSequences ∧ t.halfDone = [] ∧ ∃ window memory chunk config, 0 ≤ window ∧
    Causal.init window memory chunk config maxSequences capacity maxBatch = some t.cache
  step t call t' := InBounds ids capacity maxBatch t.cache call ∧ t' = t.apply call

/-- No removal is left half done when a batch is stored. -/
def CleanedUp (t : Halfway) : Call → Prop
  | .startForward _ reserve _ => reserve = false → t.halfDone = []
  | _ => True

/-- The cache is large enough for what the sequences may keep, and every position of
theirs is stored once, unless a removal is half done. -/
structure Fits (ids : Finset Int) (maxSequences capacity maxBatch : Nat) (t : Halfway) : Prop where
  wellformed : Wellformed t.cache
  ids_le : ids.card ≤ maxSequences
  memory : 0 ≤ t.cache.swaMemorySize
  unlimited : t.cache.swaMemorySize = maxInt32 → maxSequences * capacity ≤ t.cache.cells.length
  limited : t.cache.swaMemorySize ≠ maxInt32 →
    maxSequences * t.cache.swaMemorySize.toNat + maxBatch ≤ t.cache.cells.length
  bound : ∀ seq, ∀ p ∈ stored t.cache.cells seq, seq ∈ ids ∧ 0 ≤ p ∧ p < capacity ∧ p < maxInt32
  once : ∀ seq, seq ∉ t.halfDone → StoredOnce t.cache.cells seq

variable {ids : Finset Int} {maxSequences capacity maxBatch : Nat}

/-! ## §6  Room for every batch -/

section Room

variable {t : Halfway} {batch : Batch} {next : Int → Int}

section

variable (h : Fits ids maxSequences capacity maxBatch t)
include h

theorem Fits.cover (batch : Batch) :
    (t.cache.beginBatch batch).RangesCover :=
  ⟨h.wellformed.cover.covers, h.wellformed.cover.below⟩

theorem Fits.evicted {seq p : Int}
    (hp : p ∈ stored (t.cache.beginBatch batch).updateSlidingWindow.cells seq) :
    p ∈ stored t.cache.cells seq ∧ (t.cache.beginBatch batch).Keeps seq p := by
  rw [updateSlidingWindow_stored (h.cover batch)] at hp
  exact hp

theorem Fits.evicted_ids (batch : Batch) (seq : Int)
    (hseq : (stored (t.cache.beginBatch batch).updateSlidingWindow.cells seq).Nonempty) :
    seq ∈ ids := by
  obtain ⟨p, hp⟩ := hseq
  exact (h.bound seq p (h.evicted hp).1).1

theorem Fits.evicted_once
    (hclean : t.halfDone = []) (batch : Batch) (seq : Int) :
    StoredOnce (t.cache.beginBatch batch).updateSlidingWindow.cells seq := by
  refine updateSlidingWindow_storedOnce (h.cover batch) (h.once seq ?_)
  rw [hclean]
  exact not_mem_nil

/-- A window's worth of cells for each sequence, and the batch. -/
theorem Fits.room_limited (hclean : t.halfDone = [])
    (hmem : t.cache.swaMemorySize ≠ maxInt32) (hlen : batch.length ≤ maxBatch)
    (hnext : ∀ seq, StartsAt (stored t.cache.cells seq) (next seq)) (hfollows : Follows next batch) :
    (usedCells (t.cache.beginBatch batch).updateSlidingWindow.cells).card + batch.length ≤
      t.cache.cells.length := by
  have hone : ∀ seq, (cellsOf (t.cache.beginBatch batch).updateSlidingWindow.cells seq).card ≤
      t.cache.swaMemorySize.toNat := by
    intro seq
    have hsize : (next seq - (next seq - t.cache.swaMemorySize)).toNat =
        t.cache.swaMemorySize.toNat := by omega
    rw [← hsize]
    refine card_cellsOf_le (h.evicted_once hclean batch seq) fun p hp => ?_
    obtain ⟨hp, hk⟩ := h.evicted hp
    refine ⟨hk.ge (h.cover batch) hmem (hnext seq) hp fun e he hs => ?_, (hnext seq).above p hp⟩
    have hpos : e.pos ∈ {p | ∃ e ∈ batch, e.seq = seq ∧ e.pos = p} := ⟨e, he, hs, rfl⟩
    rw [hfollows.positions seq] at hpos
    exact hpos.1
  have hused : (usedCells (t.cache.beginBatch batch).updateSlidingWindow.cells).card ≤
      maxSequences * t.cache.swaMemorySize.toNat :=
    calc (usedCells (t.cache.beginBatch batch).updateSlidingWindow.cells).card
        ≤ ∑ seq ∈ ids, (cellsOf (t.cache.beginBatch batch).updateSlidingWindow.cells seq).card :=
          card_usedCells_le (h.evicted_ids batch)
      _ ≤ ∑ _seq ∈ ids, t.cache.swaMemorySize.toNat := Finset.sum_le_sum fun seq _ => hone seq
      _ = ids.card * t.cache.swaMemorySize.toNat := Finset.sum_const_nat fun _ _ => rfl
      _ ≤ maxSequences * t.cache.swaMemorySize.toNat := Nat.mul_le_mul_right _ h.ids_le
  have := h.limited hmem
  omega

/-- Positions below the capacity, old and new, for each sequence. -/
theorem Fits.room_unlimited
    (hclean : t.halfDone = []) (hmem : t.cache.swaMemorySize = maxInt32)
    (hnext : ∀ seq, StartsAt (stored t.cache.cells seq) (next seq)) (hfollows : Follows next batch)
    (hin : ∀ e ∈ batch, e.seq ∈ ids ∧ e.pos < capacity ∧ e.pos < maxInt32) :
    (usedCells (t.cache.beginBatch batch).updateSlidingWindow.cells).card + batch.length ≤
      t.cache.cells.length := by
  have honce := h.evicted_once hclean batch
  have hone : ∀ seq, (cellsOf (t.cache.beginBatch batch).updateSlidingWindow.cells seq).card +
      tokens batch seq ≤ capacity := by
    intro seq
    by_cases hnone : tokens batch seq = 0
    · have hcard := card_cellsOf_le (honce seq) (a := 0) (b := capacity) fun p hp => by
        have hb := h.bound seq p (h.evicted hp).1
        exact ⟨hb.2.1, hb.2.2.1⟩
      omega
    have hcard := card_cellsOf_le (honce seq) (a := 0) (b := next seq) fun p hp => by
      obtain ⟨hp, -⟩ := h.evicted hp
      exact ⟨(h.bound seq p hp).2.1, (hnext seq).above p hp⟩
    have hlast : next seq + tokens batch seq - 1 ∈
        Set.Ico (next seq) (next seq + tokens batch seq) := ⟨by omega, by omega⟩
    rw [← hfollows.positions seq] at hlast
    obtain ⟨e, he, -, hpos⟩ := hlast
    have hlt := (hin e he).2.1
    have hnonneg := (hnext seq).nonneg
    omega
  have hsum : (usedCells (t.cache.beginBatch batch).updateSlidingWindow.cells).card +
      batch.length ≤ maxSequences * capacity :=
    calc (usedCells (t.cache.beginBatch batch).updateSlidingWindow.cells).card + batch.length
        ≤ (∑ seq ∈ ids, (cellsOf (t.cache.beginBatch batch).updateSlidingWindow.cells seq).card) +
            ∑ seq ∈ ids, tokens batch seq := by
          rw [sum_tokens fun e he => (hin e he).1]
          exact Nat.add_le_add_right (card_usedCells_le (h.evicted_ids batch)) _
      _ = ∑ seq ∈ ids, ((cellsOf (t.cache.beginBatch batch).updateSlidingWindow.cells seq).card +
            tokens batch seq) := Finset.sum_add_distrib.symm
      _ ≤ ∑ _seq ∈ ids, capacity := Finset.sum_le_sum fun seq _ => hone seq
      _ = ids.card * capacity := Finset.sum_const_nat fun _ _ => rfl
      _ ≤ maxSequences * capacity := Nat.mul_le_mul_right _ h.ids_le
  exact hsum.trans (h.unlimited hmem)

/-- A batch finds room. -/
theorem Fits.startForward_ok {maxMoves : Int}
    {reserve : Bool}
    (hcall : InBounds ids capacity maxBatch t.cache (.startForward batch reserve maxMoves))
    (hclean : CleanedUp t (.startForward batch reserve maxMoves)) :
    (t.cache.startForward batch reserve maxMoves).err = none := by
  rw [startForward_err]
  cases reserve with
  | true => rfl
  | false =>
      obtain ⟨⟨hpos, hlen⟩, ⟨next, hnext, hfollows⟩, hin⟩ := hcall rfl
      have hroom : (usedCells (t.cache.beginBatch batch).updateSlidingWindow.cells).card +
          batch.length ≤ t.cache.cells.length := by
        by_cases hmem : t.cache.swaMemorySize = maxInt32
        · exact h.room_unlimited (hclean rfl) hmem hnext hfollows hin
        · exact h.room_limited (hclean rfl) hmem hlen hnext hfollows
      have hloc := locate_room (h.cover batch) hpos hroom maxMoves
      unfold prepareForward
      simp only [Bool.false_eq_true, if_false]
      split
      · rfl
      · rename_i hnone
        exact absurd hnone hloc

end

end Room

/-! ## §7  What each call keeps -/

section Kept

variable {t : Halfway}

section

variable (h : Fits ids maxSequences capacity maxBatch t)
include h

theorem Fits.of_cells {c' : Causal}
    (hw : Wellformed c') (hs : SameSetup t.cache c') (hcells : c'.cells = t.cache.cells) :
    Fits ids maxSequences capacity maxBatch ⟨c', t.halfDone⟩ where
  wellformed := hw
  ids_le := h.ids_le
  memory := by rw [hs.memory]; exact h.memory
  unlimited := by rw [hs.memory, hs.length]; exact h.unlimited
  limited := by rw [hs.memory, hs.length]; exact h.limited
  bound := by rw [hcells]; exact h.bound
  once := by rw [hcells]; exact h.once

theorem Fits.startForward {batch : Batch}
    {maxMoves : Int}
    (hcall : InBounds ids capacity maxBatch t.cache (.startForward batch false maxMoves))
    (hclean : t.halfDone = []) :
    Fits ids maxSequences capacity maxBatch
      ⟨(t.cache.startForward batch false maxMoves).cache, t.halfDone⟩ := by
  have hnil := h.startForward_ok hcall fun _ => hclean
  obtain ⟨-, ⟨next, hnext, hfollows⟩, hin⟩ := hcall rfl
  have hs := startForward_sameSetup h.wellformed batch maxMoves
  refine ⟨startForward_wellformed h.wellformed batch false maxMoves, h.ids_le, ?_, ?_, ?_,
    fun seq p hp => ?_, fun seq _ => ?_⟩
  · rw [hs.memory]
    exact h.memory
  · rw [hs.memory, hs.length]
    exact h.unlimited
  · rw [hs.memory, hs.length]
    exact h.limited
  · rw [startForward_stored h.wellformed.cover hnil] at hp
    obtain hp | ⟨e, he, rfl, rfl⟩ := hp
    · exact h.bound seq p hp.1
    · have hpos : e.pos ∈ {p | ∃ e' ∈ batch, e'.seq = e.seq ∧ e'.pos = p} := ⟨e, he, rfl, rfl⟩
      rw [hfollows.positions e.seq] at hpos
      exact ⟨(hin e he).1, Int.le_trans (hnext e.seq).nonneg hpos.1, (hin e he).2⟩
  · refine (startForward_filled h.wellformed.cover hnil).storedOnce hfollows (fun p hp => ?_)
      (h.evicted_once hclean batch seq)
    exact (hnext seq).above p (h.evicted hp).1

theorem Fits.copyPrefix {srcSeq dstSeq len : Int}
    (hdst : dstSeq ∈ ids) :
    Fits ids maxSequences capacity maxBatch (t.apply (.copyPrefix srcSeq dstSeq len)) := by
  have hlen : (t.cache.copyPrefix srcSeq dstSeq len).cells.length = t.cache.cells.length :=
    length_map _
  refine ⟨apply_wellformed h.wellformed (.copyPrefix srcSeq dstSeq len), h.ids_le, h.memory,
    fun hmem => ?_, fun hmem => ?_, fun seq p hp => ?_, fun seq hseq => ?_⟩
  · exact (h.unlimited hmem).trans_eq hlen.symm
  · exact (h.limited hmem).trans_eq hlen.symm
  · change p ∈ stored (t.cache.copyPrefix srcSeq dstSeq len).cells seq at hp
    rw [copyPrefix_stored] at hp
    split at hp
    · rename_i hs
      exact ⟨hs ▸ hdst, (h.bound srcSeq p hp.1).2⟩
    · exact h.bound seq p hp
  · -- the cells of the sequence are cells it had, or cells of the source
    have hfrom : ∃ s, s ∉ t.halfDone ∧
        ∀ i, seq ∈ (cellAt (t.cache.copyPrefix srcSeq dstSeq len).cells i).sequences →
          s ∈ (cellAt t.cache.cells i).sequences := by
      by_cases hs : seq = dstSeq
      · refine ⟨srcSeq, fun hsrc => hseq ?_, fun i hi => ?_⟩
        · show seq ∈ if srcSeq ∈ t.halfDone then dstSeq :: t.halfDone
            else t.halfDone.filter fun s => s ≠ dstSeq
          rw [if_pos hsrc, hs]
          exact mem_cons_self
        · rw [cellAt_copyPrefix, mem_copyCell, if_pos hs] at hi
          exact hi.2.1
      · refine ⟨seq, fun hin => hseq ?_, fun i hi => ?_⟩
        · show seq ∈ if srcSeq ∈ t.halfDone then dstSeq :: t.halfDone
            else t.halfDone.filter fun s => s ≠ dstSeq
          split
          · exact mem_cons_of_mem _ hin
          · exact mem_filter.mpr ⟨hin, decide_eq_true hs⟩
        · rw [cellAt_copyPrefix, mem_copyCell, if_neg hs] at hi
          exact hi
    obtain ⟨s, hs, hmem⟩ := hfrom
    intro i j hi hj hp
    change (cellAt (t.cache.copyPrefix srcSeq dstSeq len).cells i).pos =
      (cellAt (t.cache.copyPrefix srcSeq dstSeq len).cells j).pos at hp
    rw [cellAt_copyPrefix, cellAt_copyPrefix, copyCell_pos, copyCell_pos] at hp
    exact h.once s hs i j (hmem i hi) (hmem j hj) hp

end

theorem remove_sameSetup (c : Causal) (seq beginIndex endIndex : Int) (shiftFails : Bool) :
    SameSetup c (c.remove seq beginIndex endIndex shiftFails).1 := by
  have hlen := (removeCells_spec seq beginIndex endIndex (removeOffset beginIndex endIndex)
    c.cells 0 KvCache.newRange).length
  unfold remove
  unfold removeOffset at hlen
  simp only
  generalize removeCells seq beginIndex endIndex
    (if endIndex ≠ maxInt32 then beginIndex - endIndex else 0) 0 KvCache.newRange c.cells = res
    at hlen
  split
  · exact ⟨rfl, rfl, rfl, rfl, hlen⟩
  · split
    · exact ⟨rfl, rfl, rfl, rfl, hlen⟩
    · split <;> exact ⟨rfl, rfl, rfl, rfl, hlen⟩

theorem Fits.remove (h : Fits ids maxSequences capacity maxBatch t)
    {seq beginIndex endIndex : Int} (hb : 0 ≤ beginIndex) (hle : beginIndex ≤ endIndex)
    (shiftFails : Bool) :
    Fits ids maxSequences capacity maxBatch
      (t.apply (.remove seq beginIndex endIndex shiftFails)) := by
  have hs := remove_sameSetup t.cache seq beginIndex endIndex shiftFails
  refine ⟨remove_wellformed h.wellformed seq beginIndex endIndex shiftFails, h.ids_le, ?_, ?_, ?_,
    fun seq' p hp => ?_, fun seq' hseq => ?_⟩
  · exact h.memory.trans_eq hs.memory.symm
  · intro hmem
    exact (h.unlimited (hs.memory.symm.trans hmem)).trans_eq hs.length.symm
  · intro hmem
    have hlimited := h.limited fun hc => hmem (hs.memory.trans hc)
    rw [← hs.memory, ← hs.length] at hlimited
    exact hlimited
  · obtain ⟨k, hk, rfl⟩ := hp
    by_cases hseq : seq' = seq
    · subst hseq
      have hmem := (removeCells_spec seq' beginIndex endIndex (removeOffset beginIndex endIndex)
        t.cache.cells 0 KvCache.newRange).mem k seq' (by rwa [← remove_cells _ _ _ _ shiftFails])
      have hbound := h.bound seq' _ ⟨k, hmem, rfl⟩
      obtain ⟨-, hnonneg, hdown⟩ := remove_own hb hle hk hbound.2.1
      exact ⟨hbound.1, hnonneg, Int.lt_of_le_of_lt hdown hbound.2.2.1,
        Int.lt_of_le_of_lt hdown hbound.2.2.2⟩
    · obtain ⟨hmem, hpos⟩ := remove_other hseq hk
      have hbound := h.bound seq' _ ⟨k, hmem, rfl⟩
      rw [← hpos] at hbound
      exact hbound
  · change seq' ∉ (if (t.cache.remove seq beginIndex endIndex shiftFails).2 = some .sharedShift then
        seq :: t.halfDone
      else if beginIndex = 0 ∧ endIndex = maxInt32 then t.halfDone.filter fun s => s ≠ seq
      else t.halfDone) at hseq
    by_cases he : seq' = seq
    · subst he
      by_cases hstop : (t.cache.remove seq' beginIndex endIndex shiftFails).2 = some .sharedShift
      · rw [if_pos hstop] at hseq
        exact absurd mem_cons_self hseq
      rw [if_neg hstop] at hseq
      have hlimit : ∀ p ∈ stored t.cache.cells seq', p < maxInt32 :=
        fun p hp => (h.bound seq' p hp).2.2.2
      intro i j hi hj hp
      obtain ⟨hmemi, hposi⟩ := remove_kept hlimit hstop hi
      obtain ⟨hmemj, hposj⟩ := remove_kept hlimit hstop hj
      by_cases hall : beginIndex = 0 ∧ endIndex = maxInt32
      · have hbi := (h.bound seq' _ ⟨i, hmemi, rfl⟩).2
        omega
      rw [if_neg hall] at hseq
      refine h.once seq' hseq i j hmemi hmemj ?_
      change (cellAt (t.cache.remove seq' beginIndex endIndex shiftFails).1.cells i).pos =
        (cellAt (t.cache.remove seq' beginIndex endIndex shiftFails).1.cells j).pos at hp
      omega
    · have hnot : seq' ∉ t.halfDone := by
        intro hin
        refine hseq ?_
        split
        · exact mem_cons_of_mem _ hin
        · split
          · exact mem_filter.mpr ⟨hin, decide_eq_true he⟩
          · exact hin
      intro i j hi hj hp
      obtain ⟨hmemi, hposi⟩ := remove_other he hi
      obtain ⟨hmemj, hposj⟩ := remove_other he hj
      exact h.once seq' hnot i j hmemi hmemj (hposi.symm.trans (hp.trans hposj))

theorem Fits.apply (h : Fits ids maxSequences capacity maxBatch t) {call : Call}
    (hcall : InBounds ids capacity maxBatch t.cache call) (hclean : CleanedUp t call) :
    Fits ids maxSequences capacity maxBatch (t.apply call) := by
  cases call with
  | startForward batch reserve maxMoves =>
      cases reserve with
      | true =>
          exact h.of_cells (startForward_wellformed h.wellformed batch true maxMoves)
            ⟨rfl, rfl, rfl, rfl, rfl⟩ rfl
      | false => exact h.startForward hcall (hclean rfl)
  | setCausal ctx except =>
      obtain ⟨hcells, hsetup⟩ := setCausal_cells t.cache ctx except
      exact h.of_cells (setCausal_wellformed h.wellformed ctx except) hsetup hcells
  | copyPrefix srcSeq dstSeq len => exact h.copyPrefix hcall
  | remove seq beginIndex endIndex shiftFails => exact h.remove hcall.1 hcall.2 shiftFails

theorem init_fits (h : (sizedSystem ids maxSequences capacity maxBatch).init t) :
    Fits ids maxSequences capacity maxBatch t := by
  obtain ⟨hids, -, window, memory, chunk, config, hw, h⟩ := h
  have hwf := init_wellformed ⟨window, memory, chunk, config, maxSequences, capacity, maxBatch, h⟩
  obtain ⟨c, halfDone⟩ := t
  unfold Causal.init at h
  extract_lets cachePadding maskBatchPadding window' memory₁ memory₂ memory₃ cacheSize at h
  have hwindow : 1 ≤ window' := by
    show 1 ≤ if window = 0 then maxInt32 else window
    split
    · decide
    · omega
  by_cases hmem : memory₃ < window'
  · rw [if_pos hmem] at h
    cases h
  rw [if_neg hmem] at h
  cases h
  have hpad : 0 < cachePadding := hwf.cachePadding
  have hlen : (List.replicate (roundUp cacheSize cachePadding) ({} : CacheCell)).length =
      roundUp cacheSize cachePadding := length_replicate
  refine ⟨hwf, hids, ?_, fun hun => ?_, fun hlim => ?_, fun seq p hp => ?_, fun seq _ i j hi => ?_⟩
  · show 0 ≤ memory₃
    omega
  · rw [hlen]
    have hsize : cacheSize = maxSequences * capacity := if_pos hun
    rw [← hsize]
    exact le_roundUp hpad
  · rw [hlen]
    have hsize : cacheSize = maxSequences * memory₃.toNat + maxBatch := if_neg hlim
    rw [← hsize]
    exact le_roundUp hpad
  · rw [stored_replicate] at hp
    exact absurd hp (Set.notMem_empty p)
  · rw [cellAt_replicate] at hi
    cases hi

end Kept

/-- **The cache is never full.** In every run in which no removal is left half done
when a batch is stored, in every mode, a forward pass finds room. -/
theorem never_full {t : Halfway}
    (h : ((sizedSystem ids maxSequences capacity maxBatch).guard CleanedUp).Reachable t)
    {batch : Batch} {reserve : Bool} {maxMoves : Int}
    (hcall : InBounds ids capacity maxBatch t.cache (.startForward batch reserve maxMoves))
    (hclean : CleanedUp t (.startForward batch reserve maxMoves)) :
    (t.cache.startForward batch reserve maxMoves).err = none := by
  have hfits : Fits ids maxSequences capacity maxBatch t := by
    refine Lib.System.Reachable.invariant
      (T := (sizedSystem ids maxSequences capacity maxBatch).guard CleanedUp)
      (fun t ht => init_fits ht) (fun t call t' hf hst => ?_) h
    obtain ⟨hclean', hcall', rfl⟩ := hst
    exact hf.apply hcall' hclean'
  exact hfits.startForward_ok hcall hclean

theorem inBounds_of_follows {batch : Batch} {maxMoves : Int}
    (hlen : 1 ≤ batch.length ∧ batch.length ≤ maxBatch)
    (hcells : ∀ cell ∈ c.cells, 0 ≤ cell.pos) (hfollows : Follows (nextOf c.cells) batch)
    (hin : ∀ e ∈ batch, e.seq ∈ ids ∧ e.pos < capacity ∧ e.pos < maxInt32) :
    InBounds ids capacity maxBatch c (.startForward batch false maxMoves) := by
  refine fun _ => ⟨hlen, ⟨nextOf c.cells, fun seq => (nextOf_spec c.cells seq ?_).1, hfollows⟩, hin⟩
  rintro p ⟨i, hi, rfl⟩
  rw [cellAt_eq_getElem (lt_length_of_mem hi)]
  exact hcells _ (getElem_mem _)

/-! ## §8  A removal left half done -/

def eightCells : Causal := (Causal.init 0 0 0 ⟨1, 1⟩ 2 4 3).get (by decide)

def fourEach : Halfway := ⟨eightCells, []⟩

theorem fourEach_init : (sizedSystem {0, 1} 2 4 3).init fourEach := by
  have hcache : Causal.init 0 0 0 ⟨1, 1⟩ 2 4 3 = some eightCells := (Option.some_get _).symm
  exact ⟨by decide, rfl, 0, 0, 0, ⟨1, 1⟩, by decide, hcache⟩

theorem reachable_call {t : Halfway}
    (h : (sizedSystem ids maxSequences capacity maxBatch).Reachable t) {call : Call}
    (hcall : InBounds ids capacity maxBatch t.cache call) :
    (sizedSystem ids maxSequences capacity maxBatch).Reachable (t.apply call) :=
  .step h ⟨hcall, rfl⟩

/-- A first batch of three tokens fits. -/
theorem never_full_fourEach :
    (fourEach.cache.startForward [⟨0, 0⟩, ⟨1, 0⟩, ⟨2, 0⟩] false 1).err = none :=
  never_full (.init fourEach_init)
    (inBounds_of_follows (by decide) (by decide +kernel) (by decide +kernel) (by decide))
    (fun _ => rfl)

def lastOfOne : Halfway :=
  (((fourEach.apply (.startForward [⟨0, 1⟩, ⟨1, 1⟩] false 1)).apply
    (.startForward [⟨0, 0⟩, ⟨1, 0⟩] false 1)).apply
    (.remove 1 1 maxInt32 false)).apply
    (.startForward [⟨2, 0⟩] false 1)

/-- Sequence 1 shares the cells of sequence 0, whose first token is then removed: the
shift stops at a shared cell, with the cell of position 3 already moved to 2. -/
def stoppedShift : Halfway :=
  (((lastOfOne.apply (.remove 1 0 maxInt32 false)).apply (.startForward [⟨3, 0⟩] false 1)).apply
    (.copyPrefix 0 1 3)).apply
    (.remove 0 0 1 false)

def sevenCells : Halfway :=
  ((stoppedShift.apply (.remove 1 0 maxInt32 false)).apply (.startForward [⟨3, 0⟩] false 1)).apply
    (.startForward [⟨0, 1⟩, ⟨1, 1⟩, ⟨2, 1⟩] false 1)

theorem reachable_cut {t : Halfway}
    (h : (sizedSystem ids maxSequences capacity maxBatch).Reachable t) {beginIndex : Int}
    (hbegin : 0 ≤ beginIndex ∧ beginIndex ≤ maxInt32) :
    (sizedSystem ids maxSequences capacity maxBatch).Reachable
      (t.apply (.remove 1 beginIndex maxInt32 false)) :=
  reachable_call h hbegin

theorem lastOfOne_reachable : (sizedSystem {0, 1} 2 4 3).Reachable lastOfOne := by
  have hone : (sizedSystem {0, 1} 2 4 3).Reachable
      (fourEach.apply (.startForward [⟨0, 1⟩, ⟨1, 1⟩] false 1)) :=
    reachable_call (.init fourEach_init)
      (inBounds_of_follows (by decide) (by decide +kernel) (by decide +kernel) (by decide))
  have htwo : (sizedSystem {0, 1} 2 4 3).Reachable
      ((fourEach.apply (.startForward [⟨0, 1⟩, ⟨1, 1⟩] false 1)).apply
        (.startForward [⟨0, 0⟩, ⟨1, 0⟩] false 1)) :=
    reachable_call hone
      (inBounds_of_follows (by decide) (by decide +kernel) (by decide +kernel) (by decide))
  exact reachable_call (reachable_cut htwo (by decide))
    (inBounds_of_follows (by decide) (by decide +kernel) (by decide +kernel) (by decide))

theorem stoppedShift_reachable : (sizedSystem {0, 1} 2 4 3).Reachable stoppedShift := by
  have hstored : (sizedSystem {0, 1} 2 4 3).Reachable
      ((lastOfOne.apply (.remove 1 0 maxInt32 false)).apply (.startForward [⟨3, 0⟩] false 1)) :=
    reachable_call (reachable_cut lastOfOne_reachable (by decide))
      (inBounds_of_follows (by decide) (by decide +kernel) (by decide +kernel) (by decide))
  have hids : (1 : Int) ∈ ({0, 1} : Finset Int) := by decide
  have hcopied : (sizedSystem {0, 1} 2 4 3).Reachable
      (((lastOfOne.apply (.remove 1 0 maxInt32 false)).apply
        (.startForward [⟨3, 0⟩] false 1)).apply (.copyPrefix 0 1 3)) :=
    reachable_call hstored hids
  have hrange : (0 : Int) ≤ 0 ∧ (0 : Int) ≤ 1 := by decide
  exact reachable_call hcopied hrange

theorem sevenCells_reachable : (sizedSystem {0, 1} 2 4 3).Reachable sevenCells := by
  have hstored : (sizedSystem {0, 1} 2 4 3).Reachable
      ((stoppedShift.apply (.remove 1 0 maxInt32 false)).apply (.startForward [⟨3, 0⟩] false 1)) :=
    reachable_call (reachable_cut stoppedShift_reachable (by decide))
      (inBounds_of_follows (by decide) (by decide +kernel) (by decide +kernel) (by decide))
  exact reachable_call hstored
    (inBounds_of_follows (by decide) (by decide +kernel) (by decide +kernel) (by decide))

/-- After a stopped shift sequence 0 has five cells for its four positions, and the
fourth token of sequence 1 finds the cache full. -/
theorem stopped_shift_fills : ¬ ∀ ids maxSequences capacity maxBatch t,
      (sizedSystem ids maxSequences capacity maxBatch).Reachable t →
      ∀ batch reserve maxMoves,
        InBounds ids capacity maxBatch t.cache (.startForward batch reserve maxMoves) →
        (t.cache.startForward batch reserve maxMoves).err ≠ some .kvCacheFull := by
  intro hall
  refine hall {0, 1} 2 4 3 sevenCells sevenCells_reachable [⟨3, 1⟩] false 1 ?_ ?_
  · exact inBounds_of_follows (by decide) (by decide +kernel) (by decide +kernel) (by decide)
  · decide +kernel

end Causal

end Ollama.KvCache
