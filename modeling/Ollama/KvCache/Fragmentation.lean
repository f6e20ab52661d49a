import Ollama.KvCache.Sizing
import Mathlib.Order.Interval.Finset.Nat

/-!
# Fragmentation

`StartForward` finds the cache full exactly when the free cells are fewer than the batch, however
they lie: where no block is large enough, the compaction makes one at the end. What was stored
stays, each cell at one location; its data follows unless the compaction merges copies.
-/

namespace Ollama.KvCache

namespace Causal

/-! ## §1  Free cells -/

def freeCells (cells : List CacheCell) : Nat :=
  ((Finset.range cells.length).filter fun i => used cells i = false).card

theorem freeCells_add (cells : List CacheCell) :
    (usedCells cells).card + freeCells cells = cells.length := by
  have hsplit := Finset.card_filter_add_card_filter_not (s := Finset.range cells.length)
    fun i => used cells i = true
  rw [Finset.card_range] at hsplit
  simpa only [usedCells, freeCells, Bool.not_eq_true] using hsplit

/-- Some `n` cells in a row are free. -/
def HasBlock (cells : List CacheCell) (n : Nat) : Prop :=
  ∃ loc, loc + n ≤ cells.length ∧ ∀ i, loc ≤ i → i < loc + n → used cells i = false

theorem HasBlock.le_freeCells {cells : List CacheCell} {n : Nat} (h : HasBlock cells n) :
    n ≤ freeCells cells := by
  obtain ⟨loc, hroom, hfree⟩ := h
  have hsub : Finset.Ico loc (loc + n) ⊆
      (Finset.range cells.length).filter fun i => used cells i = false := by
    intro i hi
    obtain ⟨hle, hlt⟩ := Finset.mem_Ico.mp hi
    exact Finset.mem_filter.mpr ⟨Finset.mem_range.mpr (Nat.lt_of_lt_of_le hlt hroom),
      hfree i hle hlt⟩
  have hcard := Finset.card_le_card hsub
  rwa [Nat.card_Ico, Nat.add_sub_cancel_left] at hcard

/-- The search finds a block if there is one. -/
theorem findStart_isSome_iff {cells : List CacheCell} {n : Nat} (hn : 0 < n) :
    (findStart n 0 0 0 cells).isSome = true ↔ HasBlock cells n := by
  constructor
  · intro h
    obtain ⟨loc, hloc⟩ := Option.isSome_iff_exists.mp h
    obtain ⟨hroom, hfree⟩ := findStart_spec cells 0 0 0 rfl rfl (fun j _ hj => by omega) hloc
    exact ⟨loc, hroom, fun i hle hlt => not_used_iff.mpr (hfree i hle hlt)⟩
  rintro ⟨loc, hroom, hfree⟩
  rw [Option.isSome_iff_ne_none]
  intro hnone
  obtain ⟨j, hle, hlt, hne⟩ := findStart_complete cells 0 0 0 rfl rfl hn hnone loc
    (Nat.zero_le loc) hroom
  exact hne (not_used_iff.mp (hfree j hle hlt))

/-! ## §2  Where the cells go -/

/-- Where an occupied cell is when a batch of `n` tokens has been given room: it stays if a block
is large enough, and else `defrag` moves it. -/
def place (cells : List CacheCell) (n i : Nat) : Nat :=
  if (findStart n 0 0 0 cells).isSome then i else newIndex cells i

structure PlacedAt (f : Nat → Nat) (cells cells' : List CacheCell) : Prop where
  cell : ∀ i, used cells i = true → cellAt cells' (f i) = cellAt cells i
  inj : ∀ i j, used cells i = true → used cells j = true → f i = f j → i = j
  onto : ∀ j, used cells' j = true → ∃ i, used cells i = true ∧ f i = j

theorem PlacedAt.card {f : Nat → Nat} {cells cells' : List CacheCell}
    (h : PlacedAt f cells cells') : (usedCells cells').card = (usedCells cells).card := by
  refine (Finset.card_bij (fun i _ => f i) (fun i hi => ?_) (fun i hi j hj => ?_) fun j hj => ?_).symm
  · have hi' := mem_usedCells.mp hi
    rw [mem_usedCells, used_iff, h.cell i hi']
    exact used_iff.mp hi'
  · exact h.inj i j (mem_usedCells.mp hi) (mem_usedCells.mp hj)
  · obtain ⟨i, hi, hij⟩ := h.onto j (mem_usedCells.mp hj)
    exact ⟨i, mem_usedCells.mpr hi, hij⟩

/-- What finding room does: nothing, or a compaction. -/
theorem locate_eq (c : Causal) (maxMoves : Int) : (c.locate maxMoves).cache =
        (if c.updateSlidingWindow.findStartLoc.isSome then c.updateSlidingWindow
          else (c.updateSlidingWindow.defrag maxMoves).1) ∧
      (c.locate maxMoves).moves =
        if c.updateSlidingWindow.findStartLoc.isSome then []
        else (c.updateSlidingWindow.defrag maxMoves).2 := by
  unfold locate
  dsimp only
  cases c.updateSlidingWindow.findStartLoc with
  | some loc => exact ⟨rfl, rfl⟩
  | none => exact ⟨rfl, rfl⟩

section Located

variable {c : Causal}

theorem findStartLoc_window (h : c.RangesCover) : c.updateSlidingWindow.findStartLoc =
      findStart c.curBatch.length 0 0 0 c.updateSlidingWindow.cells := by
  unfold findStartLoc
  rw [(updateSlidingWindow_spec h).curBatch]

theorem locate_placed (h : c.RangesCover) (maxMoves : Int) :
    PlacedAt (place c.updateSlidingWindow.cells c.curBatch.length) c.updateSlidingWindow.cells
      (c.locate maxMoves).cache.cells := by
  have hplace : place c.updateSlidingWindow.cells c.curBatch.length =
      fun i => if c.updateSlidingWindow.findStartLoc.isSome then i
        else newIndex c.updateSlidingWindow.cells i := by
    rw [findStartLoc_window h]
    rfl
  rw [(locate_eq c maxMoves).1, hplace]
  cases hsome : c.updateSlidingWindow.findStartLoc.isSome with
  | true => exact ⟨fun _ _ => rfl, fun _ _ _ _ heq => heq, fun j hj => ⟨j, hj, rfl⟩⟩
  | false =>
      have hk := compacted_cellsKept (defrag_spec h maxMoves).1
      exact ⟨hk.cell, hk.inj, hk.onto⟩

/-- **Room.** A batch finds no room exactly when the free cells are fewer. -/
theorem locate_none_iff (h : c.RangesCover) (hpos : 0 < c.curBatch.length) (maxMoves : Int) :
    (c.locate maxMoves).loc = none ↔ freeCells c.updateSlidingWindow.cells < c.curBatch.length := by
  have hlen : c.updateSlidingWindow.cells.length = c.cells.length :=
    (updateSlidingWindow_spec h).shrinks.length
  have hadd := freeCells_add c.updateSlidingWindow.cells
  constructor
  · intro hnone
    by_contra hge
    refine locate_room h hpos ?_ maxMoves hnone
    omega
  intro hlt
  by_contra hsome
  obtain ⟨loc, hloc⟩ := Option.ne_none_iff_exists'.mp hsome
  obtain ⟨hroom, hfree⟩ := locate_free h hloc
  have hblock : HasBlock (c.locate maxMoves).cache.cells c.curBatch.length :=
    ⟨loc, hroom, fun i hle hi => not_used_iff.mpr (hfree i hle hi)⟩
  have hle := hblock.le_freeCells
  have hadd' := freeCells_add (c.locate maxMoves).cache.cells
  rw [(locate_placed h maxMoves).card, (locate_rearranged h maxMoves).length] at hadd'
  omega

/-- The rows of the cells are at their places, unless copies were merged. -/
theorem locate_rows (h : c.RangesCover) (maxMoves : Int) :
    (∀ (ρ : Type) (rows : Nat → ρ) (i : Nat), used c.updateSlidingWindow.cells i = true →
      (c.locate maxMoves).moves.foldl copyRows rows
        (place c.updateSlidingWindow.cells c.curBatch.length i) = rows i) ↔
      (c.updateSlidingWindow.findStartLoc.isSome = true ∨
        ¬MergesRun c.updateSlidingWindow.cells) := by
  unfold place
  rw [(locate_eq c maxMoves).2, ← findStartLoc_window h]
  cases hsome : c.updateSlidingWindow.findStartLoc.isSome with
  | true => exact iff_of_true (fun _ _ _ _ => rfl) (Or.inl rfl)
  | false =>
      rw [if_neg Bool.false_ne_true, (defrag_spec h maxMoves).2, ← rowsKept_iff]
      constructor
      · exact fun hrows => Or.inr hrows
      · rintro (hc | hrows)
        · cases hc
        · exact hrows

end Located

/-! ## §3  `StartForward` -/

/-- What a forward pass does with a batch, with `cells` the cells after the eviction: it finds the
cache full exactly when the free cells are fewer than the batch; else the batch is stored in a row
from `curLoc` on, and every cell that was kept is elsewhere, once, with its own data. -/
structure StoresBatch (cells : List CacheCell) (batch : Batch) (f : Forwarded) : Prop where
  full : f.err = some .kvCacheFull ↔ freeCells cells < batch.length
  room : f.err = none → f.cache.curLoc + batch.length ≤ f.cache.cells.length
  token : f.err = none → ∀ k e, batch[k]? = some e →
    cellAt f.cache.cells (f.cache.curLoc + k) = ⟨e.pos, [e.seq]⟩
  kept : f.err = none → ∀ i, used cells i = true →
    cellAt f.cache.cells (place cells batch.length i) = cellAt cells i ∧
      (place cells batch.length i < f.cache.curLoc ∨
        f.cache.curLoc + batch.length ≤ place cells batch.length i)
  once : f.err = none → ∀ i j, used cells i = true → used cells j = true →
    place cells batch.length i = place cells batch.length j → i = j
  onto : f.err = none → ∀ j, used f.cache.cells j = true →
    (f.cache.curLoc ≤ j ∧ j < f.cache.curLoc + batch.length) ∨
      ∃ i, used cells i = true ∧ place cells batch.length i = j
  data : f.err = none → ∀ (ρ : Type) (rows : Nat → ρ) (i : Nat), used cells i = true →
    f.moves.foldl copyRows rows (place cells batch.length i) = rows i

/-- The batch fits, but not in one block, and the compaction merges copies. -/
def CompactsMerging (cells : List CacheCell) (n : Nat) : Prop :=
  ¬HasBlock cells n ∧ n ≤ freeCells cells ∧ MergesRun cells

/-- `StartForward` finds room and stores the batch there. -/
theorem startForward_located (c : Causal) (batch : Batch) (maxMoves : Int) :
    (c.startForward batch false maxMoves).moves = ((c.beginBatch batch).locate maxMoves).moves ∧
      match ((c.beginBatch batch).locate maxMoves).loc with
      | none => (c.startForward batch false maxMoves).err = some .kvCacheFull
      | some loc => (c.startForward batch false maxMoves).err = none ∧
          (c.startForward batch false maxMoves).cache.curLoc = (storeBatch loc batch
              { ((c.beginBatch batch).locate maxMoves).cache with curLoc := loc }).curLoc ∧
          (c.startForward batch false maxMoves).cache.cells = (storeBatch loc batch
              { ((c.beginBatch batch).locate maxMoves).cache with curLoc := loc }).cells := by
  unfold startForward prepareForward
  simp only [Bool.false_eq_true, if_false]
  cases ((c.beginBatch batch).locate maxMoves).loc with
  | none => exact ⟨rfl, rfl⟩
  | some loc => exact ⟨rfl, rfl, rfl, rfl⟩

theorem Stored.outside {loc : Nat} {batch : Batch} {c c' : Causal} (h : Stored loc batch c c')
    {j : Nat} (hj : j < loc ∨ loc + batch.length ≤ j) : cellAt c'.cells j = cellAt c.cells j := by
  rw [h.cell j]
  split
  · next hle =>
    rw [List.getElem?_eq_none]
    rcases hj with hlt | hge
    · exact absurd hle (Nat.not_le.mpr hlt)
    · exact Nat.le_sub_of_add_le' hge
  · rfl

theorem Stored.inside {loc : Nat} {batch : Batch} {c c' : Causal} (h : Stored loc batch c c')
    {k : Nat} {e : BatchEntry} (hk : batch[k]? = some e) :
    cellAt c'.cells (loc + k) = ⟨e.pos, [e.seq]⟩ := by
  rw [h.cell, if_pos (Nat.le_add_right loc k), Nat.add_sub_cancel_left, hk]

/-- **Fragmentation.** In every run, for every batch that is not empty: the batch is stored as it
should be exactly when the compaction, if there is one, merges no copies. -/
theorem storesBatch_iff {c : Causal} (h : system.Reachable c) {batch : Batch} (hne : batch ≠ [])
    (maxMoves : Int) :
    StoresBatch (c.beginBatch batch).updateSlidingWindow.cells batch
        (c.startForward batch false maxMoves) ↔
      ¬CompactsMerging (c.beginBatch batch).updateSlidingWindow.cells batch.length := by
  have hcover := (reachable_wellformed h).cover
  have hb : (c.beginBatch batch).RangesCover := ⟨hcover.covers, hcover.below⟩
  have hpos : 0 < (c.beginBatch batch).curBatch.length := List.length_pos_of_ne_nil hne
  have hnone := locate_none_iff hb hpos maxMoves
  have hplaced := locate_placed hb maxMoves
  have hrows := locate_rows hb maxMoves
  rw [findStartLoc_window hb, findStart_isSome_iff hpos] at hrows
  have hspec := locate_spec hb maxMoves
  obtain ⟨hmoves, hres⟩ := startForward_located c batch maxMoves
  have hbatch : (c.beginBatch batch).curBatch = batch := rfl
  rw [hbatch] at hnone hplaced hrows
  generalize hcells : (c.beginBatch batch).updateSlidingWindow.cells = cells at *
  cases hloc : ((c.beginBatch batch).locate maxMoves).loc with
  | none =>
      rw [hloc] at hres
      have hfull : freeCells cells < batch.length := hnone.mp hloc
      have hno : ∀ {P : Prop}, (c.startForward batch false maxMoves).err = none → P := by
        intro P hc
        rw [hres] at hc
        cases hc
      refine iff_of_true ⟨iff_of_true hres hfull, hno, hno, hno, hno, hno, hno⟩ ?_
      rintro ⟨-, hle, -⟩
      exact Nat.not_le.mpr hfull hle
  | some loc =>
      rw [hloc] at hres
      obtain ⟨herr, hcur, hst⟩ := hres
      obtain ⟨hroom, hfree⟩ := locate_free hb hloc
      have hfits : ¬freeCells cells < batch.length := by
        intro hlt
        rw [hnone.mpr hlt] at hloc
        cases hloc
      have hstored := storeBatch_spec batch loc
        { ((c.beginBatch batch).locate maxMoves).cache with curLoc := loc }
        ⟨hspec.cover.covers, hspec.cover.below⟩ hroom
      replace hcur := hcur.trans (congrArg Causal.curLoc hstored.frame)
      -- a cell that was kept is not in the block, which was free
      have hout : ∀ i, used cells i = true →
          place cells batch.length i < loc ∨ loc + batch.length ≤ place cells batch.length i := by
        intro i hi
        by_contra hin
        rw [not_or, Nat.not_lt, Nat.not_le] at hin
        have hempty := hfree _ hin.1 hin.2
        rw [hplaced.cell i hi] at hempty
        exact used_iff.mp hi hempty
      constructor
      · rintro hstores ⟨hblock, -, hmerge⟩
        have hkept := hstores.data herr
        rw [hmoves] at hkept
        rcases hrows.mp hkept with hc | hc
        · exact hblock hc
        · exact hc hmerge
      · intro hcompacts
        refine ⟨?_, fun _ => ?_, fun _ k e hk => ?_, fun _ i hi => ?_, fun _ => hplaced.inj,
          fun _ j hj => ?_, fun _ => ?_⟩
        · refine iff_of_false (fun hc => ?_) hfits
          rw [herr] at hc
          cases hc
        · rw [hcur, hst, hstored.length]
          exact hroom
        · rw [hcur, hst]
          exact hstored.inside hk
        · rw [hcur, hst]
          exact ⟨(hstored.outside (hout i hi)).trans (hplaced.cell i hi), hout i hi⟩
        · rw [hcur]
          rw [hst] at hj
          by_cases hin : loc ≤ j ∧ j < loc + batch.length
          · exact Or.inl hin
          · rw [not_and_or, Nat.not_le, Nat.not_lt] at hin
            rw [used_iff, hstored.outside hin] at hj
            exact Or.inr (hplaced.onto j (used_iff.mpr hj))
        · rw [hmoves]
          refine hrows.mpr ?_
          by_contra hc
          rw [not_or, not_not] at hc
          exact hcompacts ⟨hc.1, Nat.not_lt.mp hfits, hc.2⟩

/-- In the cache with two holes a batch of two tokens fits into a block. -/
theorem storesBatch_iff_twoHoles :
    StoresBatch (twoHoles.beginBatch [⟨0, 2⟩, ⟨1, 2⟩]).updateSlidingWindow.cells [⟨0, 2⟩, ⟨1, 2⟩]
      (twoHoles.startForward [⟨0, 2⟩, ⟨1, 2⟩] false 1) :=
  (storesBatch_iff twoHoles_reachable (by decide) 1).mpr fun h =>
    h.1 ⟨0, by decide +kernel, fun i _ hi => by
      have : i = 0 ∨ i = 1 := by
        have : i < 2 := hi
        omega
      rcases this with rfl | rfl <;> decide +kernel⟩

/-- A batch of three tokens fits only after the compaction, which swaps two rows. -/
theorem not_storesBatch_three :
    ¬∀ c, system.Reachable c → ∀ batch : Batch, batch ≠ [] → ∀ maxMoves : Int, 1 ≤ maxMoves →
      StoresBatch (c.beginBatch batch).updateSlidingWindow.cells batch
        (c.startForward batch false maxMoves) := by
  intro h
  have hrow := (h twoHoles twoHoles_reachable [⟨0, 2⟩, ⟨1, 2⟩, ⟨2, 2⟩] (by decide) 1
    (Int.le_refl _)).data (by decide +kernel) Nat (fun i => i) 4 (by decide +kernel)
  revert hrow
  decide +kernel

end Causal

end Ollama.KvCache
