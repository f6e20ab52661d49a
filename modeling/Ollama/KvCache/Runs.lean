import Ollama.KvCache.Defrag
import Ollama.Lib.Transition

/-!
# Runs of the causal cache

Every operation keeps the range invariant `RangesCover` and the configuration
of the cache, so every state a run reaches has both (`Reachable.wellformed`).
-/

namespace Ollama.KvCache

open List CellRange

namespace Causal

/-! ## §1  What an operation keeps -/

structure SameSetup (c c' : Causal) : Prop where
  window : c'.swaWindowSize = c.swaWindowSize
  memory : c'.swaMemorySize = c.swaMemorySize
  chunk : c'.chunkSize = c.chunkSize
  config : c'.config = c.config
  length : c'.cells.length = c.cells.length

theorem SameSetup.refl (c : Causal) : SameSetup c c := ⟨rfl, rfl, rfl, rfl, rfl⟩

theorem SameSetup.trans {a b d : Causal} (h₁ : SameSetup a b) (h₂ : SameSetup b d) :
    SameSetup a d where
  window := h₂.window.trans h₁.window
  memory := h₂.memory.trans h₁.memory
  chunk := h₂.chunk.trans h₁.chunk
  config := h₂.config.trans h₁.config
  length := h₂.length.trans h₁.length

/-- The invariant of all runs: the ranges cover, the paddings are set, and the
cache is a multiple of the padding. -/
structure Wellformed (c : Causal) : Prop where
  cover : c.RangesCover
  cachePadding : 0 < c.config.cachePadding
  maskBatchPadding : 0 < c.config.maskBatchPadding
  aligned : c.config.cachePadding ∣ c.cells.length

theorem Wellformed.of_cover {c c' : Causal} (h : Wellformed c)
    (hs : SameSetup c c') (hc : c'.RangesCover) : Wellformed c' where
  cover := hc
  cachePadding := by rw [hs.config]; exact h.cachePadding
  maskBatchPadding := by rw [hs.config]; exact h.maskBatchPadding
  aligned := by rw [hs.config, hs.length]; exact h.aligned

theorem Windowed.sameSetup {c c' : Causal} (h : Windowed c c') : SameSetup c c' where
  window := (congrArg Causal.swaWindowSize h.frame).trans rfl
  memory := (congrArg Causal.swaMemorySize h.frame).trans rfl
  chunk := (congrArg Causal.chunkSize h.frame).trans rfl
  config := (congrArg Causal.config h.frame).trans rfl
  length := h.shrinks.length

theorem Windowed.curBatch {c c' : Causal} (h : Windowed c c') :
    c'.curBatch = c.curBatch := (congrArg Causal.curBatch h.frame).trans rfl

theorem Windowed.except {c c' : Causal} (h : Windowed c c') :
    c'.except = c.except := (congrArg Causal.except h.frame).trans rfl

variable {i : Nat}

theorem rangeOf_has {cells : List CacheCell} {seq : Int}
    (h : seq ∈ (cellAt cells i).sequences) : (rangeOf cells seq).Has i := by
  have := scanRange_has (fun cell => decide (seq ∈ cell.sequences)) (by simp) cells 0
    KvCache.newRange i (by simpa using h)
  rw [Nat.zero_add] at this
  exact this

theorem rangeOf_below (cells : List CacheCell) (seq : Int) :
    (rangeOf cells seq).Below cells.length :=
  scanRange_below _ cells 0 _ _ (newRange_below _) (by omega)

/-! ## §2  `findStartLoc` and storing a batch -/

/-- The block found is inside the cache and free. -/
theorem findStart_spec {all : List CacheCell} {n : Nat} :
    ∀ (cells : List CacheCell) (i start count : Nat), all.drop i = cells →
      start + count = i → (∀ j, start ≤ j → j < i → (cellAt all j).sequences = []) →
      ∀ {loc : Nat}, findStart n i start count cells = some loc →
      loc + n ≤ all.length ∧
      ∀ j, loc ≤ j → j < loc + n → (cellAt all j).sequences = []
  | [], _, _, _, _, _, _, _, h => by cases h
  | cell :: rest, i, start, count, hdrop, hcount, hfree, loc, h => by
      have hi : i < all.length := by
        by_contra hlt
        rw [drop_eq_nil_of_le (Nat.le_of_not_lt hlt)] at hdrop
        cases hdrop
      have hcell : cellAt all i = cell := by
        rw [drop_eq_getElem_cons hi] at hdrop
        rw [cellAt_eq_getElem hi]
        exact (List.cons.inj hdrop).1
      have hrest : all.drop (i + 1) = rest := by
        rw [drop_eq_getElem_cons hi] at hdrop
        exact (List.cons.inj hdrop).2
      unfold findStart at h
      by_cases hempty : cell.sequences = []
      · rw [if_pos hempty] at h
        have hfree' : ∀ j, start ≤ j → j < i + 1 → (cellAt all j).sequences = [] := by
          intro j h₁ h₂
          by_cases hj : j = i
          · rw [hj, hcell]
            exact hempty
          · exact hfree j h₁ (by omega)
        by_cases hn : n ≤ count + 1
        · rw [if_pos hn] at h
          cases h
          exact ⟨by omega, fun j h₁ h₂ => hfree' j h₁ (by omega)⟩
        · rw [if_neg hn] at h
          exact findStart_spec rest (i + 1) start (count + 1) hrest (by omega) hfree' h
      · rw [if_neg hempty] at h
        exact findStart_spec rest (i + 1) (i + 1) 0 hrest rfl (fun j h₁ h₂ => by omega) h

variable {c : Causal}

theorem findStartLoc_spec {loc : Nat} (h : c.findStartLoc = some loc) :
    loc + c.curBatch.length ≤ c.cells.length ∧
    ∀ j, loc ≤ j → j < loc + c.curBatch.length → (cellAt c.cells j).sequences = [] :=
  findStart_spec c.cells 0 0 0 rfl rfl (fun j _ h => by omega) h

/-- What storing `batch` from `loc` on does. -/
structure Stored (loc : Nat) (batch : Batch) (c c' : Causal) : Prop where
  frame : c' = { c with
    cells := c'.cells, curCellRange := c'.curCellRange, cellRanges := c'.cellRanges }
  length : c'.cells.length = c.cells.length
  cell : ∀ j, cellAt c'.cells j =
    if loc ≤ j then
      match batch[j - loc]? with
      | some e => ⟨e.pos, [e.seq]⟩
      | none => cellAt c.cells j
    else cellAt c.cells j
  cover : c'.RangesCover
  curLe : Le c.curCellRange c'.curCellRange
  curHas : ∀ j, loc ≤ j → j < loc + batch.length → c'.curCellRange.Has j
  curBelow : c.curCellRange.Below c.cells.length → c'.curCellRange.Below c.cells.length

theorem storeEntry_cover (h : c.RangesCover) (e : BatchEntry)
    (hi : i < c.cells.length) : (c.storeEntry i e).RangesCover := by
  refine ⟨?_, ?_⟩
  · intro j s hs
    have hcell : cellAt (c.storeEntry i e).cells j =
        if i = j ∧ i < c.cells.length then ⟨e.pos, [e.seq]⟩ else cellAt c.cells j :=
      cellAt_set
    rw [hcell] at hs
    by_cases hij : i = j
    · rw [if_pos ⟨hij, hi⟩] at hs
      have hse : s = e.seq := mem_singleton.mp hs
      rw [hse, ← hij]
      exact ⟨_, AList.lookup_insert _, has_add _ _⟩
    rw [if_neg (fun hc => hij hc.1)] at hs
    obtain ⟨r, hr, hhas⟩ := h.covers j s hs
    by_cases hse : s = e.seq
    · rw [hse] at hr ⊢
      refine ⟨_, AList.lookup_insert _, ?_⟩
      rw [hr]
      exact hhas.mono (le_add _ _)
    · exact ⟨r, (AList.lookup_insert_ne hse).trans hr, hhas⟩
  · intro s r hs
    show r.Below (c.cells.set i _).length
    rw [length_set]
    have hs' : (c.cellRanges.insert e.seq
        (((c.cellRanges.lookup e.seq).getD KvCache.newRange).add i)).lookup s = some r := hs
    by_cases hse : s = e.seq
    · rw [hse, AList.lookup_insert] at hs'
      cases hs'
      refine Below.add ?_ hi
      cases hr : c.cellRanges.lookup e.seq with
      | none => exact newRange_below _
      | some r => exact h.below _ _ hr
    · rw [AList.lookup_insert_ne hse] at hs'
      exact h.below s r hs'

/-- Induction over the batch; the cells stored so far are below the next
location. -/
theorem storeBatch_spec : ∀ (batch : Batch) (loc : Nat) (c : Causal),
    c.RangesCover → loc + batch.length ≤ c.cells.length →
    Stored loc batch c (storeBatch loc batch c)
  | [], loc, c, h, _ => by
      refine ⟨rfl, rfl, fun j => ?_, h, Le.refl _, ?_, id⟩
      · simp [storeBatch]
      · intro j h₁ h₂
        rw [length_nil] at h₂
        omega
  | e :: rest, loc, c, h, hlen => by
      rw [length_cons] at hlen
      have hloc : loc < c.cells.length := by omega
      have hlen' : (c.storeEntry loc e).cells.length = c.cells.length :=
        length_set
      have ih := storeBatch_spec rest (loc + 1) (c.storeEntry loc e)
        (storeEntry_cover h e hloc) (by rw [hlen']; omega)
      have hcell : ∀ j, cellAt (c.storeEntry loc e).cells j =
          if loc = j ∧ loc < c.cells.length then ⟨e.pos, [e.seq]⟩
          else cellAt c.cells j := fun j => cellAt_set
      refine ⟨ih.frame, ih.length.trans hlen', ?_, ih.cover, ?_, ?_, ?_⟩
      · intro j
        rw [storeBatch, ih.cell j, hcell j]
        by_cases hj : loc = j
        · rw [← hj, if_neg (by omega), if_pos ⟨rfl, hloc⟩, if_pos (Nat.le_refl _), Nat.sub_self]
          rfl
        have hold : (if loc = j ∧ loc < c.cells.length then ⟨e.pos, [e.seq]⟩
            else cellAt c.cells j) = cellAt c.cells j := if_neg (fun hc => hj hc.1)
        rw [hold]
        by_cases hle : loc ≤ j
        · rw [if_pos (by omega), if_pos hle,
            show j - loc = (j - (loc + 1)) + 1 by omega, getElem?_cons_succ]
        · rw [if_neg (by omega), if_neg hle]
      · exact Le.trans (le_add _ _) ih.curLe
      · intro j h₁ h₂
        rw [length_cons] at h₂
        by_cases hj : loc = j
        · rw [← hj]
          exact (has_add c.curCellRange loc).mono ih.curLe
        · exact ih.curHas j (by omega) (by omega)
      · intro hb
        have := ih.curBelow (by rw [hlen']; exact Below.add hb hloc)
        rwa [hlen'] at this

theorem Stored.sameSetup {loc : Nat} {batch : Batch} {c c' : Causal}
    (h : Stored loc batch c c') : SameSetup c c' where
  window := (congrArg Causal.swaWindowSize h.frame).trans rfl
  memory := (congrArg Causal.swaMemorySize h.frame).trans rfl
  chunk := (congrArg Causal.chunkSize h.frame).trans rfl
  config := (congrArg Causal.config h.frame).trans rfl
  length := h.length

/-! ## §3  `defrag` -/

theorem lookup_foldl_insert (f : Int → CellRange) (s : Int) :
    ∀ (keys : List Int) (m : AList (fun _ : Int => CellRange)),
      (keys.foldl (fun m seq => m.insert seq (f seq)) m).lookup s =
        if s ∈ keys then some (f s) else m.lookup s
  | [], m => by simp
  | key :: keys, m => by
      rw [foldl_cons, lookup_foldl_insert f s keys]
      by_cases hs : s ∈ keys
      · rw [if_pos hs, if_pos (mem_cons_of_mem _ hs)]
      rw [if_neg hs]
      by_cases hkey : s = key
      · rw [hkey, AList.lookup_insert, if_pos mem_cons_self]
      rw [AList.lookup_insert_ne hkey, if_neg]
      intro hc
      rcases mem_cons.mp hc with hc | hc
      · exact hkey hc
      · exact hs hc

/-- The cache of `defrag` before its last call of `updateSlidingWindow`. -/
def compact (c : Causal) (maxMoves : Int) : Causal :=
  { c with
    cells := (defragCells c.cells maxMoves).cells
    cellRanges := c.cellRanges.keys.foldl
      (fun m seq => m.insert seq (rangeOf (defragCells c.cells maxMoves).cells seq))
      c.cellRanges }

theorem defrag_eq (c : Causal) (maxMoves : Int) :
    c.defrag maxMoves = ((c.compact maxMoves).updateSlidingWindow,
      (defragCells c.cells maxMoves).computed) := rfl

theorem compact_sameSetup (c : Causal) (maxMoves : Int) : SameSetup c (c.compact maxMoves) :=
  ⟨rfl, rfl, rfl, rfl, (defragCells_spec c.cells maxMoves).1.length⟩

theorem compact_cover (h : c.RangesCover) (maxMoves : Int) : (c.compact maxMoves).RangesCover := by
  have hspec := (defragCells_spec c.cells maxMoves).1
  have hkey : ∀ i s, s ∈ (cellAt (c.compact maxMoves).cells i).sequences →
      s ∈ c.cellRanges.keys := by
    intro i s hs
    have hs' : s ∈ (cellAt (defragCells c.cells maxMoves).cells i).sequences := hs
    rcases hspec.origin i with ⟨j, hj⟩ | hempty
    · rw [hj] at hs'
      obtain ⟨r, hr, _⟩ := h.covers j s hs'
      exact AList.mem_keys.mp (AList.lookup_isSome.mp (by rw [hr]; rfl))
    · rw [hempty] at hs'
      cases hs'
  refine ⟨?_, ?_⟩
  · intro i s hs
    refine ⟨_, ?_, rangeOf_has hs⟩
    exact (lookup_foldl_insert _ s c.cellRanges.keys c.cellRanges).trans (if_pos (hkey i s hs))
  intro s r hs
  have hs' := (lookup_foldl_insert _ s c.cellRanges.keys c.cellRanges).symm.trans hs
  by_cases hk : s ∈ c.cellRanges.keys
  · rw [if_pos hk] at hs'
    cases hs'
    exact rangeOf_below _ _
  · rw [if_neg hk] at hs'
    exact absurd (AList.mem_keys.mp (AList.lookup_isSome.mp (by rw [hs']; rfl))) hk

/-! ## §4  `StartForward` -/

structure LocatedSpec (c : Causal) (l : Located) : Prop where
  setup : SameSetup c l.cache
  curBatch : l.cache.curBatch = c.curBatch
  except : l.cache.except = c.except
  cover : l.cache.RangesCover
  curHas : ∀ e ∈ c.curBatch, ∀ j, e.seq ∈ (cellAt l.cache.cells j).sequences →
    e.pos - c.swaWindowSize ≤ (cellAt l.cache.cells j).pos → l.cache.curCellRange.Has j
  curBelow : l.cache.curCellRange.Below c.cells.length
  room : ∀ loc, l.loc = some loc → loc + c.curBatch.length ≤ c.cells.length

theorem locate_spec (h : c.RangesCover) (maxMoves : Int) : LocatedSpec c (c.locate maxMoves) := by
  have hw := updateSlidingWindow_spec h
  unfold locate
  simp only
  generalize c.updateSlidingWindow = w at hw
  cases hloc : w.findStartLoc with
  | some loc =>
      refine ⟨hw.sameSetup, hw.curBatch, hw.except, hw.cover, hw.curHas, hw.curBelow, ?_⟩
      intro loc' hl
      cases hl
      have := (findStartLoc_spec hloc).1
      rwa [hw.curBatch, hw.shrinks.length] at this
  | none =>
      have hcc := compact_cover hw.cover maxMoves
      have hcs := compact_sameSetup w maxMoves
      have hw' := updateSlidingWindow_spec hcc
      rw [defrag_eq]
      generalize (w.compact maxMoves).updateSlidingWindow = d at hw'
      have hsetup : SameSetup c d := (hw.sameSetup.trans hcs).trans hw'.sameSetup
      have hbatch : d.curBatch = c.curBatch := hw'.curBatch.trans hw.curBatch
      refine ⟨hsetup, hbatch, hw'.except.trans hw.except, hw'.cover, ?_, ?_, ?_⟩
      · intro e he j hj hpos
        refine hw'.curHas e ?_ j hj ?_
        · show e ∈ w.curBatch
          rw [hw.curBatch]
          exact he
        · show e.pos - w.swaWindowSize ≤ _
          rw [hw.sameSetup.window]
          exact hpos
      · rw [← (hw.sameSetup.trans hcs).length]
        exact hw'.curBelow
      · intro loc hl
        have := (findStartLoc_spec hl).1
        rwa [hbatch, hsetup.length] at this

/-- What `StartForward` has prepared when it builds the mask. -/
structure Prepared (batch : Batch) (c c' : Causal) : Prop where
  setup : SameSetup c c'
  curBatch : c'.curBatch = batch
  except : c'.except = []
  cover : c'.RangesCover
  curBelow : c'.curCellRange.Below c.cells.length

theorem prepareForward_spec (h : c.RangesCover) (batch : Batch) (reserve : Bool) (maxMoves : Int) :
    SameSetup c (c.prepareForward batch reserve maxMoves).cache ∧
    (c.prepareForward batch reserve maxMoves).cache.RangesCover ∧
    ((c.prepareForward batch reserve maxMoves).err = none →
      Prepared batch c (c.prepareForward batch reserve maxMoves).cache ∧
      (batch ≠ [] → ∃ j, (c.prepareForward batch reserve maxMoves).cache.curCellRange.Has j) ∧
      ∀ e ∈ batch, ∀ j, e.seq ∈ (cellAt
          (c.prepareForward batch reserve maxMoves).cache.cells j).sequences →
        e.pos - c.swaWindowSize ≤ (cellAt
          (c.prepareForward batch reserve maxMoves).cache.cells j).pos →
        (c.prepareForward batch reserve maxMoves).cache.curCellRange.Has j) := by
  unfold prepareForward
  by_cases hres : reserve = true
  · simp only [if_pos hres]
    refine ⟨⟨rfl, rfl, rfl, rfl, rfl⟩, ⟨h.covers, h.below⟩, fun _ => ⟨⟨⟨rfl, rfl, rfl,
      rfl, rfl⟩, rfl, rfl, ⟨h.covers, h.below⟩, Nat.le_refl _⟩,
      fun _ => ⟨0, Nat.le_refl _, Nat.zero_le _⟩, ?_⟩⟩
    intro e _ j hj _
    exact ⟨Nat.zero_le _, Nat.le_sub_one_of_lt (lt_length_of_mem hj)⟩
  · simp only [if_neg hres]
    have hl := locate_spec (c := c.beginBatch batch) ⟨h.covers, h.below⟩ maxMoves
    generalize (c.beginBatch batch).locate maxMoves = l at hl
    have hsetup : SameSetup c l.cache := ⟨hl.setup.window, hl.setup.memory,
      hl.setup.chunk, hl.setup.config, hl.setup.length⟩
    cases hloc : l.loc with
    | none =>
        exact ⟨⟨hsetup.window, hsetup.memory, hsetup.chunk, hsetup.config,
          hsetup.length⟩, ⟨hl.cover.covers, hl.cover.below⟩, fun hc => by cases hc⟩
    | some loc =>
        have hroom : loc + batch.length ≤ l.cache.cells.length := by
          rw [hl.setup.length]
          exact hl.room loc hloc
        have hst := storeBatch_spec batch loc { l.cache with curLoc := loc }
          ⟨hl.cover.covers, hl.cover.below⟩ hroom
        simp only
        generalize storeBatch loc batch { l.cache with curLoc := loc } = s at hst
        have hss : SameSetup c s :=
          hsetup.trans (b := l.cache) ⟨hst.sameSetup.window, hst.sameSetup.memory,
            hst.sameSetup.chunk, hst.sameSetup.config, hst.length⟩
        refine ⟨hss, hst.cover, fun _ => ⟨⟨hss, ?_, ?_, hst.cover, ?_⟩, ?_, ?_⟩⟩
        · exact (congrArg Causal.curBatch hst.frame).trans hl.curBatch
        · exact (congrArg Causal.except hst.frame).trans hl.except
        · rw [← hsetup.length]
          refine hst.curBelow ?_
          rw [hsetup.length]
          exact hl.curBelow
        · intro hne
          have hpos : 0 < batch.length := length_pos_iff.mpr hne
          exact ⟨loc, hst.curHas loc (Nat.le_refl _) (by omega)⟩
        -- a cell of the batch is in the range, any other was there before
        intro e he j hj hpos
        by_cases hnew : loc ≤ j ∧ j < loc + batch.length
        · exact hst.curHas j hnew.1 hnew.2
        have hold : cellAt s.cells j = cellAt l.cache.cells j := by
          rw [hst.cell j]
          by_cases hle : loc ≤ j
          · rw [if_pos hle, getElem?_eq_none (by omega)]
          · rw [if_neg hle]
        rw [hold] at hj hpos
        exact (hl.curHas e he j hj hpos).mono hst.curLe

theorem buildMask_sameSetup (c : Causal) : SameSetup c c.buildMask :=
  ⟨rfl, rfl, rfl, rfl, rfl⟩

theorem startForward_wellformed (h : Wellformed c) (batch : Batch)
    (reserve : Bool) (maxMoves : Int) :
    Wellformed (c.startForward batch reserve maxMoves).cache := by
  obtain ⟨h₁, h₂, _⟩ := prepareForward_spec h.cover batch reserve maxMoves
  unfold startForward
  simp only
  split
  · exact h.of_cover h₁ h₂
  · exact h.of_cover (h₁.trans (buildMask_sameSetup _)) ⟨h₂.covers, h₂.below⟩

theorem setCausal_wellformed (h : Wellformed c) (ctx : Bool)
    (except : List Nat) : Wellformed (c.setCausal ctx except) := by
  unfold setCausal
  by_cases heq : c.except = except
  · rw [if_pos heq]
    exact h
  rw [if_neg heq]
  by_cases hctx : ctx = true
  · simp only [if_pos hctx]
    exact h.of_cover ⟨rfl, rfl, rfl, rfl, rfl⟩ ⟨h.cover.covers, h.cover.below⟩
  · simp only [if_neg hctx]
    exact h.of_cover ⟨rfl, rfl, rfl, rfl, rfl⟩ ⟨h.cover.covers, h.cover.below⟩

/-! ## §5  `CopyPrefix` -/

theorem copyCell_empty (srcSeq dstSeq len : Int) : copyCell srcSeq dstSeq len {} = {} := by
  simp [copyCell]

theorem copyCell_pos (srcSeq dstSeq len : Int) (cell : CacheCell) :
    (copyCell srcSeq dstSeq len cell).pos = cell.pos := by
  unfold copyCell
  by_cases hd : dstSeq ∈ cell.sequences
  · simp only [if_pos hd]
    split <;> rfl
  · simp only [if_neg hd]
    split <;> rfl

/-- The destination gets the source's cells below `len`, the other sequences
keep theirs. -/
theorem mem_copyCell {srcSeq dstSeq len s : Int} {cell : CacheCell} :
    s ∈ (copyCell srcSeq dstSeq len cell).sequences ↔
      if s = dstSeq then srcSeq ≠ dstSeq ∧ srcSeq ∈ cell.sequences ∧ cell.pos < len
      else s ∈ cell.sequences := by
  have hdropped : ∀ t, t ∈ (if dstSeq ∈ cell.sequences then cell.drop dstSeq
      else cell).sequences ↔ t ∈ cell.sequences ∧ t ≠ dstSeq := by
    intro t
    by_cases hd : dstSeq ∈ cell.sequences
    · rw [if_pos hd, CacheCell.mem_drop]
    · rw [if_neg hd]
      exact ⟨fun ht => ⟨ht, fun hc => hd (hc ▸ ht)⟩, fun ht => ht.1⟩
  have hpos : (if dstSeq ∈ cell.sequences then cell.drop dstSeq else cell).pos = cell.pos := by
    split <;> rfl
  unfold copyCell
  simp only [hdropped, hpos]
  by_cases hcopy : (srcSeq ∈ cell.sequences ∧ srcSeq ≠ dstSeq) ∧ cell.pos < len
  · rw [if_pos hcopy]
    rw [mem_append, mem_singleton, hdropped]
    by_cases hs : s = dstSeq
    · rw [if_pos hs]
      exact iff_of_true (Or.inr hs) ⟨hcopy.1.2, hcopy.1.1, hcopy.2⟩
    rw [if_neg hs]
    constructor
    · rintro (h | h)
      · exact h.1
      · exact absurd h hs
    · exact fun h => Or.inl ⟨h, hs⟩
  · rw [if_neg hcopy, hdropped]
    by_cases hs : s = dstSeq
    · rw [if_pos hs]
      exact iff_of_false (fun h => h.2 hs) (fun h => hcopy ⟨⟨h.2.1, h.1⟩, h.2.2⟩)
    · rw [if_neg hs]
      exact ⟨fun h => h.1, fun h => ⟨h, hs⟩⟩

theorem copyPrefix_cover (h : c.RangesCover) (srcSeq dstSeq len : Int) :
    (c.copyPrefix srcSeq dstSeq len).RangesCover := by
  have hcell : ∀ i, cellAt (c.copyPrefix srcSeq dstSeq len).cells i =
      copyCell srcSeq dstSeq len (cellAt c.cells i) :=
    cellAt_map (copyCell_empty srcSeq dstSeq len)
  refine ⟨?_, ?_⟩
  · intro i s hs
    by_cases hsd : s = dstSeq
    · rw [hsd] at hs ⊢
      exact ⟨_, AList.lookup_insert _, rangeOf_has hs⟩
    · rw [hcell i, mem_copyCell, if_neg hsd] at hs
      obtain ⟨r, hr, hhas⟩ := h.covers i s hs
      exact ⟨r, (AList.lookup_insert_ne hsd).trans hr, hhas⟩
  · intro s r hs
    have hlen : (c.copyPrefix srcSeq dstSeq len).cells.length = c.cells.length :=
      length_map _
    have hs' : (c.cellRanges.insert dstSeq
        (rangeOf (c.copyPrefix srcSeq dstSeq len).cells dstSeq)).lookup s = some r := hs
    by_cases hsd : s = dstSeq
    · rw [hsd, AList.lookup_insert] at hs'
      cases hs'
      exact rangeOf_below _ _
    · rw [AList.lookup_insert_ne hsd] at hs'
      rw [hlen]
      exact h.below s r hs'

/-! ## §6  `Remove` -/

/-- What the loop of `Remove` does to a cell it does not stop at. -/
def removedCell (seq beginIndex endIndex offset : Int) (cell : CacheCell) : CacheCell :=
  if seq ∈ cell.sequences then
    if beginIndex ≤ cell.pos ∧ cell.pos < endIndex then cell.drop seq
    else if endIndex ≤ cell.pos then { cell with pos := cell.pos + offset }
    else cell
  else cell

/-- The loop of `Remove` from location `i` on. A loop that runs to the end
changes every cell; one that stops has only taken `seq` out of cells and
shifted some. The range covers what is left of the sequence. -/
structure RemovedCells (seq beginIndex endIndex offset : Int) (i : Nat) (r : CellRange)
    (cells : List CacheCell) (res : List CacheCell × CellRange × Bool) : Prop where
  length : res.1.length = cells.length
  mem : ∀ k s, s ∈ (cellAt res.1 k).sequences → s ∈ (cellAt cells k).sequences
  cell : res.2.2 = false → ∀ k, cellAt res.1 k =
    removedCell seq beginIndex endIndex offset (cellAt cells k)
  le : Le r res.2.1
  has : res.2.2 = false → ∀ k, seq ∈ (cellAt res.1 k).sequences → res.2.1.Has (i + k)
  below : ∀ n, r.Below n → i + cells.length ≤ n → res.2.1.Below n

/-- One location the loop does not stop at. -/
theorem RemovedCells.cons {seq beginIndex endIndex offset : Int}
    {r r' : CellRange} {cell cell' : CacheCell} {rest : List CacheCell}
    {res : List CacheCell × CellRange × Bool}
    (h : RemovedCells seq beginIndex endIndex offset (i + 1) r' rest res)
    (hcell : cell' = removedCell seq beginIndex endIndex offset cell)
    (hmem : ∀ s, s ∈ cell'.sequences → s ∈ cell.sequences)
    (hr : r' = if seq ∈ cell'.sequences then r.add i else r) :
    RemovedCells seq beginIndex endIndex offset i r (cell :: rest) (cell' :: res.1, res.2) := by
  have hle : Le r r' := by
    rw [hr]
    split
    · exact le_add r i
    · exact Le.refl r
  refine ⟨congrArg Nat.succ h.length, ?_, ?_, hle.trans h.le, ?_, ?_⟩
  · intro k s hs
    cases k with
    | zero => exact hmem s hs
    | succ k => exact h.mem k s hs
  · intro hf k
    cases k with
    | zero => exact hcell
    | succ k => exact h.cell hf k
  · intro hf k hk
    cases k with
    | zero =>
        have hk' : seq ∈ cell'.sequences := hk
        rw [if_pos hk'] at hr
        refine Has.mono ?_ h.le
        rw [hr]
        exact has_add r i
    | succ k =>
        rw [show i + (k + 1) = i + 1 + k by omega]
        exact h.has hf k hk
  · intro n hb hn
    rw [length_cons] at hn
    refine h.below n ?_ (by omega)
    rw [hr]
    split
    · exact hb.add (by omega)
    · exact hb

theorem removeCells_spec (seq beginIndex endIndex offset : Int) :
    ∀ (cells : List CacheCell) (i : Nat) (r : CellRange),
      RemovedCells seq beginIndex endIndex offset i r cells
        (removeCells seq beginIndex endIndex offset i r cells)
  | [], i, r => by
      refine ⟨rfl, fun _ _ h => h, fun _ k => ?_, Le.refl _, ?_, fun _ h _ => h⟩
      · simp [removeCells, removedCell]
      · intro _ k hk
        simp [removeCells] at hk
  | cell :: rest, i, r => by
      have ih := removeCells_spec seq beginIndex endIndex offset rest (i + 1)
      unfold removeCells
      by_cases hmem : seq ∈ cell.sequences
      · rw [if_pos hmem]
        by_cases hin : beginIndex ≤ cell.pos ∧ cell.pos < endIndex
        · rw [if_pos hin]
          refine (ih r).cons ?_ (fun s hs => (CacheCell.mem_drop.mp hs).1) ?_
          · rw [removedCell, if_pos hmem, if_pos hin]
          · rw [if_neg (fun hc => (CacheCell.mem_drop.mp hc).2 rfl)]
        rw [if_neg hin]
        by_cases hend : endIndex ≤ cell.pos
        · rw [if_pos hend]
          by_cases hshared : cell.sequences.any (fun s => s ≠ seq) = true
          · rw [if_pos hshared]
            refine ⟨rfl, fun _ _ h => h, ?_, Le.refl r, ?_, fun _ h _ => h⟩
            · intro hc
              cases hc
            · intro hc
              cases hc
          · rw [if_neg hshared]
            refine (ih (r.add i)).cons ?_ (fun s hs => hs) (if_pos hmem).symm
            rw [removedCell, if_pos hmem, if_neg hin, if_pos hend]
        · rw [if_neg hend]
          refine (ih (r.add i)).cons ?_ (fun s hs => hs) (if_pos hmem).symm
          rw [removedCell, if_pos hmem, if_neg hin, if_neg hend]
      · rw [if_neg hmem]
        refine (ih r).cons ?_ (fun s hs => hs) (if_neg hmem).symm
        rw [removedCell, if_neg hmem]

/-- The loop stops only at a cell that would be shifted. -/
theorem removeCells_not_stopped (seq beginIndex endIndex offset : Int) :
    ∀ (cells : List CacheCell) (i : Nat) (r : CellRange),
      (∀ cell ∈ cells, seq ∈ cell.sequences → cell.pos < endIndex) →
      (removeCells seq beginIndex endIndex offset i r cells).2.2 = false
  | [], _, _, _ => rfl
  | cell :: rest, i, r, h => by
      have ih := fun r => removeCells_not_stopped seq beginIndex endIndex offset rest (i + 1) r
        (fun cell' hc => h cell' (mem_cons_of_mem _ hc))
      unfold removeCells
      by_cases hmem : seq ∈ cell.sequences
      · have hlt := h cell mem_cons_self hmem
        rw [if_pos hmem, if_neg (Int.not_le.mpr hlt)]
        split
        · exact ih r
        · exact ih (r.add i)
      · rw [if_neg hmem]
        exact ih r

/-- `Remove` up to `math.MaxInt32` takes the sequence out of its cells from
`beginIndex` on, and does nothing else to the cells. -/
theorem remove_tail {seq beginIndex : Int} {shiftFails : Bool}
    (h : ∀ i, seq ∈ (cellAt c.cells i).sequences → (cellAt c.cells i).pos < maxInt32) :
    (c.remove seq beginIndex maxInt32 shiftFails).2 = none ∧
    SameSetup c (c.remove seq beginIndex maxInt32 shiftFails).1 ∧
    ∀ i, cellAt (c.remove seq beginIndex maxInt32 shiftFails).1.cells i =
      if seq ∈ (cellAt c.cells i).sequences ∧ beginIndex ≤ (cellAt c.cells i).pos then
        (cellAt c.cells i).drop seq
      else cellAt c.cells i := by
  have hstop := removeCells_not_stopped seq beginIndex maxInt32 0 c.cells 0 KvCache.newRange
    (fun cell hc hmem => by
      obtain ⟨i, hi, rfl⟩ := getElem_of_mem hc
      rw [← cellAt_eq_getElem hi] at hmem ⊢
      exact h i hmem)
  have hspec := removeCells_spec seq beginIndex maxInt32 0 c.cells 0 KvCache.newRange
  unfold remove
  simp only [ne_eq, not_true_eq_false, if_false, false_and]
  generalize removeCells seq beginIndex maxInt32 0 0 KvCache.newRange c.cells = res at hstop hspec
  have hcell : ∀ i, cellAt res.1 i =
      if seq ∈ (cellAt c.cells i).sequences ∧ beginIndex ≤ (cellAt c.cells i).pos then
        (cellAt c.cells i).drop seq
      else cellAt c.cells i := by
    intro i
    rw [hspec.cell hstop i, removedCell]
    by_cases hmem : seq ∈ (cellAt c.cells i).sequences
    · have hlt := h i hmem
      rw [if_pos hmem, if_neg (Int.not_le.mpr hlt)]
      by_cases hle : beginIndex ≤ (cellAt c.cells i).pos
      · rw [if_pos ⟨hle, hlt⟩, if_pos ⟨hmem, hle⟩]
      · rw [if_neg (fun hc => hle hc.1), if_neg (fun hc => hle hc.2)]
    · rw [if_neg hmem, if_neg (fun hc => hmem hc.1)]
  rw [if_neg (by rw [hstop]; exact Bool.false_ne_true)]
  by_cases hempty : res.2.1 = KvCache.newRange
  · rw [if_pos hempty]
    exact ⟨rfl, ⟨rfl, rfl, rfl, rfl, hspec.length⟩, hcell⟩
  · rw [if_neg hempty]
    exact ⟨rfl, ⟨rfl, rfl, rfl, rfl, hspec.length⟩, hcell⟩

theorem not_newRange_has (i : Nat) : ¬ KvCache.newRange.Has i := by
  rintro ⟨h₁, h₂⟩
  have hmin : maxInt ≤ i := h₁
  have hmax : i ≤ 0 := h₂
  have : maxInt = 9223372036854775807 := rfl
  omega

theorem mem_removedCell {seq beginIndex endIndex offset s : Int} {cell : CacheCell} :
    s ∈ (removedCell seq beginIndex endIndex offset cell).sequences ↔
      s ∈ cell.sequences ∧ ¬ (s = seq ∧ beginIndex ≤ cell.pos ∧ cell.pos < endIndex) := by
  unfold removedCell
  by_cases hmem : seq ∈ cell.sequences
  · rw [if_pos hmem]
    by_cases hin : beginIndex ≤ cell.pos ∧ cell.pos < endIndex
    · rw [if_pos hin, CacheCell.mem_drop]
      exact and_congr_right fun _ => not_congr ⟨fun h => ⟨h, hin⟩, fun h => h.1⟩
    rw [if_neg hin]
    have hiff : s ∈ cell.sequences ↔ s ∈ cell.sequences ∧
        ¬ (s = seq ∧ beginIndex ≤ cell.pos ∧ cell.pos < endIndex) :=
      ⟨fun h => ⟨h, fun hc => hin hc.2⟩, fun h => h.1⟩
    split
    · exact hiff
    · exact hiff
  · rw [if_neg hmem]
    exact ⟨fun h => ⟨h, fun hc => hmem (hc.1 ▸ h)⟩, fun h => h.1⟩

theorem remove_wellformed (h : Wellformed c) (seq beginIndex endIndex : Int) (shiftFails : Bool) :
    Wellformed (c.remove seq beginIndex endIndex shiftFails).1 := by
  have hspec := removeCells_spec seq beginIndex endIndex
    (if endIndex ≠ maxInt32 then beginIndex - endIndex else 0) c.cells 0 KvCache.newRange
  unfold remove
  simp only
  generalize removeCells seq beginIndex endIndex
    (if endIndex ≠ maxInt32 then beginIndex - endIndex else 0) 0 KvCache.newRange
    c.cells = res at hspec
  obtain ⟨cells, r, stopped⟩ := res
  have hlen : cells.length = c.cells.length := hspec.length
  have hsetup : ∀ ranges, SameSetup c { c with cells := cells, cellRanges := ranges } :=
    fun _ => ⟨rfl, rfl, rfl, rfl, hlen⟩
  -- the other sequences keep their ranges
  have hother : ∀ i s, s ≠ seq → s ∈ (cellAt cells i).sequences →
      ∃ r, c.cellRanges.lookup s = some r ∧ r.Has i :=
    fun i s _ hs => h.cover.covers i s (hspec.mem i s hs)
  cases stopped with
  | true =>
      rw [if_pos rfl]
      refine h.of_cover (hsetup c.cellRanges) ⟨fun i s hs => ?_, fun s r' hs => ?_⟩
      · exact h.cover.covers i s (hspec.mem i s hs)
      · rw [hlen]
        exact h.cover.below s r' hs
  | false =>
      rw [if_neg Bool.false_ne_true]
      have hhas : ∀ i, seq ∈ (cellAt cells i).sequences → r.Has i := by
        intro i hi
        have := hspec.has rfl i hi
        rwa [Nat.zero_add] at this
      have hinsert : ({ c with
          cells := cells, cellRanges := c.cellRanges.insert seq r } : Causal).RangesCover := by
        refine ⟨fun i s hs => ?_, fun s r' hs => ?_⟩
        · by_cases hss : s = seq
          · rw [hss]
            exact ⟨r, AList.lookup_insert _, hhas i (hss ▸ hs)⟩
          · obtain ⟨r', hr', hi⟩ := hother i s hss hs
            exact ⟨r', (AList.lookup_insert_ne hss).trans hr', hi⟩
        have hs' : (c.cellRanges.insert seq r).lookup s = some r' := hs
        rw [hlen]
        by_cases hss : s = seq
        · rw [hss, AList.lookup_insert] at hs'
          cases hs'
          exact hspec.below _ (newRange_below _) (by rw [Nat.zero_add])
        · rw [AList.lookup_insert_ne hss] at hs'
          exact h.cover.below s r' hs'
      by_cases hempty : r = KvCache.newRange
      · rw [if_pos hempty]
        refine h.of_cover (hsetup _) ⟨fun i s hs => ?_, fun s r' hs => ?_⟩
        · have hss : s ≠ seq := by
            rintro rfl
            have := hhas i hs
            rw [hempty] at this
            exact not_newRange_has i this
          obtain ⟨r', hr', hi⟩ := hother i s hss hs
          exact ⟨r', (AList.lookup_erase_ne hss).trans hr', hi⟩
        · rw [hlen]
          have hs' : (c.cellRanges.erase seq).lookup s = some r' := hs
          by_cases hss : s = seq
          · rw [hss, AList.lookup_erase] at hs'
            cases hs'
          · rw [AList.lookup_erase_ne hss] at hs'
            exact h.cover.below s r' hs'
      · rw [if_neg hempty]
        split
        · exact h.of_cover (hsetup _) hinsert
        · exact h.of_cover (hsetup _) hinsert

/-! ## §7  The system -/

/-- The calls a run makes. `maxMoves` is what the graph size of the context
allows, `shiftFails` what the model's shift function does. -/
inductive Call where
  | startForward (batch : Batch) (reserve : Bool) (maxMoves : Int)
  | setCausal (ctx : Bool) (except : List Nat)
  | copyPrefix (srcSeq dstSeq len : Int)
  | remove (seq beginIndex endIndex : Int) (shiftFails : Bool)

/-- The cache a call leaves, whether it returns an error or not. -/
def apply (c : Causal) : Call → Causal
  | .startForward batch reserve maxMoves => (c.startForward batch reserve maxMoves).cache
  | .setCausal ctx except => c.setCausal ctx except
  | .copyPrefix srcSeq dstSeq len => c.copyPrefix srcSeq dstSeq len
  | .remove seq beginIndex endIndex shiftFails =>
      (c.remove seq beginIndex endIndex shiftFails).1

/-- The runs of a causal cache, from any `Init` that does not panic. -/
def system : Lib.System Causal Call where
  init c := ∃ window memory chunk config maxSequences capacity maxBatch,
    Causal.init window memory chunk config maxSequences capacity maxBatch = some c
  step c call c' := c' = c.apply call

theorem roundUp_dvd (length pad : Nat) : pad ∣ roundUp length pad :=
  Nat.dvd_mul_left _ _

theorem init_wellformed (h : system.init c) : Wellformed c := by
  obtain ⟨window, memory, chunk, config, maxSequences, capacity, maxBatch, h⟩ := h
  unfold Causal.init at h
  extract_lets cachePadding maskBatchPadding window memory₁ memory₂ memory cacheSize at h
  by_cases hmem : memory < window
  · rw [if_pos hmem] at h
    cases h
  rw [if_neg hmem] at h
  cases h
  refine ⟨⟨?_, ?_⟩, ?_, ?_, ?_⟩
  · intro i s hs
    have hs' : s ∈ (cellAt (List.replicate _ {}) i).sequences := hs
    rw [cellAt_replicate] at hs'
    cases hs'
  · intro s r hs
    cases hs
  · show 0 < if config.cachePadding = 0 then 1 else config.cachePadding
    split <;> omega
  · show 0 < if config.maskBatchPadding = 0 then 1 else config.maskBatchPadding
    split <;> omega
  · rw [length_replicate]
    exact roundUp_dvd _ _

/-- **Step lemma.** Every call keeps the invariant. -/
theorem apply_wellformed (h : Wellformed c) (call : Call) : Wellformed (c.apply call) := by
  cases call with
  | startForward batch reserve maxMoves => exact startForward_wellformed h batch reserve maxMoves
  | setCausal ctx except => exact setCausal_wellformed h ctx except
  | copyPrefix srcSeq dstSeq len =>
      exact h.of_cover ⟨rfl, rfl, rfl, rfl, length_map _⟩
        (copyPrefix_cover h.cover srcSeq dstSeq len)
  | remove seq beginIndex endIndex shiftFails =>
      exact remove_wellformed h seq beginIndex endIndex shiftFails

/-- **The range invariant holds in every run.** -/
theorem reachable_wellformed (h : system.Reachable c) : Wellformed c :=
  h.invariant (fun _ => init_wellformed) fun _ call _ hw hst => by
    rw [show _ = _ from hst]
    exact apply_wellformed hw call

theorem reachable_foldl {c : Causal} (h : system.Reachable c) :
    ∀ calls : List Call, system.Reachable (calls.foldl apply c)
  | [] => h
  | call :: calls => reachable_foldl (.step (a := call) h rfl) calls

/-- A plain cache of two sequences with three cells each. -/
def sixCells : Causal :=
  (Causal.init 0 0 0 ⟨1, 1⟩ 2 3 4).get rfl

theorem sixCells_reachable : system.Reachable sixCells :=
  .init ⟨0, 0, 0, ⟨1, 1⟩, 2, 3, 4, (Option.some_get _).symm⟩

end Causal

end Ollama.KvCache
