import Ollama.KvCache.Causal
import Mathlib.Data.List.Induction

/-!
# The sliding window and the ranges of the sequences

`updateSlidingWindow` reads the cache through the cached ranges only. It is
right as long as every cell of a sequence lies in the sequence's range
(`RangesCover`); it keeps that invariant, it only ever takes sequences out of
cells (`Shrinks`), and the range it leaves for the pass covers every cell a
token of the batch can still see.
-/

namespace Ollama.KvCache

open List CellRange

namespace Causal

/-! ## §1  The range invariant -/

/-- Every cell of a sequence lies in the range cached for it, and no range
leaves the cache. -/
structure RangesCover (c : Causal) : Prop where
  covers : ∀ i seq, seq ∈ (cellAt c.cells i).sequences →
    ∃ r, c.cellRanges.lookup seq = some r ∧ r.Has i
  below : ∀ seq r, c.cellRanges.lookup seq = some r → r.Below c.cells.length

/-- `cells'` are `cells` with sequences taken out of some of them. -/
structure Shrinks (cells cells' : List CacheCell) : Prop where
  length : cells'.length = cells.length
  pos : ∀ i, (cellAt cells' i).pos = (cellAt cells i).pos
  mem : ∀ i seq, seq ∈ (cellAt cells' i).sequences → seq ∈ (cellAt cells i).sequences

theorem Shrinks.refl (cells : List CacheCell) : Shrinks cells cells :=
  ⟨rfl, fun _ => rfl, fun _ _ h => h⟩

theorem Shrinks.trans {a b d : List CacheCell} (h₁ : Shrinks a b)
    (h₂ : Shrinks b d) : Shrinks a d where
  length := h₂.length.trans h₁.length
  pos i := (h₂.pos i).trans (h₁.pos i)
  mem i seq h := h₁.mem i seq (h₂.mem i seq h)

theorem mem_range'_iff {r : CellRange} {i : Nat} :
    i ∈ List.range' r.min (r.max + 1 - r.min) ↔ r.Has i := by
  rw [mem_range'_1, Has]
  omega

/-! ## §2  The deletion loop of one sequence -/

section TrimLoop

variable {window memory seq : Int} {lowest : LowestPosition}

def trimmed (memory seq : Int) (lowest : LowestPosition) (cell : CacheCell) : CacheCell :=
  if seq ∈ cell.sequences ∧ cell.pos < lowest.pos - memory then cell.drop seq
  else cell

theorem trimmed_pos (cell : CacheCell) : (trimmed memory seq lowest cell).pos = cell.pos := by
  unfold trimmed
  split <;> rfl

theorem mem_trimmed {cell : CacheCell} {s : Int} : s ∈ (trimmed memory seq lowest cell).sequences ↔
      s ∈ cell.sequences ∧ ¬ (s = seq ∧ cell.pos < lowest.pos - memory) := by
  unfold trimmed
  by_cases h : seq ∈ cell.sequences ∧ cell.pos < lowest.pos - memory
  · rw [if_pos h, CacheCell.mem_drop]
    constructor
    · rintro ⟨hs, hne⟩
      exact ⟨hs, fun hc => hne hc.1⟩
    · rintro ⟨hs, hne⟩
      exact ⟨hs, fun hc => hne ⟨hc, h.2⟩⟩
  · rw [if_neg h]
    constructor
    · intro hs
      refine ⟨hs, ?_⟩
      rintro ⟨rfl, hlt⟩
      exact h ⟨hs, hlt⟩
    · exact fun hs => hs.1

theorem trimCell_cells (st : TrimState) (i : Nat) : (trimCell window memory seq lowest st i).cells =
      st.cells.modify i (trimmed memory seq lowest) := by
  have hkeep : ¬ (seq ∈ (cellAt st.cells i).sequences ∧
      (cellAt st.cells i).pos < lowest.pos - memory) →
      st.cells = st.cells.modify i (trimmed memory seq lowest) := by
    intro h
    apply ext_getElem?
    intro j
    rw [getElem?_modify]
    by_cases hij : i = j
    · subst hij
      cases hc : st.cells[i]? with
      | none => simp
      | some cell =>
          have hcell : cellAt st.cells i = cell := by simp [cellAt, hc]
          rw [hcell] at h
          simp [trimmed, h]
    · simp [hij]
  unfold trimCell
  by_cases hmem : seq ∈ (cellAt st.cells i).sequences
  · by_cases hlt : (cellAt st.cells i).pos < lowest.pos - memory
    · have hmod : st.cells.modify i (fun x => x.drop seq) =
          st.cells.modify i (trimmed memory seq lowest) := by
        apply ext_getElem?
        intro j
        rw [getElem?_modify, getElem?_modify]
        by_cases hij : i = j
        · subst hij
          cases hc : st.cells[i]? with
          | none => simp
          | some cell =>
              have hcell : cellAt st.cells i = cell := by simp [cellAt, hc]
              rw [hcell] at hmem hlt
              simp [trimmed, hmem, hlt]
        · simp [hij]
      simp only [if_pos hmem, if_pos hlt]
      split <;> exact hmod
    · simp only [if_pos hmem, if_neg hlt]
      split <;> exact hkeep (fun h => hlt h.2)
  · simp only [if_neg hmem]
    exact hkeep (fun h => hmem h.1)

theorem trimCell_newRange (st : TrimState) (i : Nat) :
    (trimCell window memory seq lowest st i).newRange =
      if seq ∈ (cellAt st.cells i).sequences ∧ ¬ (cellAt st.cells i).pos < lowest.pos - memory
      then st.newRange.add i else st.newRange := by
  unfold trimCell
  by_cases hmem : seq ∈ (cellAt st.cells i).sequences
  · by_cases hlt : (cellAt st.cells i).pos < lowest.pos - memory
    · have hnot : ¬ (seq ∈ (cellAt st.cells i).sequences ∧
          ¬ (cellAt st.cells i).pos < lowest.pos - memory) := fun h => h.2 hlt
      simp only [if_pos hmem, if_pos hlt]
      split <;> rfl
    · have hkept : seq ∈ (cellAt st.cells i).sequences ∧
          ¬ (cellAt st.cells i).pos < lowest.pos - memory := ⟨hmem, hlt⟩
      simp only [if_pos hmem, if_neg hlt]
      split <;> rfl
  · simp only [if_neg hmem]
    rw [if_neg (fun h => hmem h.1)]

theorem trimCell_curCellRange (st : TrimState) (i : Nat) :
    (trimCell window memory seq lowest st i).curCellRange =
      if seq ∈ (cellAt st.cells i).sequences ∧ lowest.curBatch = true ∧
          lowest.pos - window ≤ (cellAt st.cells i).pos
      then st.curCellRange.add i else st.curCellRange := by
  unfold trimCell
  by_cases hmem : seq ∈ (cellAt st.cells i).sequences
  · simp only [if_pos hmem]
    by_cases hcur : lowest.curBatch = true ∧ lowest.pos - window ≤ (cellAt st.cells i).pos
    · have hseen : seq ∈ (cellAt st.cells i).sequences ∧ lowest.curBatch = true ∧
          lowest.pos - window ≤ (cellAt st.cells i).pos := ⟨hmem, hcur⟩
      rw [if_pos hcur, if_pos hseen]
      split <;> rfl
    · have hunseen : ¬ (seq ∈ (cellAt st.cells i).sequences ∧ lowest.curBatch = true ∧
          lowest.pos - window ≤ (cellAt st.cells i).pos) := fun h => hcur h.2
      rw [if_neg hcur, if_neg hunseen]
      split <;> rfl
  · simp only [if_neg hmem]
    rw [if_neg (fun h => hmem h.1)]

/-- What the loop over the locations `l` leaves of the state `st`. -/
structure TrimSpec (window memory seq : Int) (lowest : LowestPosition)
    (l : List Nat) (st st' : TrimState) : Prop where
  length : st'.cells.length = st.cells.length
  cell : ∀ j, cellAt st'.cells j =
    if j ∈ l then trimmed memory seq lowest (cellAt st.cells j)
    else cellAt st.cells j
  newLe : Le st.newRange st'.newRange
  newHas : ∀ j ∈ l, seq ∈ (cellAt st.cells j).sequences →
    ¬ (cellAt st.cells j).pos < lowest.pos - memory → st'.newRange.Has j
  newBelow : st.newRange.Below st.cells.length → st'.newRange.Below st.cells.length
  curLe : Le st.curCellRange st'.curCellRange
  curHas : ∀ j ∈ l, seq ∈ (cellAt st.cells j).sequences →
    lowest.curBatch = true → lowest.pos - window ≤ (cellAt st.cells j).pos →
    st'.curCellRange.Has j
  curBelow : st.curCellRange.Below st.cells.length → st'.curCellRange.Below st.cells.length

theorem trimmed_empty : trimmed memory seq lowest {} = {} := by
  simp [trimmed]

/-- Induction over the visited locations: a location is visited once, so the
cell it reads is still the one the loop started with. -/
theorem foldl_trimCell : ∀ (l : List Nat) (st : TrimState), l.Nodup →
    TrimSpec window memory seq lowest l st (l.foldl (trimCell window memory seq lowest) st)
  | [], st, _ => by
      refine ⟨rfl, fun j => by simp, Le.refl _, by simp, id, Le.refl _, by simp, id⟩
  | i :: l, st, hnd => by
      obtain ⟨hil, hnd'⟩ := nodup_cons.mp hnd
      have hlen : (trimCell window memory seq lowest st i).cells.length = st.cells.length := by
        rw [trimCell_cells, length_modify]
      have hcell : ∀ j, cellAt (trimCell window memory seq lowest st i).cells j =
          if j = i then trimmed memory seq lowest (cellAt st.cells j)
          else cellAt st.cells j := by
        intro j
        rw [trimCell_cells, cellAt_modify]
        by_cases hji : j = i
        · subst hji
          by_cases hlt : j < st.cells.length
          · simp [hlt]
          · rw [cellAt_of_length_le (Nat.le_of_not_lt hlt)]
            simp [trimmed_empty]
        · simp [hji, Ne.symm hji]
      have hlater : ∀ j ∈ l,
          cellAt (trimCell window memory seq lowest st i).cells j = cellAt st.cells j := by
        intro j hj
        rw [hcell j, if_neg]
        rintro rfl
        exact hil hj
      have ih := foldl_trimCell l (trimCell window memory seq lowest st i) hnd'
      rw [foldl_cons]
      refine ⟨ih.length.trans hlen, ?_, ?_, ?_, ?_, ?_, ?_, ?_⟩
      · intro j
        rw [ih.cell j, hcell j]
        by_cases hji : j = i
        · subst hji
          simp [hil]
        · simp [hji]
      · refine Le.trans ?_ ih.newLe
        rw [trimCell_newRange]
        split
        · exact le_add _ _
        · exact Le.refl _
      · intro j hj hmem hpos
        rcases mem_cons.mp hj with rfl | hj
        · refine Has.mono ?_ ih.newLe
          rw [trimCell_newRange, if_pos ⟨hmem, hpos⟩]
          exact has_add _ _
        · rw [← hlater j hj] at hmem hpos
          exact ih.newHas j hj hmem hpos
      · intro hb
        rw [← hlen]
        refine ih.newBelow ?_
        rw [hlen, trimCell_newRange]
        split
        · next h => exact hb.add (lt_length_of_mem h.1)
        · exact hb
      · refine Le.trans ?_ ih.curLe
        rw [trimCell_curCellRange]
        split
        · exact le_add _ _
        · exact Le.refl _
      · intro j hj hmem hcur hpos
        rcases mem_cons.mp hj with rfl | hj
        · refine Has.mono ?_ ih.curLe
          rw [trimCell_curCellRange, if_pos ⟨hmem, hcur, hpos⟩]
          exact has_add _ _
        · rw [← hlater j hj] at hmem hpos
          exact ih.curHas j hj hmem hcur hpos
      · intro hb
        rw [← hlen]
        refine ih.curBelow ?_
        rw [hlen, trimCell_curCellRange]
        split
        · next h => exact hb.add (lt_length_of_mem h.1)
        · exact hb

end TrimLoop

/-! ## §3  One sequence -/

/-- What deleting beyond the window of one sequence does, given the range
invariant. -/
structure TrimmedSequence (c : Causal) (seq : Int) (lowest : LowestPosition)
    (c' : Causal) : Prop where
  frame : c' = { c with
    cells := c'.cells, curCellRange := c'.curCellRange, cellRanges := c'.cellRanges }
  cell : ∀ j, cellAt c'.cells j = trimmed c.swaMemorySize seq lowest (cellAt c.cells j)
  length : c'.cells.length = c.cells.length
  cover : c'.RangesCover
  keys : ∀ s, (c'.cellRanges.lookup s).isSome = (c.cellRanges.lookup s).isSome
  curLe : Le c.curCellRange c'.curCellRange
  curHas : ∀ j, seq ∈ (cellAt c.cells j).sequences → lowest.curBatch = true →
    lowest.pos - c.swaWindowSize ≤ (cellAt c.cells j).pos → c'.curCellRange.Has j
  curBelow : c.curCellRange.Below c.cells.length → c'.curCellRange.Below c.cells.length

variable {c : Causal}

theorem trimSequence_spec (h : c.RangesCover) (seq : Int) (lowest : LowestPosition) :
    TrimmedSequence c seq lowest (c.trimSequence seq lowest) := by
  unfold trimSequence
  cases hr : c.cellRanges.lookup seq with
  | none =>
      have hnot : ∀ j, seq ∉ (cellAt c.cells j).sequences := by
        intro j hj
        obtain ⟨r, hr', _⟩ := h.covers j seq hj
        rw [hr] at hr'
        cases hr'
      refine ⟨rfl, fun j => ?_, rfl, h, fun _ => rfl, Le.refl _, ?_, id⟩
      · rw [trimmed, if_neg (fun hc => hnot j hc.1)]
      · exact fun j hj => absurd hj (hnot j)
  | some oldRange =>
      have hspec := @foldl_trimCell c.swaWindowSize c.swaMemorySize seq lowest
        (List.range' oldRange.min (oldRange.max + 1 - oldRange.min))
        ⟨c.cells, KvCache.newRange, c.curCellRange⟩ nodup_range'
      have hin : ∀ j, seq ∈ (cellAt c.cells j).sequences →
          j ∈ List.range' oldRange.min (oldRange.max + 1 - oldRange.min) := by
        intro j hj
        obtain ⟨r, hr', hhas⟩ := h.covers j seq hj
        rw [hr] at hr'
        cases hr'
        exact mem_range'_iff.mpr hhas
      have hcell : ∀ j, cellAt ((List.range' oldRange.min (oldRange.max + 1 - oldRange.min)).foldl
            (trimCell c.swaWindowSize c.swaMemorySize seq lowest)
            ⟨c.cells, KvCache.newRange, c.curCellRange⟩).cells j =
          trimmed c.swaMemorySize seq lowest (cellAt c.cells j) := by
        intro j
        rw [hspec.cell j]
        by_cases hj : j ∈ List.range' oldRange.min (oldRange.max + 1 - oldRange.min)
        · rw [if_pos hj]
        · rw [if_neg hj, trimmed, if_neg (fun hc => hj (hin j hc.1))]
      refine ⟨rfl, hcell, hspec.length, ⟨?_, ?_⟩, ?_, hspec.curLe, ?_, hspec.curBelow⟩
      · intro j s hs
        obtain ⟨hold, hkeep⟩ := mem_trimmed.mp (hcell j ▸ hs)
        by_cases hss : s = seq
        · subst hss
          refine ⟨_, AList.lookup_insert _, ?_⟩
          exact hspec.newHas j (hin j hold) hold (fun hlt => hkeep ⟨rfl, hlt⟩)
        · obtain ⟨r, hr', hhas⟩ := h.covers j s hold
          exact ⟨r, (AList.lookup_insert_ne hss).trans hr', hhas⟩
      · intro s r hs
        rw [hspec.length]
        by_cases hss : s = seq
        · subst hss
          rw [AList.lookup_insert] at hs
          cases hs
          exact hspec.newBelow (newRange_below _)
        · rw [AList.lookup_insert_ne hss] at hs
          exact h.below s r hs
      · intro s
        by_cases hss : s = seq
        · subst hss
          rw [AList.lookup_insert, hr]
          rfl
        · rw [AList.lookup_insert_ne hss]
      · exact fun j hj hcur hpos => hspec.curHas j (hin j hj) hj hcur hpos

/-! ## §4  All sequences -/

/-- What deleting beyond the windows of all the entries `es` does. -/
structure TrimmedAll (c : Causal) (es : List (Sigma fun _ : Int => LowestPosition))
    (c' : Causal) : Prop where
  frame : c' = { c with
    cells := c'.cells, curCellRange := c'.curCellRange, cellRanges := c'.cellRanges }
  shrinks : Shrinks c.cells c'.cells
  cover : c'.RangesCover
  keys : ∀ s, (c'.cellRanges.lookup s).isSome = (c.cellRanges.lookup s).isSome
  kept : ∀ e ∈ es, ∀ j, e.1 ∈ (cellAt c'.cells j).sequences →
    e.2.pos - c.swaMemorySize ≤ (cellAt c'.cells j).pos
  only : ∀ j s, s ∈ (cellAt c.cells j).sequences →
    (∀ e ∈ es, e.1 = s → e.2.pos - c.swaMemorySize ≤ (cellAt c.cells j).pos) →
    s ∈ (cellAt c'.cells j).sequences
  same : (∀ e ∈ es, ∀ j, e.1 ∈ (cellAt c.cells j).sequences →
    e.2.pos - c.swaMemorySize ≤ (cellAt c.cells j).pos) → c'.cells = c.cells
  curLe : Le c.curCellRange c'.curCellRange
  curHas : ∀ e ∈ es, ∀ j, e.1 ∈ (cellAt c'.cells j).sequences → e.2.curBatch = true →
    e.2.pos - c.swaWindowSize ≤ (cellAt c'.cells j).pos → c'.curCellRange.Has j
  curBelow : c.curCellRange.Below c.cells.length → c'.curCellRange.Below c.cells.length

variable {lowest : LowestPosition}

theorem TrimmedSequence.shrinks {c c' : Causal} {seq : Int} (h : TrimmedSequence c seq lowest c') :
    Shrinks c.cells c'.cells where
  length := h.length
  pos i := by rw [h.cell i, trimmed_pos]
  mem i s hs := by
    rw [h.cell i] at hs
    exact (mem_trimmed.mp hs).1

/-- Induction over the entries; what one entry has established stays, because
later ones only take sequences out of cells and widen the current range. -/
theorem foldl_trimSequence : ∀ (es : List (Sigma fun _ : Int => LowestPosition)) (c : Causal),
      c.RangesCover →
      TrimmedAll c es (es.foldl (fun c e => c.trimSequence e.1 e.2) c)
  | [], c, h => by
      refine ⟨rfl, Shrinks.refl _, h, fun _ => rfl, by simp, fun _ _ hs _ => hs,
        fun _ => rfl, Le.refl _, by simp, id⟩
  | e :: es, c, h => by
      have h₁ := trimSequence_spec h e.1 e.2
      rw [foldl_cons]
      generalize c.trimSequence e.1 e.2 = c₁ at h₁
      have ih := foldl_trimSequence es c₁ h₁.cover
      generalize es.foldl (fun c e => c.trimSequence e.1 e.2) c₁ = c₂ at ih
      have hmem : c₁.swaMemorySize = c.swaMemorySize := by rw [h₁.frame]
      have hwin : c₁.swaWindowSize = c.swaWindowSize := by rw [h₁.frame]
      have hs := ih.shrinks
      refine ⟨?_, h₁.shrinks.trans hs, ih.cover, ?_, ?_, ?_, ?_, h₁.curLe.trans ih.curLe, ?_, ?_⟩
      · rw [ih.frame, h₁.frame]
      · exact fun s => (ih.keys s).trans (h₁.keys s)
      · intro e' he' j hj
        rcases mem_cons.mp he' with rfl | he'
        · have hj₁ := hs.mem j _ hj
          rw [hs.pos j]
          rw [h₁.cell j] at hj₁ ⊢
          rw [trimmed_pos]
          have := (mem_trimmed.mp hj₁).2
          by_contra hlt
          exact this ⟨rfl, Int.not_le.mp hlt⟩
        · rw [← hmem]
          exact ih.kept e' he' j hj
      · intro j s hsj hall
        refine ih.only j s ?_ ?_
        · rw [h₁.cell j]
          refine mem_trimmed.mpr ⟨hsj, ?_⟩
          rintro ⟨rfl, hlt⟩
          have := hall e mem_cons_self rfl
          omega
        · intro e' he' hes
          rw [hmem, h₁.cell j, trimmed_pos]
          exact hall e' (mem_cons_of_mem _ he') hes
      · intro hall
        have hc₁ : c₁.cells = c.cells := by
          refine cells_ext h₁.length (fun j => ?_)
          rw [h₁.cell j, trimmed, if_neg]
          rintro ⟨hj, hlt⟩
          have := hall e mem_cons_self j hj
          omega
        rw [← hc₁]
        refine ih.same (fun e' he' j hj => ?_)
        rw [hc₁] at hj ⊢
        rw [hmem]
        exact hall e' (mem_cons_of_mem _ he') j hj
      · intro e' he' j hj hcur hpos
        rcases mem_cons.mp he' with rfl | he'
        · have hj₁ := hs.mem j _ hj
          rw [hs.pos j] at hpos
          rw [h₁.cell j] at hj₁ hpos
          rw [trimmed_pos] at hpos
          exact (h₁.curHas j (mem_trimmed.mp hj₁).1 hcur hpos).mono ih.curLe
        · rw [← hwin] at hpos
          exact ih.curHas e' he' j hj hcur hpos
      · intro hb
        have := ih.curBelow (by rw [h₁.length]; exact h₁.curBelow hb)
        rwa [h₁.length] at this

/-! ## §5  The lowest positions -/

/-- `m` holds the lowest position of each sequence of the batch. -/
structure BatchLowest (batch : Batch) (m : LowestMap) : Prop where
  some : ∀ e ∈ batch, ∃ lowest, m.lookup e.seq = some lowest
  spec : ∀ s lowest, m.lookup s = .some lowest → lowest.curBatch = true ∧
    (∀ e ∈ batch, e.seq = s → lowest.pos ≤ e.pos) ∧
    ∃ e ∈ batch, e.seq = s

/-- Recording a value for the sequence of one more token. -/
theorem BatchLowest.insert {batch : Batch} {m : LowestMap}
    (h : BatchLowest batch m) {e : BatchEntry}
    (hcur : lowest.curBatch = true) (he : lowest.pos ≤ e.pos)
    (hle : ∀ e' ∈ batch, e'.seq = e.seq → lowest.pos ≤ e'.pos) :
    BatchLowest (batch ++ [e]) (m.insert e.seq lowest) where
  some := by
    intro e' he'
    by_cases hee : e'.seq = e.seq
    · exact ⟨lowest, by rw [hee, AList.lookup_insert]⟩
    rcases mem_append.mp he' with he' | he'
    · obtain ⟨old, hold⟩ := h.some e' he'
      exact ⟨old, (AList.lookup_insert_ne hee).trans hold⟩
    · rw [mem_singleton] at he'
      exact absurd (congrArg BatchEntry.seq he') hee
  spec := by
    intro s low hs
    by_cases hse : s = e.seq
    · rw [hse, AList.lookup_insert] at hs
      cases hs
      refine ⟨hcur, ?_, e, by simp, hse.symm⟩
      intro e' he' hes
      rcases mem_append.mp he' with he' | he'
      · exact hle e' he' (hes.trans hse)
      · rw [mem_singleton.mp he']
        exact he
    · rw [AList.lookup_insert_ne hse] at hs
      obtain ⟨hc, hle', e', he', hes⟩ := h.spec s low hs
      refine ⟨hc, ?_, e', mem_append_left _ he', hes⟩
      intro e'' he'' hes''
      rcases mem_append.mp he'' with he'' | he''
      · exact hle' e'' he'' hes''
      · rw [mem_singleton.mp he''] at hes''
        exact absurd hes''.symm hse

theorem batchLowest_spec (batch : Batch) : BatchLowest batch (batchLowest batch) := by
  induction batch using List.reverseRecOn with
  | nil => exact ⟨by simp, by simp [batchLowest]⟩
  | append_singleton batch e ih =>
      have hsnoc : batchLowest (batch ++ [e]) = lowerEntry (batchLowest batch) e := by
        rw [batchLowest, foldl_append]
        rfl
      rw [hsnoc, lowerEntry]
      generalize batchLowest batch = m at ih
      cases hm : m.lookup e.seq with
      | none =>
          refine ih.insert rfl (Int.le_refl _) ?_
          intro e' he' hee
          obtain ⟨lowest, hlow⟩ := ih.some e' he'
          rw [hee, hm] at hlow
          cases hlow
      | some old =>
          obtain ⟨hcur, hle, _⟩ := ih.spec e.seq old hm
          by_cases hlt : e.pos < old.pos
          · simp only [if_pos hlt]
            refine ih.insert hcur (Int.le_refl _) ?_
            exact fun e' he' hee => Int.le_trans (Int.le_of_lt hlt) (hle e' he' hee)
          · simp only [if_neg hlt]
            exact ih.insert hcur (Int.not_lt.mp hlt) hle

theorem foldl_lastPos {cells : List CacheCell} {seq : Int} : ∀ (l : List Nat) (last : Int),
      let r := l.foldl
        (fun last i =>
          if seq ∈ (cellAt cells i).sequences then max last (cellAt cells i).pos
          else last) last
      last ≤ r ∧
      (∀ j ∈ l, seq ∈ (cellAt cells j).sequences → (cellAt cells j).pos ≤ r) ∧
      (r = last ∨ ∃ j ∈ l, seq ∈ (cellAt cells j).sequences ∧ (cellAt cells j).pos = r)
  | [], last => by simp
  | i :: l, last => by
      obtain ⟨hle, hall, hex⟩ := @foldl_lastPos cells seq l
        (if seq ∈ (cellAt cells i).sequences then max last (cellAt cells i).pos else last)
      simp only [foldl_cons]
      by_cases hi : seq ∈ (cellAt cells i).sequences
      · rw [if_pos hi] at hle hall hex ⊢
        refine ⟨Int.le_trans (Int.le_max_left _ _) hle, ?_, ?_⟩
        · intro j hj hmem
          rcases mem_cons.mp hj with rfl | hj
          · exact Int.le_trans (Int.le_max_right _ _) hle
          · exact hall j hj hmem
        rcases hex with hex | ⟨j, hj, hmem, hpos⟩
        · rcases Int.le_total last (cellAt cells i).pos with hm | hm
          · rw [hex, Int.max_eq_right hm]
            exact Or.inr ⟨i, mem_cons_self, hi, rfl⟩
          · rw [hex, Int.max_eq_left hm]
            exact Or.inl rfl
        · exact Or.inr ⟨j, mem_cons_of_mem _ hj, hmem, hpos⟩
      · rw [if_neg hi] at hle hall hex ⊢
        refine ⟨hle, ?_, ?_⟩
        · intro j hj hmem
          rcases mem_cons.mp hj with rfl | hj
          · exact absurd hmem hi
          · exact hall j hj hmem
        · rcases hex with hex | ⟨j, hj, hmem, hpos⟩
          · exact Or.inl hex
          · exact Or.inr ⟨j, mem_cons_of_mem _ hj, hmem, hpos⟩

/-- `lastPos` is the greatest position of the sequence in the range, or 0. -/
theorem lastPos_spec (cells : List CacheCell) (seq : Int) (r : CellRange) :
    0 ≤ lastPos cells seq r ∧
    (∀ j, r.Has j → seq ∈ (cellAt cells j).sequences → (cellAt cells j).pos ≤ lastPos cells seq r) ∧
    (lastPos cells seq r = 0 ∨ ∃ j, seq ∈ (cellAt cells j).sequences ∧
      (cellAt cells j).pos = lastPos cells seq r) := by
  obtain ⟨hle, hall, hex⟩ := @foldl_lastPos cells seq (List.range' r.min (r.max + 1 - r.min)) 0
  refine ⟨hle, fun j hj => hall j (mem_range'_iff.mpr hj), ?_⟩
  rcases hex with hex | ⟨j, _, hmem, hpos⟩
  · exact Or.inl hex
  · exact Or.inr ⟨j, hmem, hpos⟩

/-- Adding the other sequences leaves the entries there are and adds one for
each sequence with a range. -/
theorem lookup_foldl_otherLowest {cells : List CacheCell} (s : Int) :
    ∀ (es : List (Sigma fun _ : Int => CellRange)) (m : LowestMap),
      (es.foldl (fun m e => otherLowest cells m e.1 e.2) m).lookup s =
        match m.lookup s with
        | some lowest => some lowest
        | none => (es.dlookup s).map fun r => ⟨lastPos cells s r + 1, false⟩
  | [], m => by
      cases hm : m.lookup s <;> simp [hm]
  | ⟨s', r⟩ :: es, m => by
      rw [foldl_cons, lookup_foldl_otherLowest s es]
      have hother : (otherLowest cells m s' r).lookup s =
          match m.lookup s with
          | some lowest => some lowest
          | none => if s = s' then some ⟨lastPos cells s r + 1, false⟩ else none := by
        unfold otherLowest
        by_cases hss : s = s'
        · subst hss
          cases hm : m.lookup s with
          | none => simp [AList.lookup_insert]
          | some lowest => simp [hm]
        · cases hm' : m.lookup s' with
          | none => cases hm : m.lookup s <;> simp [AList.lookup_insert_ne hss, hm, hss]
          | some lowest => cases hm : m.lookup s <;> simp [hss]
      rw [hother]
      cases hm : m.lookup s with
      | some lowest => rfl
      | none =>
          by_cases hss : s = s'
          · subst hss
            simp [dlookup_cons_eq]
          · simp [hss, dlookup_cons_ne es ⟨s', r⟩ hss]

theorem lookup_lowestPositions (c : Causal) (s : Int) : c.lowestPositions.lookup s =
      match (batchLowest c.curBatch).lookup s with
      | some lowest => some lowest
      | none => (c.cellRanges.lookup s).map fun r => ⟨lastPos c.cells s r + 1, false⟩ :=
  lookup_foldl_otherLowest s _ _

/-! ## §6  `updateSlidingWindow` -/

/-- The union of ranges covers the range of every sequence of the batch. -/
theorem foldl_batchRange {m : AList (fun _ : Int => CellRange)} {n : Nat}
    (hbelow : ∀ s r, m.lookup s = some r → r.Below n) :
    ∀ (batch : Batch) (r : CellRange), r.Below n →
      let r' := batch.foldl
        (fun r e =>
          match m.lookup e.seq with
          | some seqRange => r.join seqRange
          | none => r) r
      Le r r' ∧ r'.Below n ∧
      ∀ e ∈ batch, ∀ sr, m.lookup e.seq = some sr → Le sr r'
  | [], r, hr => ⟨Le.refl _, hr, by simp⟩
  | e :: batch, r, hr => by
      simp only [foldl_cons]
      cases hm : m.lookup e.seq with
      | none =>
          obtain ⟨hle, hb, hall⟩ := foldl_batchRange hbelow batch r hr
          refine ⟨hle, hb, ?_⟩
          intro e' he' sr hsr
          rcases mem_cons.mp he' with rfl | he'
          · rw [hm] at hsr
            cases hsr
          · exact hall e' he' sr hsr
      | some seqRange =>
          obtain ⟨hle, hb, hall⟩ := foldl_batchRange hbelow batch
            (r.join seqRange) (hr.join (hbelow _ _ hm))
          refine ⟨(le_join_left r seqRange).trans hle, hb, ?_⟩
          intro e' he' sr hsr
          rcases mem_cons.mp he' with rfl | he'
          · rw [hm] at hsr
            cases hsr
            exact (le_join_right r seqRange).trans hle
          · exact hall e' he' sr hsr

/-- What `updateSlidingWindow` does to a cache with covering ranges. -/
structure Windowed (c c' : Causal) : Prop where
  frame : c' = { c with
    cells := c'.cells, curCellRange := c'.curCellRange, cellRanges := c'.cellRanges }
  shrinks : Shrinks c.cells c'.cells
  cover : c'.RangesCover
  keys : ∀ s, (c'.cellRanges.lookup s).isSome = (c.cellRanges.lookup s).isSome
  curHas : ∀ e ∈ c.curBatch, ∀ j, e.seq ∈ (cellAt c'.cells j).sequences →
    e.pos - c.swaWindowSize ≤ (cellAt c'.cells j).pos → c'.curCellRange.Has j
  curBelow : c'.curCellRange.Below c.cells.length

theorem mem_lowestPositions {s : Int} (h : c.lowestPositions.lookup s = some lowest) :
    ⟨s, lowest⟩ ∈ c.lowestPositions.entries :=
  AList.mem_lookup_iff.mp h

theorem lookup_of_mem_lowestPositions {e : Sigma fun _ : Int => LowestPosition}
    (h : e ∈ c.lowestPositions.entries) :
    c.lowestPositions.lookup e.1 = some e.2 :=
  AList.mem_lookup_iff.mpr h

theorem updateSlidingWindow_spec (h : c.RangesCover) : Windowed c c.updateSlidingWindow := by
  unfold updateSlidingWindow
  by_cases hmem : c.swaMemorySize = maxInt32
  · rw [if_pos hmem]
    obtain ⟨_, hb, hall⟩ := foldl_batchRange h.below c.curBatch KvCache.newRange (newRange_below _)
    refine ⟨rfl, Shrinks.refl _, ⟨h.covers, h.below⟩, fun _ => rfl, ?_, hb⟩
    intro e he j hj _
    obtain ⟨r, hr, hhas⟩ := h.covers j _ hj
    exact hhas.mono (hall e he r hr)
  · rw [if_neg hmem]
    have hspec := foldl_trimSequence c.lowestPositions.entries
      { c with curCellRange := KvCache.newRange } ⟨h.covers, h.below⟩
    refine ⟨hspec.frame, hspec.shrinks, hspec.cover, hspec.keys, ?_,
      hspec.curBelow (newRange_below _)⟩
    intro e he j hj hpos
    obtain ⟨lowest, hlow⟩ := (batchLowest_spec c.curBatch).some e he
    obtain ⟨hcur, hle, _⟩ := (batchLowest_spec c.curBatch).spec _ _ hlow
    have hlook : c.lowestPositions.lookup e.seq = some lowest := by
      rw [lookup_lowestPositions, hlow]
    refine hspec.curHas _ (mem_lowestPositions hlook) j hj hcur ?_
    have := hle e he rfl
    show lowest.pos - c.swaWindowSize ≤ _
    omega

/-! ## §7  Running it a second time

`defrag` calls `updateSlidingWindow` again for the batch it was already called
for. Nothing is left to delete then: `Settled` holds after the first call and
keeps the second one from touching a cell. -/

/-- No cell of a sequence is beyond the window of the sequence's lowest
position, taken from the batch or from the cells themselves. -/
structure Settled (batch : Batch) (memory : Int) (cells : List CacheCell) : Prop where
  inBatch : ∀ s lowest, (batchLowest batch).lookup s = some lowest →
    ∀ j, s ∈ (cellAt cells j).sequences → lowest.pos - memory ≤ (cellAt cells j).pos
  others : ∀ s, (batchLowest batch).lookup s = none →
    ∀ i, s ∈ (cellAt cells i).sequences → 1 - memory ≤ (cellAt cells i).pos ∧
      ∀ j, s ∈ (cellAt cells j).sequences → (cellAt cells j).pos + 1 - memory ≤ (cellAt cells i).pos

theorem updateSlidingWindow_settled (h : c.RangesCover) (hmem : c.swaMemorySize ≠ maxInt32) :
    Settled c.curBatch c.swaMemorySize c.updateSlidingWindow.cells := by
  unfold updateSlidingWindow
  rw [if_neg hmem]
  have hspec := foldl_trimSequence c.lowestPositions.entries
    { c with curCellRange := KvCache.newRange } ⟨h.covers, h.below⟩
  generalize c.lowestPositions.entries.foldl _ _ = c' at hspec
  refine ⟨?_, ?_⟩
  · intro s lowest hlow j hj
    have hlook : c.lowestPositions.lookup s = some lowest := by
      rw [lookup_lowestPositions, hlow]
    exact hspec.kept _ (mem_lowestPositions hlook) j hj
  intro s hlow i hi
  obtain ⟨r, hr, _⟩ := h.covers i s (hspec.shrinks.mem i s hi)
  have hlook : c.lowestPositions.lookup s = some ⟨lastPos c.cells s r + 1, false⟩ := by
    rw [lookup_lowestPositions, hlow, hr]
    rfl
  have hkept := hspec.kept _ (mem_lowestPositions hlook) i hi
  obtain ⟨hnonneg, hlast, _⟩ := lastPos_spec c.cells s r
  have hkept' : lastPos c.cells s r + 1 - c.swaMemorySize ≤ (cellAt c'.cells i).pos :=
    hkept
  refine ⟨by omega, ?_⟩
  intro j hj
  have hj₀ := hspec.shrinks.mem j s hj
  obtain ⟨r', hr', hhas⟩ := h.covers j s hj₀
  rw [hr] at hr'
  cases hr'
  have := hlast j hhas hj₀
  rw [hspec.shrinks.pos j]
  show (cellAt c.cells j).pos + 1 - c.swaMemorySize ≤ _
  omega

theorem updateSlidingWindow_cells_of_settled (h : c.RangesCover)
    (hset : c.swaMemorySize ≠ maxInt32 → Settled c.curBatch c.swaMemorySize c.cells) :
    c.updateSlidingWindow.cells = c.cells := by
  unfold updateSlidingWindow
  by_cases hmem : c.swaMemorySize = maxInt32
  · rw [if_pos hmem]
  rw [if_neg hmem]
  have hset := hset hmem
  have hspec := foldl_trimSequence c.lowestPositions.entries
    { c with curCellRange := KvCache.newRange } ⟨h.covers, h.below⟩
  refine hspec.same ?_
  intro e he j hj
  have hlook := lookup_of_mem_lowestPositions he
  rw [lookup_lowestPositions] at hlook
  cases hlow : (batchLowest c.curBatch).lookup e.1 with
  | some lowest =>
      rw [hlow] at hlook
      cases hlook
      exact hset.inBatch e.1 _ hlow j hj
  | none =>
      rw [hlow] at hlook
      obtain ⟨r, _, he2⟩ := Option.map_eq_some_iff.mp hlook
      obtain ⟨hfirst, hall⟩ := hset.others e.1 hlow j hj
      obtain ⟨_, _, hex⟩ := lastPos_spec c.cells e.1 r
      rw [← he2]
      show lastPos c.cells e.1 r + 1 - c.swaMemorySize ≤ (cellAt c.cells j).pos
      rcases hex with hzero | ⟨i, hi, hpos⟩
      · omega
      · have := hall i hi
        omega

end Causal

end Ollama.KvCache
