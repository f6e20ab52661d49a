import Ollama.KvCache.Runs

/-!
# Shifting the keys: `shift` of `kvcache/causal.go`

What `Remove` does to the key rows. A shift function is called for windows of at most `maxBatch`
rows, layer by layer; the calls whose results are copied back are recorded.
-/

namespace Ollama.KvCache

open List

/-! ## §1  The calls of `shift` -/

/-- A call of the shift function whose result is copied back: the key rows of a layer from `row` on,
with the offset of each. -/
structure ShiftCall where
  layer : Nat
  row : Nat
  offsets : List Int
deriving DecidableEq, Repr

/-- A model's shift function is asked for a layer, a first row and the offsets; `true`: it returns
an error. -/
abbrev ShiftFn : Type := Nat → Nat → List Int → Bool

namespace Causal

def rotates (cells : List CacheCell) (seq beginIndex : Int) (i : Nat) : Bool :=
  decide (seq ∈ (cellAt cells i).sequences ∧ beginIndex ≤ (cellAt cells i).pos)

/-- `batchFirst` and `batchLast` of a window; `none` is -1. -/
def batchEnds (p : Nat → Bool) (start size : Nat) : Option (Nat × Nat) :=
  (List.range size).foldl
    (fun ends i => if p (start + i) then some ((ends.map Prod.fst).getD i, i) else ends) none

def shiftWindow (p : Nat → Bool) (offset : Int) (start size : Nat) : Option (Nat × List Int) :=
  let offsets := (List.range size).map fun i => if p (start + i) then offset else 0
  (batchEnds p start size).map fun (batchFirst, batchLast) =>
    (start + batchFirst, (offsets.take (batchLast + 1)).drop batchFirst)

/-- The loop of `shift` from `start` on: the calls, and whether the shift function returned an
error. A window is computed when all layers are done. Every turn goes on by `maxBatch`, so that
`max + 1 - start` turns are enough. -/
def shiftFrom (maxBatch : Nat) (layers : List Nat) (shiftFn : ShiftFn) (p : Nat → Bool)
    (offset : Int) (max : Nat) : Nat → Nat → List ShiftCall × Bool
  | 0, _ => ([], false)
  | fuel + 1, start =>
      if max < start then ([], false)
      else
        match shiftWindow p offset start (min (max - start + 1) maxBatch) with
        | none => shiftFrom maxBatch layers shiftFn p offset max fuel (start + maxBatch)
        | some (row, offsets) =>
            if layers.any fun layer => shiftFn layer row offsets then ([], true)
            else
              let rest := shiftFrom maxBatch layers shiftFn p offset max fuel (start + maxBatch)
              (layers.map (fun layer => ⟨layer, row, offsets⟩) ++ rest.1, rest.2)

/-- `shift`; `layers` are the layers with stored keys, and a `shiftFn` that is `none` is nil. -/
def shift (c : Causal) (layers : List Nat) (shiftFn : Option ShiftFn) (seq beginIndex offset : Int) :
    List ShiftCall × Option CacheError :=
  match shiftFn with
  | none => ([], some .notSupported)
  | some shiftFn =>
      let seqRange := (c.cellRanges.lookup seq).getD ⟨0, 0⟩
      let res := shiftFrom c.maxBatch layers shiftFn (rotates c.cells seq beginIndex) offset
        seqRange.max (seqRange.max + 1 - seqRange.min) seqRange.min
      (res.1, if res.2 then some .shiftFailed else none)

/-! ## §2  One window -/

variable {p : Nat → Bool} {start size i : Nat}

/-- The rows to be moved are between the two ends, and the ends are such rows. -/
theorem batchEnds_spec (p : Nat → Bool) (start size : Nat) :
    match batchEnds p start size with
    | none => ∀ i < size, p (start + i) = false
    | some (batchFirst, batchLast) =>
        batchFirst ≤ batchLast ∧ batchLast < size ∧
          ∀ i < size, p (start + i) = true → batchFirst ≤ i ∧ i ≤ batchLast := by
  induction size with
  | zero => exact fun i hi => absurd hi (Nat.not_lt_zero i)
  | succ size ih =>
      have hsnoc : batchEnds p start (size + 1) =
          if p (start + size) then
            some (((batchEnds p start size).map Prod.fst).getD size, size)
          else batchEnds p start size := by
        unfold batchEnds
        rw [range_succ, foldl_append]
        rfl
      rw [hsnoc]
      cases hends : batchEnds p start size with
      | none =>
          rw [hends] at ih
          cases hp : p (start + size) with
          | true =>
              refine ⟨Nat.le_refl size, Nat.lt_succ_self size, fun i hi hpi => ?_⟩
              rcases Nat.lt_succ_iff_lt_or_eq.mp hi with hlt | rfl
              · rw [ih i hlt] at hpi
                cases hpi
              · exact ⟨Nat.le_refl i, Nat.le_refl i⟩
          | false =>
              intro i hi
              rcases Nat.lt_succ_iff_lt_or_eq.mp hi with hlt | rfl
              · exact ih i hlt
              · exact hp
      | some ends =>
          rw [hends] at ih
          obtain ⟨hle, hlast, hall⟩ := ih
          cases hp : p (start + size) with
          | true =>
              refine ⟨Nat.le_of_lt (Nat.lt_of_le_of_lt hle hlast), Nat.lt_succ_self size,
                fun i hi hpi => ?_⟩
              rcases Nat.lt_succ_iff_lt_or_eq.mp hi with hlt | rfl
              · exact ⟨(hall i hlt hpi).1, Nat.le_of_lt hlt⟩
              · exact ⟨Nat.le_of_lt (Nat.lt_of_le_of_lt hle hlast), Nat.le_refl i⟩
          | false =>
              refine ⟨hle, Nat.lt_succ_of_lt hlast, fun i hi hpi => ?_⟩
              rcases Nat.lt_succ_iff_lt_or_eq.mp hi with hlt | rfl
              · exact hall i hlt hpi
              · rw [hp] at hpi
                cases hpi

/-- A window gives each of its rows the offset, or 0; a row to be moved is among them. -/
theorem shiftWindow_some {offset : Int} {row : Nat} {offsets : List Int}
    (h : shiftWindow p offset start size = some (row, offsets)) (i : Nat) :
    (∀ o, row ≤ i → offsets[i - row]? = some o →
      start ≤ i ∧ i < start + size ∧ o = if p i then offset else 0) ∧
    (start ≤ i → i < start + size → p i = true → row ≤ i ∧ offsets[i - row]? = some offset) := by
  have hends := batchEnds_spec p start size
  obtain ⟨⟨batchFirst, batchLast⟩, heq, hrow⟩ := Option.map_eq_some_iff.mp h
  rw [heq] at hends
  obtain ⟨hle, hlast, hall⟩ := hends
  cases hrow
  have hget : ∀ k, ((((List.range size).map fun i => if p (start + i) then offset else 0).take
      (batchLast + 1)).drop batchFirst)[k]? =
        if batchFirst + k ≤ batchLast then
          some (if p (start + (batchFirst + k)) then offset else 0)
        else none := by
    intro k
    rw [getElem?_drop, getElem?_take]
    by_cases hk : batchFirst + k ≤ batchLast
    · rw [if_pos (Nat.lt_succ_of_le hk), if_pos hk, getElem?_map,
        getElem?_range (Nat.lt_of_le_of_lt hk hlast)]
      rfl
    · rw [if_neg fun hc => hk (Nat.le_of_lt_succ hc), if_neg hk]
  constructor
  · intro o hrow ho
    rw [hget] at ho
    split at ho
    · next hk =>
      have hi : start + (batchFirst + (i - (start + batchFirst))) = i := by omega
      rw [hi] at ho
      exact ⟨by omega, by omega, (Option.some.inj ho).symm⟩
    · cases ho
  · intro hstart hsize hp
    have hi : start + (i - start) = i := Nat.add_sub_cancel' hstart
    have hin := hall (i - start) (by omega) (by rw [hi]; exact hp)
    refine ⟨by omega, ?_⟩
    rw [hget, if_pos (by omega), show start + (batchFirst + (i - (start + batchFirst))) = i by omega,
      if_pos hp]

theorem shiftWindow_none {offset : Int} (h : shiftWindow p offset start size = none)
    (hstart : start ≤ i) (hsize : i < start + size) : p i = false := by
  have hends := batchEnds_spec p start size
  rw [Option.map_eq_none_iff.mp h] at hends
  have hi := hends (i - start) (by omega)
  rwa [Nat.add_sub_cancel' hstart] at hi

/-! ## §3  All windows -/

def offsetAt (call : ShiftCall) (layer i : Nat) : Option Int :=
  if call.layer = layer ∧ call.row ≤ i then call.offsets[i - call.row]? else none

def applied (calls : List ShiftCall) (layer i : Nat) : List Int :=
  calls.filterMap fun call => offsetAt call layer i

theorem applied_append (calls calls' : List ShiftCall) (layer i : Nat) :
    applied (calls ++ calls') layer i = applied calls layer i ++ applied calls' layer i :=
  filterMap_append

/-- Each layer is called once for a window. -/
theorem applied_window {layers : List Nat} (hnodup : layers.Nodup) {layer : Nat}
    (hlayer : layer ∈ layers) (row : Nat) (offsets : List Int) (i : Nat) :
    applied (layers.map fun layer => ⟨layer, row, offsets⟩) layer i =
      (if row ≤ i then offsets[i - row]? else none).toList := by
  have hother : ∀ layers : List Nat, layer ∉ layers →
      applied (layers.map fun layer => ⟨layer, row, offsets⟩) layer i = [] := by
    intro layers hnot
    unfold applied
    rw [filterMap_map, filterMap_eq_nil_iff]
    intro layer' hmem
    refine if_neg ?_
    rintro ⟨heq, -⟩
    exact hnot (heq ▸ hmem)
  induction layers with
  | nil => cases hlayer
  | cons layer' layers ih =>
      obtain ⟨hnot, hnodup'⟩ := nodup_cons.mp hnodup
      rw [map_cons, show ∀ call : ShiftCall, ∀ calls, call :: calls = [call] ++ calls from
        fun _ _ => rfl, applied_append]
      rcases mem_cons.mp hlayer with rfl | hmem
      · rw [hother layers hnot, append_nil]
        unfold applied offsetAt
        simp only [filterMap_cons, filterMap_nil, true_and]
        cases (if row ≤ i then offsets[i - row]? else none) <;> rfl
      rw [ih hnodup' hmem]
      have hne : layer' ≠ layer := by
        rintro rfl
        exact hnot hmem
      unfold applied offsetAt
      simp only [filterMap_cons, filterMap_nil, hne, false_and, if_false, nil_append]

section Windows

variable {maxBatch : Nat} {layers : List Nat} {shiftFn : ShiftFn} {offset : Int} {max : Nat}

/-- A call gives a row the offset it is to be moved by, or 0. -/
theorem shiftFrom_offset (fuel start : Nat) :
    ∀ call ∈ (shiftFrom maxBatch layers shiftFn p offset max fuel start).1, ∀ layer i o,
      offsetAt call layer i = some o → start ≤ i ∧ o = if p i then offset else 0 := by
  induction fuel generalizing start with
  | zero => exact fun call hcall => nomatch hcall
  | succ fuel ih =>
      intro call hcall layer i o ho
      have hlater : call ∈ (shiftFrom maxBatch layers shiftFn p offset max fuel
          (start + maxBatch)).1 → start ≤ i ∧ o = if p i then offset else 0 := by
        intro hmem
        obtain ⟨hle, hoff⟩ := ih (start + maxBatch) call hmem layer i o ho
        exact ⟨Nat.le_trans (Nat.le_add_right start maxBatch) hle, hoff⟩
      unfold shiftFrom at hcall
      split at hcall
      · cases hcall
      split at hcall
      · exact hlater hcall
      rename_i row offsets hwindow
      split at hcall
      · cases hcall
      rcases mem_append.mp hcall with hmem | hmem
      · obtain ⟨layer', -, rfl⟩ := mem_map.mp hmem
        unfold offsetAt at ho
        split at ho
        · next hc =>
          obtain ⟨hle, -, hoff⟩ := (shiftWindow_some hwindow i).1 o hc.2 ho
          exact ⟨hle, hoff⟩
        · cases ho
      · exact hlater hmem

/-- **Once.** Without an error each row to be moved gets the offset in one call of each layer. -/
theorem shiftFrom_once (hbatch : 0 < maxBatch) (hnodup : layers.Nodup) {layer : Nat}
    (hlayer : layer ∈ layers) (fuel start : Nat) (hfuel : max + 1 - start ≤ fuel)
    (hok : (shiftFrom maxBatch layers shiftFn p offset max fuel start).2 = false)
    (hstart : start ≤ i) (hmax : i ≤ max) (hp : p i = true) :
    applied (shiftFrom maxBatch layers shiftFn p offset max fuel start).1 layer i = [offset] := by
  induction fuel generalizing start with
  | zero => omega
  | succ fuel ih =>
      -- behind the window the row is one of the later ones, in it one of none of these
      have hlater := ih (start + maxBatch) (by omega)
      have hnone : i < start + maxBatch →
          applied (shiftFrom maxBatch layers shiftFn p offset max fuel (start + maxBatch)).1 layer i =
            [] := by
        intro hlt
        unfold applied
        rw [filterMap_eq_nil_iff]
        intro call hcall
        by_contra hsome
        obtain ⟨o, ho⟩ := Option.ne_none_iff_exists'.mp hsome
        exact Nat.not_le.mpr hlt (shiftFrom_offset fuel _ call hcall layer i o ho).1
      have hsize : i < start + maxBatch → i < start + min (max - start + 1) maxBatch := by
        intro hlt
        rw [← Nat.add_min_add_left]
        exact Nat.lt_min.mpr ⟨by omega, hlt⟩
      unfold shiftFrom at hok ⊢
      rw [if_neg (Nat.not_lt.mpr (Nat.le_trans hstart hmax))] at hok ⊢
      cases hwindow : shiftWindow p offset start (min (max - start + 1) maxBatch) with
      | none =>
          rw [hwindow] at hok
          refine hlater hok ?_
          by_contra hlt
          have hlt' := hsize (Nat.not_le.mp hlt)
          rw [shiftWindow_none hwindow hstart hlt'] at hp
          cases hp
      | some window =>
          obtain ⟨row, offsets⟩ := window
          rw [hwindow] at hok
          dsimp only at hok ⊢
          split at hok
          · cases hok
          rename_i hfine
          rw [if_neg hfine, applied_append, applied_window hnodup hlayer]
          by_cases hin : i < start + maxBatch
          · obtain ⟨hrow, hget⟩ := (shiftWindow_some hwindow i).2 hstart (hsize hin) hp
            rw [hnone hin, append_nil, if_pos hrow, hget]
            rfl
          rw [hlater hok (Nat.not_lt.mp hin)]
          have hout : (if row ≤ i then offsets[i - row]? else none) = none := by
            split
            · next hrow =>
              by_contra hsome
              obtain ⟨o, ho⟩ := Option.ne_none_iff_exists'.mp hsome
              have hlt := ((shiftWindow_some hwindow i).1 o hrow ho).2.1
              omega
            · rfl
          rw [hout]
          rfl

end Windows

/-! ## §4  `Remove` with its calls -/

/-- `Remove`, with the calls of the shift function. -/
def removeShifting (c : Causal) (layers : List Nat) (shiftFn : Option ShiftFn)
    (seq beginIndex endIndex : Int) : Causal × List ShiftCall × Option CacheError :=
  let offset := if endIndex ≠ maxInt32 then beginIndex - endIndex else 0
  let res := removeCells seq beginIndex endIndex offset 0 KvCache.newRange c.cells
  let c := { c with cells := res.1 }
  if res.2.2 then (c, [], some .sharedShift)
  else if res.2.1 = KvCache.newRange then
    ({ c with cellRanges := c.cellRanges.erase seq }, [], none)
  else
    let c := { c with cellRanges := c.cellRanges.insert seq res.2.1 }
    if endIndex ≠ maxInt32 then
      (c, c.shift layers shiftFn seq (endIndex + offset) offset)
    else (c, [], none)

variable {c : Causal} {layers : List Nat} {shiftFn : Option ShiftFn} {seq beginIndex endIndex : Int}

/-- The metadata is that of `remove`, whatever the shift function does. -/
theorem removeShifting_cache (shiftFails : Bool) :
    (c.removeShifting layers shiftFn seq beginIndex endIndex).1 =
      (c.remove seq beginIndex endIndex shiftFails).1 := by
  unfold removeShifting remove
  dsimp only
  generalize (if endIndex ≠ maxInt32 then beginIndex - endIndex else 0) = offset
  split
  · rfl
  split
  · rfl
  · by_cases hmax : endIndex ≠ maxInt32
    · rw [if_pos hmax]
      split <;> rfl
    · rw [if_neg hmax, if_neg fun hc => hmax hc.1]

/-- The rows that are given an offset other than 0. -/
theorem rotates_iff (hstop : (removeCells seq beginIndex endIndex (beginIndex - endIndex) 0
      KvCache.newRange c.cells).2.2 = false) (i : Nat) :
    rotates (removeCells seq beginIndex endIndex (beginIndex - endIndex) 0 KvCache.newRange
        c.cells).1 seq beginIndex i = true ↔
      seq ∈ (cellAt c.cells i).sequences ∧ endIndex ≤ (cellAt c.cells i).pos := by
  have hspec := removeCells_spec seq beginIndex endIndex (beginIndex - endIndex) c.cells 0
    KvCache.newRange
  unfold rotates
  rw [decide_eq_true_iff, hspec.cell hstop i, mem_removedCell]
  unfold removedCell
  by_cases hmem : seq ∈ (cellAt c.cells i).sequences
  · rw [if_pos hmem]
    by_cases hin : beginIndex ≤ (cellAt c.cells i).pos ∧ (cellAt c.cells i).pos < endIndex
    · refine iff_of_false ?_ fun hc => Int.not_lt.mpr hc.2 hin.2
      rintro ⟨⟨-, hc⟩, -⟩
      exact hc ⟨rfl, hin⟩
    rw [if_neg hin]
    by_cases hend : endIndex ≤ (cellAt c.cells i).pos
    · rw [if_pos hend]
      refine iff_of_true ⟨⟨hmem, fun hc => hin hc.2⟩, ?_⟩ ⟨hmem, hend⟩
      show beginIndex ≤ (cellAt c.cells i).pos + (beginIndex - endIndex)
      omega
    · rw [if_neg hend]
      refine iff_of_false ?_ fun hc => hend hc.2
      rintro ⟨-, hle⟩
      exact hin ⟨hle, Int.not_le.mp hend⟩
  · exact iff_of_false (fun hc => hmem hc.1.1) fun hc => hmem hc.1

/-- What a context shift is to do to the cells and the key rows of a sequence. -/
structure Rotated (c : Causal) (layers : List Nat) (seq beginIndex endIndex : Int)
    (cells : List CacheCell) (calls : List ShiftCall) : Prop where
  before : ∀ i, seq ∈ (cellAt c.cells i).sequences → (cellAt c.cells i).pos < beginIndex →
    cellAt cells i = cellAt c.cells i
  inside : ∀ i, beginIndex ≤ (cellAt c.cells i).pos → (cellAt c.cells i).pos < endIndex →
    seq ∉ (cellAt cells i).sequences
  behind : ∀ i, seq ∈ (cellAt c.cells i).sequences → endIndex ≤ (cellAt c.cells i).pos →
    cellAt cells i =
      { cellAt c.cells i with pos := (cellAt c.cells i).pos - (endIndex - beginIndex) }
  moved : ∀ layer ∈ layers, ∀ i, seq ∈ (cellAt c.cells i).sequences →
    endIndex ≤ (cellAt c.cells i).pos → applied calls layer i = [beginIndex - endIndex]
  other : ∀ layer i, ¬(seq ∈ (cellAt c.cells i).sequences ∧ endIndex ≤ (cellAt c.cells i).pos) →
    ∀ o ∈ applied calls layer i, o = 0

/-- **Context shift.** A removal that returns nil moves the cells behind the range, and in every
layer the shift function has been applied once with the offset to the rows of these cells and to no
other row with an offset but 0. -/
theorem removeShifting_rotated (hbatch : 1 ≤ c.maxBatch) (hnodup : layers.Nodup)
    (shiftFn : ShiftFn) (hlt : beginIndex < endIndex) (hend : endIndex < maxInt32)
    (hnil : (c.removeShifting layers (some shiftFn) seq beginIndex endIndex).2.2 = none) :
    Rotated c layers seq beginIndex endIndex
      (c.removeShifting layers (some shiftFn) seq beginIndex endIndex).1.cells
      (c.removeShifting layers (some shiftFn) seq beginIndex endIndex).2.1 := by
  have hspec := removeCells_spec seq beginIndex endIndex (beginIndex - endIndex) c.cells 0
    KvCache.newRange
  have hiff := @rotates_iff c seq beginIndex endIndex
  have hmax : endIndex ≠ maxInt32 := Int.ne_of_lt hend
  unfold removeShifting at hnil ⊢
  dsimp only at hnil ⊢
  rw [if_pos hmax] at hnil ⊢
  generalize removeCells seq beginIndex endIndex (beginIndex - endIndex) 0 KvCache.newRange
    c.cells = res at hspec hiff hnil
  obtain ⟨cells, r, stopped⟩ := res
  cases stopped with
  | true =>
      cases hnil
  | false =>
      have hcell := hspec.cell rfl
      have hhas : ∀ i, seq ∈ (cellAt cells i).sequences → r.Has i := by
        intro i hi
        have := hspec.has rfl i hi
        rwa [Nat.zero_add] at this
      -- the cells, whatever the calls are
      have hrotated : ∀ calls, (∀ layer ∈ layers, ∀ i, rotates cells seq beginIndex i = true →
            applied calls layer i = [beginIndex - endIndex]) →
          (∀ layer i, rotates cells seq beginIndex i = false → ∀ o ∈ applied calls layer i, o = 0) →
          Rotated c layers seq beginIndex endIndex cells calls := by
        intro calls hmoved hother
        refine ⟨fun i hi hpos => ?_, fun i hle hpos hi => ?_, fun i hi hle => ?_,
          fun layer hlayer i hi hle => hmoved layer hlayer i ((hiff rfl i).mpr ⟨hi, hle⟩),
          fun layer i hnot => hother layer i ?_⟩
        · rw [hcell i, removedCell, if_pos hi, if_neg fun hc => Int.not_le.mpr hpos hc.1,
            if_neg (Int.not_le.mpr (Int.lt_trans hpos hlt))]
        · rw [hcell i] at hi
          exact (mem_removedCell.mp hi).2 ⟨rfl, hle, hpos⟩
        · rw [hcell i, removedCell, if_pos hi, if_neg fun hc => Int.not_lt.mpr hle hc.2, if_pos hle]
          congr 1
          omega
        · rw [Bool.eq_false_iff]
          exact fun hc => hnot ((hiff rfl i).mp hc)
      by_cases hempty : r = KvCache.newRange
      · rw [if_pos hempty]
        refine hrotated [] (fun layer _ i hi => ?_) fun layer i _ o ho => absurd ho not_mem_nil
        have hin := hhas i (of_decide_eq_true hi).1
        rw [hempty] at hin
        exact absurd hin (not_newRange_has i)
      rw [if_neg hempty, if_pos hmax] at hnil ⊢
      have hbegin : endIndex + (beginIndex - endIndex) = beginIndex := by omega
      unfold shift at hnil ⊢
      dsimp only at hnil ⊢
      rw [AList.lookup_insert, Option.getD_some, hbegin] at hnil ⊢
      refine hrotated _ (fun layer hlayer i hi => ?_) fun layer i hi o ho => ?_
      · obtain ⟨hmin, hle⟩ := hhas i (of_decide_eq_true hi).1
        refine shiftFrom_once hbatch hnodup hlayer _ _ (Nat.le_refl _) ?_ hmin hle hi
        rw [Bool.eq_false_iff]
        intro hfail
        rw [if_pos hfail] at hnil
        cases hnil
      · obtain ⟨call, hcall, hoff⟩ := mem_filterMap.mp ho
        obtain ⟨-, heq⟩ := shiftFrom_offset _ _ call hcall layer i o hoff
        rw [heq, if_neg (by rw [hi]; exact Bool.false_ne_true)]

/-- A sequence at the positions 0 to 3, shifted in windows of two rows. -/
def fourTokens : Causal :=
  ((Causal.init 0 0 0 ⟨1, 1⟩ 1 6 2).get rfl |>.apply
    (.startForward [⟨0, 0⟩, ⟨1, 0⟩, ⟨2, 0⟩, ⟨3, 0⟩] false 1))

/-- The position 1 is removed from it. -/
theorem removeShifting_rotated_fourTokens : Rotated fourTokens [0, 2] 0 1 2
      (fourTokens.removeShifting [0, 2] (some fun _ _ _ => false) 0 1 2).1.cells
      (fourTokens.removeShifting [0, 2] (some fun _ _ _ => false) 0 1 2).2.1 :=
  removeShifting_rotated (by decide +kernel) (by decide) _ (by decide) (by decide)
    (by decide +kernel)

end Causal

end Ollama.KvCache
