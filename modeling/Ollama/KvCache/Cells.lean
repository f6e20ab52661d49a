import Mathlib.Data.List.AList

/-!
# Cells and cell ranges of the causal cache

The metadata of `kvcache/causal.go`: for each location of the cache a position
and the set of sequences stored there, and for each sequence the range of
locations it occupies. Positions are `int32` in the source and `Int` here:
for the positions `0 ≤ pos < 2³¹ - 1` a runner hands out, none of the sums
below leaves 32 bits.
-/

namespace Ollama.KvCache

/-- `math.MaxInt32`, the "no limit" value of window sizes and end indices. -/
def maxInt32 : Int := 2147483647

/-- `math.MaxInt`, the empty minimum of a cell range. -/
def maxInt : Nat := 9223372036854775807

/-- `cacheCell`: the position stored at a location and the sequences that
reference it. A cell with no sequences is free. -/
structure CacheCell where
  pos : Int := 0
  sequences : List Int := []
deriving DecidableEq, Repr

/-- `slices.DeleteFunc(sequences, s == seq)` on one cell. -/
def CacheCell.drop (cell : CacheCell) (seq : Int) : CacheCell :=
  { cell with sequences := cell.sequences.filter (fun s => s ≠ seq) }

@[simp] theorem CacheCell.mem_drop {cell : CacheCell} {seq s : Int} :
    s ∈ (cell.drop seq).sequences ↔ s ∈ cell.sequences ∧ s ≠ seq := by
  simp [CacheCell.drop]

/-- `c.cells[i]`. Every index the cache reads is in bounds, which the range
invariant below proves; past the end a free cell is read. -/
def cellAt (cells : List CacheCell) (i : Nat) : CacheCell :=
  (cells[i]?).getD {}

variable {cells : List CacheCell} {i : Nat}

theorem cellAt_of_length_le (h : cells.length ≤ i) : cellAt cells i = {} := by
  simp [cellAt, List.getElem?_eq_none h]

theorem lt_length_of_mem {seq : Int} (h : seq ∈ (cellAt cells i).sequences) : i < cells.length := by
  by_contra hlt
  rw [cellAt_of_length_le (Nat.le_of_not_lt hlt)] at h
  simp at h

theorem cellAt_eq_getElem (h : i < cells.length) : cellAt cells i = cells[i] := by
  simp [cellAt, h]

theorem cells_ext {cells cells' : List CacheCell} (hlen : cells'.length = cells.length)
    (h : ∀ i, cellAt cells' i = cellAt cells i) : cells' = cells := by
  apply List.ext_getElem hlen
  intro i h₁ h₂
  rw [← cellAt_eq_getElem h₁, ← cellAt_eq_getElem h₂]
  exact h i

@[simp] theorem cellAt_nil (i : Nat) : cellAt [] i = {} := by
  simp [cellAt]

@[simp] theorem cellAt_cons_zero (cell : CacheCell) (rest : List CacheCell) :
    cellAt (cell :: rest) 0 = cell := rfl

@[simp] theorem cellAt_cons_succ (cell : CacheCell) (rest : List CacheCell)
    (i : Nat) : cellAt (cell :: rest) (i + 1) = cellAt rest i := rfl

theorem cellAt_set {i j : Nat} {cell : CacheCell} :
    cellAt (cells.set i cell) j = if i = j ∧ i < cells.length then cell else cellAt cells j := by
  unfold cellAt
  by_cases hij : i = j
  · subst hij
    by_cases hlt : i < cells.length
    · simp [hlt]
    · simp [hlt]
  · simp [hij]

theorem cellAt_modify {i j : Nat} {f : CacheCell → CacheCell} : cellAt (cells.modify i f) j =
      if i = j ∧ i < cells.length then f (cellAt cells j)
      else cellAt cells j := by
  unfold cellAt
  by_cases hij : i = j
  · subst hij
    by_cases hlt : i < cells.length
    · simp [hlt]
    · simp [hlt]
  · simp [hij]

theorem cellAt_map {f : CacheCell → CacheCell}
    (hf : f {} = {}) (i : Nat) : cellAt (cells.map f) i = f (cellAt cells i) := by
  unfold cellAt
  rw [List.getElem?_map]
  cases cells[i]? with
  | none => simp [hf]
  | some cell => simp

theorem cellAt_replicate (n i : Nat) : cellAt (List.replicate n {}) i = {} := by
  unfold cellAt
  by_cases h : i < n
  · simp [h]
  · simp [h]

/-! ## Ranges of locations -/

/-- `cellRange`: the first and last location, both included. -/
structure CellRange where
  min : Nat
  max : Nat
deriving DecidableEq, Repr

/-- `newRange()`, which covers no location. -/
def newRange : CellRange := ⟨maxInt, 0⟩

namespace CellRange

/-- Widen a range to include location `i`. -/
def add (r : CellRange) (i : Nat) : CellRange :=
  ⟨Nat.min r.min i, Nat.max r.max i⟩

def join (r s : CellRange) : CellRange :=
  ⟨Nat.min r.min s.min, Nat.max r.max s.max⟩

/-- Location `i` lies in the range. -/
def Has (r : CellRange) (i : Nat) : Prop := r.min ≤ i ∧ i ≤ r.max

instance (r : CellRange) (i : Nat) : Decidable (r.Has i) :=
  inferInstanceAs (Decidable (_ ∧ _))

/-- `r` covers everything `s` covers. -/
def Le (s r : CellRange) : Prop := r.min ≤ s.min ∧ s.max ≤ r.max

theorem Le.refl (r : CellRange) : Le r r := ⟨Nat.le_refl _, Nat.le_refl _⟩

theorem Le.trans {r s t : CellRange} (h₁ : Le r s) (h₂ : Le s t) : Le r t :=
  ⟨Nat.le_trans h₂.1 h₁.1, Nat.le_trans h₁.2 h₂.2⟩

theorem Has.mono {r s : CellRange} {i : Nat} (h : s.Has i) (hle : Le s r) : r.Has i :=
  ⟨Nat.le_trans hle.1 h.1, Nat.le_trans h.2 hle.2⟩

theorem le_add (r : CellRange) (i : Nat) : Le r (r.add i) :=
  ⟨Nat.min_le_left _ _, Nat.le_max_left _ _⟩

theorem has_add (r : CellRange) (i : Nat) : (r.add i).Has i :=
  ⟨Nat.min_le_right _ _, Nat.le_max_right _ _⟩

theorem le_join_left (r s : CellRange) : Le r (r.join s) :=
  ⟨Nat.min_le_left _ _, Nat.le_max_left _ _⟩

theorem le_join_right (r s : CellRange) : Le s (r.join s) :=
  ⟨Nat.min_le_right _ _, Nat.le_max_right _ _⟩

/-- The range ends inside a cache of `n` cells (`newRange` always does). -/
def Below (r : CellRange) (n : Nat) : Prop := r.max ≤ n - 1

theorem newRange_below (n : Nat) : newRange.Below n := Nat.zero_le _

theorem Below.add {r : CellRange} {n i : Nat} (h : r.Below n) (hi : i < n) :
    (r.add i).Below n := Nat.max_le.mpr ⟨h, Nat.le_sub_one_of_lt hi⟩

theorem Below.join {r s : CellRange} {n : Nat} (hr : r.Below n)
    (hs : s.Below n) : (r.join s).Below n := Nat.max_le.mpr ⟨hr, hs⟩

end CellRange

/-- The loop `for i := range cells` that collects the range of the cells that
meet `p`, from location `i` on and starting with the range `r`. -/
def scanRange (p : CacheCell → Bool) : Nat → CellRange → List CacheCell → CellRange
  | _, r, [] => r
  | i, r, cell :: rest =>
      scanRange p (i + 1) (if p cell then r.add i else r) rest

theorem scanRange_le (p : CacheCell → Bool) :
    ∀ (cells : List CacheCell) (i : Nat) (r : CellRange), CellRange.Le r (scanRange p i r cells)
  | [], _, r => CellRange.Le.refl r
  | cell :: rest, i, r => by
      have ih := scanRange_le p rest (i + 1) (if p cell then r.add i else r)
      refine CellRange.Le.trans ?_ ih
      by_cases hp : p cell = true
      · rw [if_pos hp]; exact CellRange.le_add r i
      · rw [if_neg hp]; exact CellRange.Le.refl r

/-- The scan covers every cell that meets the predicate. -/
theorem scanRange_has (p : CacheCell → Bool) (hp : p {} = false) :
    ∀ (cells : List CacheCell) (i : Nat) (r : CellRange) (k : Nat),
      p (cellAt cells k) = true → (scanRange p i r cells).Has (i + k)
  | [], _, _, k, h => by simp [hp] at h
  | cell :: rest, i, r, 0, h => by
      rw [cellAt_cons_zero] at h
      simp only [scanRange, if_pos h, Nat.add_zero]
      exact (CellRange.has_add r i).mono (scanRange_le p rest (i + 1) _)
  | cell :: rest, i, r, k + 1, h => by
      rw [cellAt_cons_succ] at h
      have ih := scanRange_has p hp rest (i + 1) (if p cell then r.add i else r) k h
      rw [show i + (k + 1) = i + 1 + k from by omega]
      exact ih

theorem scanRange_below (p : CacheCell → Bool) :
    ∀ (cells : List CacheCell) (i : Nat) (r : CellRange) (n : Nat),
      r.Below n → i + cells.length ≤ n → (scanRange p i r cells).Below n
  | [], _, _, _, hr, _ => hr
  | cell :: rest, i, r, n, hr, hn => by
      rw [List.length_cons] at hn
      refine scanRange_below p rest (i + 1) _ n ?_ (by omega)
      by_cases hp : p cell = true
      · rw [if_pos hp]; exact hr.add (by omega)
      · rw [if_neg hp]; exact hr

end Ollama.KvCache
