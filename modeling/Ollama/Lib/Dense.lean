import Mathlib.Algebra.BigOperators.Group.List.Basic
import Mathlib.Data.List.Range

/-!
# Dense tensors

Tensors with any number of axes, and the lists that back them in row-major order.
-/

namespace Ollama.Lib.Dense

open List

variable {α β : Type*}

/-! ## §1  Indices -/

/-- The indices below `dims`, in row-major order. -/
def indices : List ℕ → List (List ℕ)
  | [] => [[]]
  | d :: dims => (range d).flatMap fun i => (indices dims).map (i :: ·)

/-- The place of an index in row-major order. -/
def offset : List ℕ → List ℕ → ℕ
  | _ :: dims, i :: ix => i * dims.prod + offset dims ix
  | _, _ => 0

theorem length_indices (dims : List ℕ) : (indices dims).length = dims.prod := by
  induction dims with
  | nil => rfl
  | cons d dims ih => simp [indices, ih, length_flatMap]

/-- Blocks of one length, one after another. -/
theorem getElem?_flatMap_range {f : ℕ → List β} {m d i j : ℕ} (hf : ∀ i, (f i).length = m)
    (hi : i < d) (hj : j < m) : ((range d).flatMap f)[i * m + j]? = (f i)[j]? := by
  induction d with
  | zero => exact absurd hi (Nat.not_lt_zero i)
  | succ d ih =>
    have hlen : ((range d).flatMap f).length = d * m := by simp [length_flatMap, hf]
    rw [range_succ, flatMap_append, flatMap_singleton]
    rcases Nat.lt_succ_iff_lt_or_eq.mp hi with hlt | rfl
    · rw [getElem?_append_left, ih hlt]
      calc i * m + j < (i + 1) * m := by rw [Nat.succ_mul]; omega
        _ ≤ ((range d).flatMap f).length := hlen ▸ Nat.mul_le_mul_right m hlt
    · rw [getElem?_append_right (by omega), hlen, Nat.add_sub_cancel_left]

/-- Every index within the bounds stands at its place. -/
theorem getElem?_indices {dims ix : List ℕ} (h : Forall₂ (· < ·) ix dims) :
    (indices dims)[offset dims ix]? = some ix := by
  induction h with
  | nil => rfl
  | @cons i d ix dims hi h ih =>
    have hlt : offset dims ix < dims.prod := by
      rw [← length_indices]
      exact (List.getElem?_eq_some_iff.mp ih).1
    rw [indices, offset, getElem?_flatMap_range (by simp [length_indices]) hi hlt, getElem?_map, ih]
    rfl

/-! ## §2  Tensors -/

structure Tensor (α : Type*) where
  dims : List ℕ
  get : List ℕ → α

namespace Tensor

def backing (t : Tensor α) : List α := (indices t.dims).map t.get

theorem length_backing (t : Tensor α) : t.backing.length = t.dims.prod := by
  rw [backing, length_map, length_indices]

theorem getElem?_backing (t : Tensor α) {ix : List ℕ} (h : Forall₂ (· < ·) ix t.dims) :
    t.backing[offset t.dims ix]? = some (t.get ix) := by
  rw [backing, getElem?_map, getElem?_indices h]
  rfl

/-- A tensor over a list of its size. -/
def new [Inhabited α] (dims : List ℕ) (data : List α) : Option (Tensor α) :=
  if data.length = dims.prod then some ⟨dims, fun ix => data.getD (offset dims ix) default⟩
  else none

def concat (axis : ℕ) (a b : Tensor α) : Option (Tensor α) :=
  let n := a.dims.getD axis 0
  if a.dims.set axis 0 = b.dims.set axis 0 then
    some ⟨a.dims.set axis (n + b.dims.getD axis 0), fun ix =>
      if ix.getD axis 0 < n then a.get ix else b.get (ix.set axis (ix.getD axis 0 - n))⟩
  else none

/-- `start:stop:step` along an axis. -/
def slice (axis start stop step : ℕ) (t : Tensor α) : Tensor α :=
  ⟨t.dims.set axis ((stop - start + (step - 1)) / step), fun ix =>
    t.get (ix.set axis (start + ix.getD axis 0 * step))⟩

end Tensor

end Ollama.Lib.Dense
