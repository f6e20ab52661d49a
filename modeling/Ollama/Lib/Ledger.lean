import Mathlib

/-!
# Ledgers

Sizes that are put at places or left over. What is at each place and what is left over is the
whole.
-/

namespace Ollama.Lib

open List

/-- Sizes, each with its place; `none` for what is left over. -/
abbrev Ledger := List (ℕ × Option ℕ)

namespace Ledger

variable {ledger : Ledger} {size g m : ℕ} {place : Option ℕ}

/-- What is at a place. -/
def load (ledger : Ledger) (g : ℕ) : ℕ :=
  (ledger.map fun entry => if entry.2 = some g then entry.1 else 0).sum

/-- What is left over. -/
def rest (ledger : Ledger) : ℕ :=
  (ledger.map fun entry => if entry.2 = none then entry.1 else 0).sum

@[simp] theorem load_append (ledger ledger' : Ledger) (g : ℕ) :
    load (ledger ++ ledger') g = load ledger g + load ledger' g := by
  unfold load
  rw [map_append, sum_append]

@[simp] theorem rest_append (ledger ledger' : Ledger) :
    rest (ledger ++ ledger') = rest ledger + rest ledger' := by
  unfold rest
  rw [map_append, sum_append]

@[simp] theorem load_singleton (size : ℕ) (place : Option ℕ) (g : ℕ) :
    load [(size, place)] g = if place = some g then size else 0 := sum_singleton

@[simp] theorem rest_singleton (size : ℕ) (place : Option ℕ) :
    rest [(size, place)] = if place = none then size else 0 := sum_singleton

/-- Every place is one of the first `m`. -/
def Within (ledger : Ledger) (m : ℕ) : Prop := ∀ entry ∈ ledger, ∀ g, entry.2 = some g → g < m

theorem Within.append {ledger' : Ledger} (h : Within ledger m) (h' : Within ledger' m) :
    Within (ledger ++ ledger') m := fun entry hmem =>
  (mem_append.mp hmem).elim (h entry) (h' entry)

theorem within_singleton (h : ∀ g, place = some g → g < m) : Within [(size, place)] m := by
  intro entry hmem
  rw [mem_singleton.mp hmem]
  exact h

/-- **Conservation.** What is at the places and what is left over is the whole. -/
theorem sum_load (h : Within ledger m) :
    (∑ g ∈ Finset.range m, load ledger g) + rest ledger = (ledger.map Prod.fst).sum := by
  induction ledger with
  | nil => exact Nat.add_zero _ ▸ Finset.sum_const_zero
  | cons entry ledger ih =>
    obtain ⟨size, place⟩ := entry
    have ih := ih fun entry hmem => h entry (mem_cons_of_mem _ hmem)
    have hplace := h (size, place) mem_cons_self
    rw [← singleton_append]
    simp only [load_append, rest_append, load_singleton, rest_singleton, Finset.sum_add_distrib,
      map_append, map_cons, map_nil, sum_append, sum_singleton]
    rw [← ih]
    -- one place has the size, or it is left over
    cases place with
    | none =>
      simp only [reduceCtorEq, if_false, Finset.sum_const_zero, if_true]
      omega
    | some g =>
      have hone : (∑ x ∈ Finset.range m, if some g = some x then size else 0) = size := by
        simp only [Option.some.injEq]
        rw [Finset.sum_ite_eq, if_pos (Finset.mem_range.mpr (hplace g rfl))]
      rw [hone, if_neg (Option.some_ne_none g)]
      omega

theorem sum_map_range (f : ℕ → ℕ) (m : ℕ) :
    ((List.range m).map f).sum = ∑ g ∈ Finset.range m, f g := by
  induction m with
  | zero => rfl
  | succ m ih =>
    rw [range_succ, map_append, sum_append, ih, Finset.sum_range_succ]
    rfl

end Ledger

end Ollama.Lib
