import Mathlib

/-!
# Sequences in bins

Items are put into bins without changing their order: the first bin takes the
first items, the next bin the next ones. What fits does so when the bins are
filled one after the other, each with as much as it takes.
-/

namespace Ollama.Lib.Packing

/-- The items can be cut into one part for each bin, in order. -/
def Fits (bins items : List ℕ) : Prop :=
  ∃ parts : List (List ℕ), List.Forall₂ (fun bin part => part.sum ≤ bin) bins parts ∧
    parts.flatten = items

variable {bins items : List ℕ} {bin item : ℕ}

theorem eq_nil_of_fits (h : Fits [] items) : items = [] := by
  obtain ⟨parts, hparts, rfl⟩ := h
  cases hparts
  rfl

/-- The first item goes into the first bin, or that bin is left empty. -/
theorem fits_cons_cons : Fits (bin :: bins) (item :: items) ↔
    (item ≤ bin ∧ Fits ((bin - item) :: bins) items) ∨ Fits bins (item :: items) := by
  constructor
  · rintro ⟨parts, hparts, hitems⟩
    cases hparts with
    | @cons _ part _ parts hbin hparts =>
      cases part with
      | nil => exact Or.inr ⟨parts, hparts, hitems⟩
      | cons x part =>
        obtain ⟨rfl, rfl⟩ := List.cons.inj hitems
        rw [List.sum_cons] at hbin
        exact Or.inl ⟨by omega, part :: parts, List.Forall₂.cons (by omega) hparts, rfl⟩
  · rintro (⟨hle, parts, hparts, hitems⟩ | ⟨parts, hparts, hitems⟩)
    · cases hparts with
      | @cons _ part _ parts hbin hparts =>
        refine ⟨(item :: part) :: parts, List.Forall₂.cons ?_ hparts, ?_⟩
        · rw [List.sum_cons]
          omega
        · rw [← hitems]
          rfl
    · exact ⟨[] :: parts, List.Forall₂.cons (Nat.zero_le bin) hparts, hitems⟩

theorem Fits.cons (h : Fits bins items) (bin : ℕ) : Fits (bin :: bins) items := by
  obtain ⟨parts, hparts, hitems⟩ := h
  exact ⟨[] :: parts, List.Forall₂.cons (Nat.zero_le bin) hparts, hitems⟩

theorem Fits.tail : ∀ {bins : List ℕ}, Fits bins (item :: items) → Fits bins items := by
  intro bins
  induction bins with
  | nil => exact fun h => absurd (eq_nil_of_fits h) (List.cons_ne_nil _ _)
  | cons bin bins ih =>
    intro h
    rcases fits_cons_cons.mp h with ⟨_, parts, hparts, hitems⟩ | hrest
    · cases hparts with
      | @cons _ part _ parts hbin hparts =>
        exact ⟨part :: parts, List.Forall₂.cons (Nat.le_trans hbin (Nat.sub_le _ _)) hparts, hitems⟩
    · exact (ih hrest).cons bin

/-- **Filling the first bin loses nothing**: with the first item there, the others
still fit. -/
theorem Fits.fill (h : Fits (bin :: bins) (item :: items)) : Fits ((bin - item) :: bins) items := by
  rcases fits_cons_cons.mp h with ⟨_, hrest⟩ | hrest
  · exact hrest
  · exact hrest.tail.cons _

theorem Fits.skip (h : Fits (bin :: bins) (item :: items)) (hlt : ¬item ≤ bin) :
    Fits bins (item :: items) := by
  rcases fits_cons_cons.mp h with ⟨hle, _⟩ | hrest
  · exact absurd hle hlt
  · exact hrest

end Ollama.Lib.Packing
