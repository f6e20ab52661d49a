import Mathlib.Data.List.Basic

/-!
# Cutting a list at a separator
-/

namespace Ollama.Lib

open List

variable {α : Type}

/-! ## §1  At the last separator -/

def cutLast (p : α → Bool) : List α → Option (List α × α × List α)
  | [] => none
  | a :: s =>
      match cutLast p s with
      | some (before, sep, after) => some (a :: before, sep, after)
      | none => if p a then some ([], a, s) else none

variable {p : α → Bool} {s before after : List α} {a sep : α}

theorem cutLast_eq_none (h : ∀ x ∈ s, p x = false) : cutLast p s = none := by
  induction s with
  | nil => rfl
  | cons a s ih =>
    obtain ⟨ha, hs⟩ := forall_mem_cons.mp h
    rw [cutLast, ih hs, ha]
    rfl

theorem cutLast_append (hsep : p sep = true) (hafter : ∀ x ∈ after, p x = false)
    (before : List α) : cutLast p (before ++ sep :: after) = some (before, sep, after) := by
  induction before with
  | nil => rw [nil_append, cutLast, cutLast_eq_none hafter, hsep]; rfl
  | cons a before ih => rw [cons_append, cutLast, ih]

/-- What a cut says about the list. -/
theorem cutLast_spec (p : α → Bool) (s : List α) : (cutLast p s = none ∧ ∀ x ∈ s, p x = false) ∨
      ∃ before sep after, cutLast p s = some (before, sep, after) ∧
        s = before ++ sep :: after ∧ p sep = true ∧ ∀ x ∈ after, p x = false := by
  induction s with
  | nil => exact Or.inl ⟨rfl, nofun⟩
  | cons a s ih =>
    rcases ih with ⟨hnone, hs⟩ | ⟨before, sep, after, hcut, rfl, hsep, hafter⟩
    · cases ha : p a with
      | true =>
        refine Or.inr ⟨[], a, s, ?_, rfl, ha, hs⟩
        rw [cutLast, hnone, ha]
        rfl
      | false =>
        refine Or.inl ⟨?_, forall_mem_cons.mpr ⟨ha, hs⟩⟩
        rw [cutLast, hnone, ha]
        rfl
    · refine Or.inr ⟨a :: before, sep, after, ?_, rfl, hsep, hafter⟩
      rw [cutLast, hcut]

theorem eq_of_cutLast (h : cutLast p s = some (before, sep, after)) :
    s = before ++ sep :: after ∧ p sep = true ∧ ∀ x ∈ after, p x = false := by
  rcases cutLast_spec p s with ⟨hnone, -⟩ | ⟨before', sep', after', hcut, hs⟩
  · rw [hnone] at h
    cases h
  · rw [hcut] at h
    cases h
    exact hs

/-- What comes after the last separator does not move it. -/
theorem cutLast_append_right {t : List α} (h : ∀ x ∈ t, p x = false) :
    cutLast p (s ++ t) = (cutLast p s).map fun (before, sep, after) => (before, sep, after ++ t) := by
  rcases cutLast_spec p s with ⟨hnone, hs⟩ | ⟨before, sep, after, hcut, rfl, hsep, hafter⟩
  · rw [hnone]
    refine cutLast_eq_none fun x hx => ?_
    rcases mem_append.mp hx with hx | hx
    · exact hs x hx
    · exact h x hx
  · rw [hcut, append_assoc, cons_append]
    refine cutLast_append hsep (fun x hx => ?_) before
    rcases mem_append.mp hx with hx | hx
    · exact hafter x hx
    · exact h x hx

theorem length_of_cutLast (h : cutLast p s = some (before, sep, after)) :
    before.length < s.length := by
  rw [(eq_of_cutLast h).1, length_append, length_cons]
  omega

/-! ## §2  At the first -/

def cutFirst (p : α → Bool) : List α → Option (List α × List α)
  | [] => none
  | a :: s =>
      if p a then some ([], s)
      else (cutFirst p s).map fun (before, after) => (a :: before, after)

theorem cutFirst_eq_none (h : ∀ x ∈ s, p x = false) : cutFirst p s = none := by
  induction s with
  | nil => rfl
  | cons a s ih =>
    obtain ⟨ha, hs⟩ := forall_mem_cons.mp h
    rw [cutFirst, ih hs, ha]
    rfl

theorem cutFirst_append (hsep : p sep = true) (hbefore : ∀ x ∈ before, p x = false)
    (after : List α) : cutFirst p (before ++ sep :: after) = some (before, after) := by
  induction before with
  | nil => rw [nil_append, cutFirst, hsep]; rfl
  | cons a before ih =>
    obtain ⟨ha, hs⟩ := forall_mem_cons.mp hbefore
    rw [cons_append, cutFirst, ha, ih hs]
    rfl

/-- What a cut says about the list. -/
theorem cutFirst_spec (p : α → Bool) (s : List α) : (cutFirst p s = none ∧ ∀ x ∈ s, p x = false) ∨
      ∃ before sep after, cutFirst p s = some (before, after) ∧
        s = before ++ sep :: after ∧ p sep = true ∧ ∀ x ∈ before, p x = false := by
  induction s with
  | nil => exact Or.inl ⟨rfl, nofun⟩
  | cons a s ih =>
    cases ha : p a with
    | true =>
      refine Or.inr ⟨[], a, s, ?_, rfl, ha, nofun⟩
      rw [cutFirst, ha]
      rfl
    | false =>
      rcases ih with ⟨hnone, hs⟩ | ⟨before, sep, after, hcut, rfl, hsep, hbefore⟩
      · refine Or.inl ⟨?_, forall_mem_cons.mpr ⟨ha, hs⟩⟩
        rw [cutFirst, ha, hnone]
        rfl
      · refine Or.inr ⟨a :: before, sep, after, ?_, rfl, hsep, forall_mem_cons.mpr ⟨ha, hbefore⟩⟩
        rw [cutFirst, ha, hcut]
        rfl

end Ollama.Lib
