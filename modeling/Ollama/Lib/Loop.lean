import Mathlib.Order.Basic

/-!
# Loops that may not end

A loop is its body: from a state it goes on with another state or leaves with a
result, or it does not come to the end of its turn. Runs are counted in turns,
so that returning and not returning can both be stated.
-/

namespace Ollama.Lib.Loop

universe u v

variable {σ : Type u} {ρ : Type v}

/-- The result of a loop that leaves within `n` turns. -/
def run (body : σ → Option (σ ⊕ ρ)) : ℕ → σ → Option ρ
  | 0, _ => none
  | n + 1, s =>
      match body s with
      | none => none
      | some (.inl s') => run body n s'
      | some (.inr r) => some r

/-- The states a loop comes to. -/
inductive Reaches (body : σ → Option (σ ⊕ ρ)) (s : σ) : σ → Prop
  | refl : Reaches body s s
  | step {t t' : σ} : Reaches body s t → body t = some (.inl t') → Reaches body s t'

variable {body : σ → Option (σ ⊕ ρ)} {s t : σ} {r : ρ}

theorem run_inl {n : ℕ} (h : body s = some (.inl t)) : run body (n + 1) s = run body n t := by
  rw [run, h]

theorem run_inr {n : ℕ} (h : body s = some (.inr r)) : run body (n + 1) s = some r := by
  rw [run, h]

theorem run_mono {n m : ℕ} (h : run body n s = some r) (hnm : n ≤ m) : run body m s = some r := by
  induction n generalizing s m with
  | zero => cases h
  | succ n ih =>
    obtain ⟨m, rfl⟩ := Nat.exists_eq_succ_of_ne_zero (show m ≠ 0 by omega)
    unfold run at h ⊢
    split at h
    · cases h
    · exact ih h (Nat.le_of_succ_le_succ hnm)
    · exact h

theorem run_unique {n m : ℕ} {r' : ρ} (h : run body n s = some r) (h' : run body m s = some r') :
    r = r' := by
  have h₁ := run_mono h (Nat.le_max_left n m)
  rw [run_mono h' (Nat.le_max_right n m)] at h₁
  exact (Option.some.inj h₁).symm

/-- **Variant rule.** A loop whose turns decrease a variant leaves. -/
theorem run_of_variant {P : σ → Prop} (μ : σ → ℕ)
    (hturn : ∀ s, P s → (∃ r, body s = some (.inr r)) ∨
      ∃ t, body s = some (.inl t) ∧ P t ∧ μ t < μ s) (hs : P s) :
    ∃ r, run body (μ s + 1) s = some r := by
  have h : ∀ n s, P s → μ s < n → ∃ r, run body n s = some r := by
    intro n
    induction n with
    | zero => exact fun s _ hn => absurd hn (Nat.not_lt_zero _)
    | succ n ih =>
      intro s hs hn
      rcases hturn s hs with ⟨r, hr⟩ | ⟨t, ht, hP, hμ⟩
      · exact ⟨r, run_inr hr⟩
      · rw [run_inl ht]
        exact ih t hP (by omega)
  exact h (μ s + 1) s hs (Nat.lt_succ_self _)

/-- **A loop that never leaves**: every turn keeps an invariant. -/
theorem run_eq_none {P : σ → Prop}
    (hturn : ∀ s, P s → body s = none ∨ ∃ t, body s = some (.inl t) ∧ P t) :
    ∀ n s, P s → run body n s = none := by
  intro n
  induction n with
  | zero => exact fun _ _ => rfl
  | succ n ih =>
    intro s hs
    rcases hturn s hs with hn | ⟨t, ht, hP⟩
    · rw [run, hn]
    · rw [run_inl ht]
      exact ih t hP

/-- A result is that of a state the loop comes to. -/
theorem exists_last {n : ℕ} (h : run body n s = some r) :
    ∃ t, Reaches body s t ∧ body t = some (.inr r) := by
  have hgen : ∀ n t, Reaches body s t → run body n t = some r →
      ∃ t, Reaches body s t ∧ body t = some (.inr r) := by
    intro n
    induction n with
    | zero => exact fun _ _ h => absurd h (by intro h; cases h)
    | succ n ih =>
      intro t ht h
      cases hb : body t with
      | none =>
        rw [run, hb] at h
        cases h
      | some x =>
        cases x with
        | inl t' =>
          rw [run_inl hb] at h
          exact ih t' (ht.step hb) h
        | inr r' =>
          rw [run_inr hb] at h
          cases h
          exact ⟨t, ht, hb⟩
  exact hgen n s .refl h

theorem run_of_reaches (ht : Reaches body s t) {n : ℕ} (h : run body n s = some r) :
    ∃ m, run body m t = some r := by
  induction ht with
  | refl => exact ⟨n, h⟩
  | step _ hb ih =>
    obtain ⟨m, hm⟩ := ih
    cases m with
    | zero => cases hm
    | succ m =>
      rw [run_inl hb] at hm
      exact ⟨m, hm⟩

/-- **Invariant rule** for the states a loop comes to. -/
theorem Reaches.invariant {P : σ → Prop} (hs : P s)
    (hstep : ∀ t t', P t → body t = some (.inl t') → P t') (ht : Reaches body s t) : P t := by
  induction ht with
  | refl => exact hs
  | step _ hb ih => exact hstep _ _ ih hb

end Ollama.Lib.Loop
