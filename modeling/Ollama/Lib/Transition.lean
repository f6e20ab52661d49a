import Mathlib.Logic.Basic

/-!
# Labelled transition systems and guarded runs

A system is a set of initial states and a labelled step relation. Runs are
the reachable states; an invariant is proved once on the initial states and
once on a step. `System.guard` keeps the steps whose label meets a condition
on the state before the step, which is how a property that only holds under
a usage discipline is stated over whole runs.
-/

namespace Ollama.Lib

universe u v

/-- A labelled transition system over states `σ` with labels `ι`. -/
structure System (σ : Type u) (ι : Type v) where
  init : σ → Prop
  step : σ → ι → σ → Prop

namespace System

variable {σ : Type u} {ι : Type v}

/-- The states a run of the system reaches. -/
inductive Reachable (T : System σ ι) : σ → Prop
  | init {s : σ} : T.init s → Reachable T s
  | step {s s' : σ} {a : ι} : Reachable T s → T.step s a s' → Reachable T s'

/-- The same system, with only the steps whose label meets `G` in the state
before the step. -/
def guard (T : System σ ι) (G : σ → ι → Prop) : System σ ι where
  init := T.init
  step := fun s a s' => G s a ∧ T.step s a s'

variable {T : System σ ι} {G : σ → ι → Prop} {P Q : σ → Prop}

/-- **Invariant rule.** A property of the initial states that every step
preserves holds of every reachable state. -/
theorem Reachable.invariant (hinit : ∀ s, T.init s → P s)
    (hstep : ∀ s a s', P s → T.step s a s' → P s') {s : σ}
    (h : T.Reachable s) : P s := by
  induction h with
  | init hs => exact hinit _ hs
  | step _ hst ih => exact hstep _ _ _ ih hst

theorem Reachable.invariant_of (hQ : ∀ s, T.Reachable s → Q s) (hinit : ∀ s, T.init s → P s)
    (hstep : ∀ s a s', Q s → P s → T.step s a s' → P s') {s : σ}
    (h : T.Reachable s) : P s := by
  induction h with
  | init hs => exact hinit _ hs
  | step hr hst ih => exact hstep _ _ _ (hQ _ hr) ih hst

theorem Reachable.of_guard {s : σ} (h : (T.guard G).Reachable s) : T.Reachable s := by
  induction h with
  | init hs => exact .init hs
  | step _ hst ih => exact .step ih hst.2

/-- A condition that the steps of every reachable state meet anyway guards
nothing away. -/
theorem Reachable.guard_of_always (hG : ∀ s a s', T.Reachable s → T.step s a s' → G s a) {s : σ}
    (h : T.Reachable s) : (T.guard G).Reachable s := by
  induction h with
  | init hs => exact .init hs
  | step hr hst ih => exact .step ih ⟨hG _ _ _ hr hst, hst⟩

end System

end Ollama.Lib
