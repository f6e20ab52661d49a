import Ollama.Server.RunnerLifetime

/-!
# The stages of a request

What the scheduler may do to a request, one step after the other.
-/

namespace Ollama.Server

open Sched

variable {u : Setup} {s s' : Sched}

/-- What may come after a stage of a request. -/
inductive Stage.Next : Stage → Stage → Prop
  | found (r : ℕ) : Next .fresh (.looked r)
  | notFound : Next .fresh .waiting
  | reload (r : ℕ) : Next (.looked r) .waiting
  | keep (r : ℕ) : Next (.looked r) (.checked r)
  | use (r : ℕ) : Next (.checked r) (.given r)
  | queued : Next .waiting .pending
  | refused : Next .waiting .failed
  | skipped : Next .pending .failed
  | used (r : ℕ) : Next .pending (.given r)
  | load (r : ℕ) : Next .pending (.loading r)
  | loaded (r : ℕ) : Next (.loading r) (.given r)
  | notLoaded (r : ℕ) : Next (.loading r) .failed
  | finished (r : ℕ) : Next (.given r) (.ended r)
  | processed (r : ℕ) : Next (.ended r) .processed

attribute [grind] Stage.Next

theorem Sched.Inv.next (h : s.Inv u) {a : Act} (hst : Server.step u s a = some s') (q : ℕ) :
    s'.stage q = s.stage q ∨ (s.stage q).Next (s'.stage q) := by
  have hloop := h.loopRequest
  have hqueued := h.queued.2
  have hfinished := h.finished.2
  have hfinishing := h.finishing
  cases a with
  | choose reload gpus => grind [Server.step, Sched.choose]
  | load outcome =>
      simp only [Server.step] at hst
      unfold Sched.load at hst
      split at hst
      · rename_i q' full hl
        have hq' := (hloop q' (by rw [hl]; rfl)).1
        cases outcome with
        | ok pid =>
            simp only [Option.ite_none_right_eq_some] at hst
            obtain ⟨r', hr'⟩ := stage_register hst.2 q
            grind
        | requiredFull =>
            simp only [Option.ite_none_right_eq_some] at hst
            obtain ⟨-, hst⟩ := hst
            split at hst
            · obtain rfl := Option.some.inj hst
              exact Or.inl rfl
            · obtain rfl := Option.some.inj hst
              grind
        | otherError =>
            simp only [Option.ite_none_right_eq_some, Option.some.injEq] at hst
            obtain ⟨-, rfl⟩ := hst
            grind
        | _ => grind
      · cases hst
  | findRunnerToUnload runner =>
      simp only [Server.step] at hst
      unfold Sched.findRunnerToUnload at hst
      grind
  | loadDone q ok pid => grind [Server.step, Sched.loadDone]
  | finish => grind [Server.step, Sched.finish]
  | expiredReceived =>
      refine Or.inl ?_
      simp only [Server.step, Sched.expiredReceived] at hst
      repeat' split at hst
      all_goals cases hst
      all_goals rfl
  | expirePending =>
      refine Or.inl ?_
      simp only [Server.step, Sched.expireNow] at hst
      repeat' split at hst
      all_goals cases hst
      all_goals rfl
  | fire r =>
      simp only [Server.step, Option.ite_none_right_eq_some, Option.some.injEq] at hst
      obtain ⟨-, rfl⟩ := hst
      exact Or.inl rfl
  | finishedReceived =>
      simp only [Server.step] at hst
      split at hst
      · rename_i q' rest _ hqueue
        obtain ⟨r, hr⟩ := hfinished q' (by rw [hqueue]; exact List.mem_cons_self)
        split at hst
        · grind
        · cases hst
          exact Or.inl rfl
      · cases hst
  | _ => grind [Server.step, PendingLoop.request]

/-- An answer, an error or a runner, is final. -/
theorem Stage.Next.answered {stage stage' : Stage} (h : Relation.ReflTransGen Next stage stage') :
    (stage = .failed → stage' = .failed) ∧ ∀ r, stage = .given r →
      stage' = .given r ∨ stage' = .ended r ∨ stage' = .processed := by
  induction h with
  | refl => exact ⟨id, fun r h => Or.inl h⟩
  | tail _ hnext ih =>
    constructor
    · intro hfailed
      rw [ih.1 hfailed] at hnext
      cases hnext
    · intro r hgiven
      rcases ih.2 r hgiven with rfl | rfl | rfl
      · cases hnext
        exact Or.inr (Or.inl rfl)
      · cases hnext
        exact Or.inr (Or.inr rfl)
      · cases hnext

/-- **Every request is answered at most once**: in every run of the guarded scheduler a request
goes on from stage to stage, and once it has an answer it gets no other one. -/
theorem answered_once (h : ((scheduler u).guard UnloadsIdle).Reachable s)
    (hrun : Relation.ReflTransGen (fun s s' => ∃ a, ((scheduler u).guard UnloadsIdle).step s a s') s s')
    (q : ℕ) : Relation.ReflTransGen Stage.Next (s.stage q) (s'.stage q) ∧
      (s.stage q = .failed → s'.stage q = .failed) ∧
      ∀ r, s.stage q = .given r →
        s'.stage q = .given r ∨ s'.stage q = .ended r ∨ s'.stage q = .processed := by
  have hstages : ((scheduler u).guard UnloadsIdle).Reachable s' ∧
      Relation.ReflTransGen Stage.Next (s.stage q) (s'.stage q) := by
    induction hrun with
    | refl => exact ⟨h, .refl⟩
    | tail _ hstep ih =>
      obtain ⟨hreach, hstages⟩ := ih
      obtain ⟨a, hstep⟩ := hstep
      refine ⟨.step hreach hstep, ?_⟩
      rcases (inv_of_guarded hreach).next hstep.2 q with heq | hnext
      · rwa [heq]
      · exact hstages.tail hnext
  exact ⟨hstages.2, Stage.Next.answered hstages.2⟩

theorem answered_once_loaded : ∃ s s', s.stage 0 = .given 0 ∧
    step oneModel s (.cancel 0) = some s' ∧
      (s'.stage 0 = .given 0 ∨ s'.stage 0 = .ended 0 ∨ s'.stage 0 = .processed) := by
  have hrun : ((run oneModel (initial oneModel) loadModel).bind fun s =>
      (step oneModel s (.cancel 0)).map fun s' => (s, s')).any
        (fun p => p.1.stage 0 = .given 0) = true := by decide
  obtain ⟨⟨s, s'⟩, hs, hgiven⟩ := (Option.any_eq_true _ _).mp hrun
  obtain ⟨s₁, hs₁, hstep⟩ := Option.bind_eq_some_iff.mp hs
  obtain ⟨s₂, hs₂, heq⟩ := Option.map_eq_some_iff.mp hstep
  cases heq
  have hreach : ((scheduler oneModel).guard UnloadsIdle).Reachable s := by
    refine reachable_of_run loadModel (fun a ha s s' hst => ⟨fun he => ?_, hst⟩) (.init rfl) hs₁
    subst he
    simp [loadModel] at ha
  have hgiven := of_decide_eq_true hgiven
  exact ⟨s, s', hgiven, hs₂,
    (answered_once hreach (.single ⟨.cancel 0, (by rintro ⟨⟩), hs₂⟩) 0).2.2 0 hgiven⟩

end Ollama.Server
