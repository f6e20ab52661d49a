import Ollama.Server.Scheduler
import Mathlib.Data.Set.Card

/-!
# Reference counting

A runner counts the requests that were given it and whose finished event has not
been processed, as long as nothing is unloaded between a check and its use.
-/

namespace Ollama.Server

open Lib List Set

/-! ## §1  The invariant -/

/-- The runner a request refers to. -/
def Stage.runner : Stage → Option ℕ
  | .looked r => some r
  | .checked r => some r
  | .loading r => some r
  | .given r => some r
  | .ended r => some r
  | _ => none

/-- The request was given the runner, and its finished event is not processed. -/
def Stage.Holds (stage : Stage) (r : ℕ) : Prop := stage = .given r ∨ stage = .ended r

/-- The request `processPending` is at. -/
def PendingLoop.request : PendingLoop → Option ℕ
  | .idle => none
  | .attempt q => some q
  | .found q _ _ => some q
  | .use q _ => some q
  | .load q _ => some q
  | .evict q => some q
  | .expire q _ => some q
  | .unloading q => some q

/-- The runner `processPending` has found for its request. -/
def PendingLoop.runner : PendingLoop → Option (ℕ × ℕ)
  | .found q (some r) _ => some (q, r)
  | .use q r => some (q, r)
  | _ => none

/-- The request for whose model `processPending` has found no runner. -/
def PendingLoop.missing : PendingLoop → Option ℕ
  | .found q none _ => some q
  | .load q _ => some q
  | _ => none

namespace Sched

def holders (s : Sched) (r : ℕ) : Set ℕ := {q | (s.stage q).Holds r}

/-- What holds as long as nothing is unloaded between a check and its use. -/
structure Inv (u : Setup) (s : Sched) : Prop where
  loaded_iff : ∀ p r, s.loaded p = some r ↔
    r < s.next ∧ (s.runners r).modelPath = p ∧ (s.runners r).closed = false
  unborn : ∀ r, s.next ≤ r → (s.runners r).refCount = 0
  finite : ∀ r, (s.holders r).Finite
  counted : ∀ r, (s.runners r).refCount = (s.holders r).ncard
  busy : ∀ r, 0 < (s.runners r).refCount ∨ (s.runners r).locked = true →
    (s.runners r).closed = false
  stage : ∀ q r, (s.stage q).runner = some r → r < s.next ∧ (s.runners r).modelPath = u.modelPath q
  checked : ∀ q r, s.stage q = .checked r → (s.runners r).closed = false
  loading : ∀ q r, s.stage q = .loading r → (s.runners r).locked = true
  loading_unique : ∀ q q' r, s.stage q = .loading r → s.stage q' = .loading r → q = q'
  loopRequest : ∀ q, s.pendingLoop.request = some q → s.stage q = .pending ∧ q ∉ s.pendingReqCh
  loopRunner : ∀ q r, s.pendingLoop.runner = some (q, r) →
    r < s.next ∧ (s.runners r).modelPath = u.modelPath q
  loopUse : ∀ q r, s.pendingLoop = .use q r → (s.runners r).closed = false
  loopMissing : ∀ q, s.pendingLoop.missing = some q → s.loaded (u.modelPath q) = none
  queued : s.pendingReqCh.Nodup ∧ ∀ q ∈ s.pendingReqCh, s.stage q = .pending
  finished : s.finishedReqCh.Nodup ∧ ∀ q ∈ s.finishedReqCh, ∃ r, s.stage q = .ended r
  finishing : ∀ q r, s.completedLoop = .finishing q r → s.stage q = .ended r ∧ q ∉ s.finishedReqCh

variable {u : Setup} {s : Sched}

@[simp] theorem setStage_self (q : ℕ) (stage : Stage) : (s.setStage q stage).stage q = stage :=
  Function.update_self _ _ _

theorem setStage_of_ne {q q' : ℕ} (h : q' ≠ q) (stage : Stage) :
    (s.setStage q stage).stage q' = s.stage q' := Function.update_of_ne h _ _

@[simp] theorem setRunner_self (r : ℕ) (runner : RunnerRef) :
    (s.setRunner r runner).runners r = runner := Function.update_self _ _ _

theorem setRunner_of_ne {r r' : ℕ} (h : r' ≠ r) (runner : RunnerRef) :
    (s.setRunner r runner).runners r' = s.runners r' := Function.update_of_ne h _ _

/-! ## §2  Moves of requests and runners -/

variable {runner : RunnerRef}

theorem setRunner_field {α : Type*} (f : RunnerRef → α) {r : ℕ}
    (h : f runner = f (s.runners r)) (r' : ℕ) :
    f ((s.setRunner r runner).runners r') = f (s.runners r') := by
  by_cases he : r' = r
  · rw [he, setRunner_self, h]
  · rw [setRunner_of_ne he]

section

variable (h : Inv u s)
include h

theorem Inv.frame (loadedCount : ℕ) (activeLoading : Option String)
    (done : ℕ → Bool) (expiredCh : List ℕ) (unloadedCh maxRunners : ℕ) (fired resend : List ℕ) :
    Inv u { s with loadedCount, activeLoading, done, expiredCh, unloadedCh, maxRunners, fired,
                   resend } :=
  ⟨h.loaded_iff, h.unborn, h.finite, h.counted, h.busy, h.stage, h.checked, h.loading,
    h.loading_unique, h.loopRequest, h.loopRunner, h.loopUse, h.loopMissing, h.queued, h.finished,
    h.finishing⟩

/-- A runner whose path, count and closing stay, and that is not unlocked while a
request waits for it. -/
theorem Inv.setRunner {r : ℕ} (hp : runner.modelPath = (s.runners r).modelPath)
    (hr : runner.refCount = (s.runners r).refCount)
    (hl : runner.locked = true → (s.runners r).locked = true)
    (hl' : ∀ q, s.stage q = .loading r → runner.locked = true)
    (hc : runner.closed = (s.runners r).closed) : Inv u (s.setRunner r runner) := by
  have hpath := setRunner_field RunnerRef.modelPath hp
  have hcount := setRunner_field RunnerRef.refCount hr
  have hclosed := setRunner_field RunnerRef.closed hc
  exact {
    loaded_iff := fun p r' => by rw [hpath, hclosed]; exact h.loaded_iff p r'
    unborn := fun r' hr' => by rw [hcount]; exact h.unborn r' hr'
    finite := h.finite
    counted := fun r' => by rw [hcount]; exact h.counted r'
    busy := fun r' hb => by
      rw [hcount] at hb
      rw [hclosed]
      refine h.busy r' (hb.imp_right fun hlock => ?_)
      by_cases he : r' = r
      · rw [he, setRunner_self] at hlock
        exact he ▸ hl hlock
      · rwa [setRunner_of_ne he] at hlock
    stage := fun q r' hq => by rw [hpath]; exact h.stage q r' hq
    checked := fun q r' hq => by rw [hclosed]; exact h.checked q r' hq
    loading := fun q r' hq => by
      by_cases he : r' = r
      · rw [he, setRunner_self]
        exact hl' q (he ▸ hq)
      · rw [setRunner_of_ne he]
        exact h.loading q r' hq
    loading_unique := h.loading_unique
    loopRequest := h.loopRequest
    loopRunner := fun q r' hq => by rw [hpath]; exact h.loopRunner q r' hq
    loopUse := fun q r' hq => by rw [hclosed]; exact h.loopUse q r' hq
    loopMissing := h.loopMissing
    queued := h.queued
    finished := h.finished
    finishing := h.finishing }

theorem Inv.touch {r : ℕ} (hp : runner.modelPath = (s.runners r).modelPath)
    (hr : runner.refCount = (s.runners r).refCount) (hl : runner.locked = (s.runners r).locked)
    (hc : runner.closed = (s.runners r).closed) : Inv u (s.setRunner r runner) :=
  h.setRunner hp hr (fun hlock => hl ▸ hlock) (fun q hq => hl.trans (h.loading q r hq)) hc

theorem Inv.setLoop {loop : PendingLoop}
    (hrequest : ∀ q, loop.request = some q → s.stage q = .pending ∧ q ∉ s.pendingReqCh)
    (hrunner : ∀ q r, loop.runner = some (q, r) →
      r < s.next ∧ (s.runners r).modelPath = u.modelPath q)
    (huse : ∀ q r, loop = .use q r → (s.runners r).closed = false)
    (hmissing : ∀ q, loop.missing = some q → s.loaded (u.modelPath q) = none) :
    Inv u { s with pendingLoop := loop } :=
  ⟨h.loaded_iff, h.unborn, h.finite, h.counted, h.busy, h.stage, h.checked, h.loading,
    h.loading_unique, hrequest, hrunner, huse, hmissing, h.queued, h.finished, h.finishing⟩

/-- `processPending` goes on with its request, without a runner. -/
theorem Inv.keepRequest {loop : PendingLoop} (q : ℕ)
    (hq : s.pendingLoop.request = some q) (hrequest : loop.request = some q)
    (hrunner : loop.runner = none) (hmissing : loop.missing = none) :
    Inv u { s with pendingLoop := loop } := by
  refine h.setLoop (fun q' hq' => ?_) (fun q' r hq' => ?_) (fun q' r hq' => ?_) fun q' hq' => ?_
  · rw [hrequest, Option.some.injEq] at hq'
    exact hq' ▸ h.loopRequest q hq
  · rw [hrunner] at hq'
    cases hq'
  · rw [hq'] at hrunner
    cases hrunner
  · rw [hmissing] at hq'
    cases hq'

theorem Inv.idle : Inv u { s with pendingLoop := .idle } :=
  h.setLoop (fun _ hq => by cases hq) (fun _ _ hq => by cases hq) (fun _ _ hq => by cases hq)
    fun _ hq => by cases hq

theorem Inv.setCompleted {loop : CompletedLoop} (hloop : ∀ q r, loop ≠ .finishing q r) :
    Inv u { s with completedLoop := loop } :=
  ⟨h.loaded_iff, h.unborn, h.finite, h.counted, h.busy, h.stage, h.checked, h.loading,
    h.loading_unique, h.loopRequest, h.loopRunner, h.loopUse, h.loopMissing, h.queued, h.finished,
    fun q r hq => absurd hq (hloop q r)⟩

/-- A request that holds no runner before or after. -/
theorem Inv.setStage {q : ℕ} {stage : Stage}
    (hold : ∀ r, ¬(s.stage q).Holds r) (hnew : ∀ r, ¬stage.Holds r)
    (hrunner : ∀ r, stage.runner = some r → r < s.next ∧ (s.runners r).modelPath = u.modelPath q)
    (hchecked : ∀ r, stage = .checked r → (s.runners r).closed = false)
    (hloading : ∀ r, stage ≠ .loading r)
    (hloop : s.pendingLoop.request = some q → stage = .pending)
    (hqueue : q ∈ s.pendingReqCh → stage = .pending) : Inv u (s.setStage q stage) := by
  have hholders : ∀ r, (s.setStage q stage).holders r = s.holders r := by
    intro r
    ext q'
    by_cases he : q' = q
    · unfold holders
      rw [he, mem_ofPred_eq, mem_ofPred_eq, setStage_self]
      exact iff_of_false (hnew r) (hold r)
    · unfold holders
      rw [mem_ofPred_eq, mem_ofPred_eq, setStage_of_ne he]
  have hended : ∀ q' r, s.stage q' = .ended r → q' ≠ q := fun q' r hq' he =>
    hold r (Or.inr (he ▸ hq'))
  refine ⟨h.loaded_iff, h.unborn, fun r => (hholders r).symm ▸ h.finite r,
    fun r => (hholders r).symm ▸ h.counted r, h.busy, fun q' r hq' => ?_, fun q' r hq' => ?_,
    fun q' r hq' => ?_, fun q₁ q₂ r h₁ h₂ => ?_, fun q' hq' => ?_, h.loopRunner, h.loopUse,
    h.loopMissing, ⟨h.queued.1, fun q' hq' => ?_⟩, ⟨h.finished.1, fun q' hq' => ?_⟩,
    fun q' r hq' => ?_⟩
  · by_cases he : q' = q
    · subst he
      rw [setStage_self] at hq'
      exact hrunner r hq'
    · rw [setStage_of_ne he] at hq'
      exact h.stage q' r hq'
  · by_cases he : q' = q
    · subst he
      rw [setStage_self] at hq'
      exact hchecked r hq'
    · rw [setStage_of_ne he] at hq'
      exact h.checked q' r hq'
  · by_cases he : q' = q
    · subst he
      rw [setStage_self] at hq'
      exact absurd hq' (hloading r)
    · rw [setStage_of_ne he] at hq'
      exact h.loading q' r hq'
  · have hne : ∀ q', (s.setStage q stage).stage q' = .loading r → q' ≠ q := by
      intro q' hq' he
      rw [he, setStage_self] at hq'
      exact hloading r hq'
    have h₁' := h₁
    have h₂' := h₂
    rw [setStage_of_ne (hne q₁ h₁)] at h₁'
    rw [setStage_of_ne (hne q₂ h₂)] at h₂'
    exact h.loading_unique q₁ q₂ r h₁' h₂'
  · refine ⟨?_, (h.loopRequest q' hq').2⟩
    by_cases he : q' = q
    · rw [he, setStage_self]
      exact hloop (he ▸ hq')
    · rw [setStage_of_ne he]
      exact (h.loopRequest q' hq').1
  · by_cases he : q' = q
    · rw [he, setStage_self]
      exact hqueue (he ▸ hq')
    · rw [setStage_of_ne he]
      exact h.queued.2 q' hq'
  · obtain ⟨r, hr⟩ := h.finished.2 q' hq'
    exact ⟨r, (setStage_of_ne (hended q' r hr) stage).trans hr⟩
  · obtain ⟨hr, hmem⟩ := h.finishing q' r hq'
    exact ⟨(setStage_of_ne (hended q' r hr) stage).trans hr, hmem⟩

theorem Inv.not_pending {q : ℕ} (hq : s.stage q ≠ .pending) :
    s.pendingLoop.request ≠ some q ∧ q ∉ s.pendingReqCh :=
  ⟨fun hr => hq (h.loopRequest q hr).1, fun hm => hq (h.queued.2 q hm)⟩

/-- The end of the queue. -/
theorem Inv.enqueue {q : ℕ} (hq : s.stage q = .pending)
    (hloop : s.pendingLoop.request ≠ some q) (hqueue : q ∉ s.pendingReqCh) :
    Inv u { s with pendingReqCh := s.pendingReqCh ++ [q] } := by
  refine ⟨h.loaded_iff, h.unborn, h.finite, h.counted, h.busy, h.stage, h.checked, h.loading,
    h.loading_unique, fun q' hq' => ⟨(h.loopRequest q' hq').1, fun hmem => ?_⟩, h.loopRunner,
    h.loopUse, h.loopMissing, ⟨?_, fun q' hq' => ?_⟩, h.finished, h.finishing⟩
  · obtain hmem | hmem := mem_append.mp hmem
    · exact (h.loopRequest q' hq').2 hmem
    · exact hloop (mem_singleton.mp hmem ▸ hq')
  · exact nodup_append'.mpr ⟨h.queued.1, nodup_singleton q, disjoint_singleton.mpr hqueue⟩
  · obtain hmem | hmem := mem_append.mp hq'
    · exact h.queued.2 q' hmem
    · exact (mem_singleton.mp hmem).symm ▸ hq

/-- The front of the queue. -/
theorem Inv.dequeue {q : ℕ} {rest : List ℕ} (hqueue : s.pendingReqCh = q :: rest) :
    Inv u { s with pendingReqCh := rest } ∧ s.stage q = .pending ∧ q ∉ rest ∧
      s.pendingLoop.request ≠ some q := by
  have hnodup := h.queued.1
  rw [hqueue, nodup_cons] at hnodup
  have hsub : ∀ q' ∈ rest, q' ∈ s.pendingReqCh := fun q' hq' =>
    hqueue ▸ mem_cons_of_mem q hq'
  have hhead : q ∈ s.pendingReqCh := hqueue ▸ mem_cons_self
  refine ⟨⟨h.loaded_iff, h.unborn, h.finite, h.counted, h.busy, h.stage, h.checked, h.loading,
    h.loading_unique,
    fun q' hq' => ⟨(h.loopRequest q' hq').1, fun hmem => (h.loopRequest q' hq').2 (hsub q' hmem)⟩,
    h.loopRunner, h.loopUse, h.loopMissing,
    ⟨hnodup.2, fun q' hq' => h.queued.2 q' (hsub q' hq')⟩, h.finished, h.finishing⟩,
    h.queued.2 q hhead, hnodup.1, fun hq => (h.loopRequest q hq).2 hhead⟩

end

/-! ## §3  Moves of holders -/

variable {q r : ℕ}

/-- A request takes or leaves a runner, which counts it. -/
theorem Inv.count (h : Inv u s) {stage : Stage}
    (hothers : ∀ r', r' ≠ r → ((s.stage q).Holds r' ↔ stage.Holds r'))
    (hp : runner.modelPath = (s.runners r).modelPath) (hc : runner.closed = (s.runners r).closed)
    (hl : ∀ q', q' ≠ q → s.stage q' = .loading r → runner.locked = true)
    (hr : runner.refCount = ((s.setStage q stage).holders r).ncard) (hborn : r < s.next)
    (hbusy : 0 < runner.refCount ∨ runner.locked = true → runner.closed = false)
    (hstage : ∀ r', stage.runner = some r' → stage.Holds r' ∧ r' < s.next ∧
      (s.runners r').modelPath = u.modelPath q)
    (hloop : s.pendingLoop.request ≠ some q) (hqueue : q ∉ s.pendingReqCh)
    (hfinished : q ∉ s.finishedReqCh) (hfinishing : ∀ r', s.completedLoop ≠ .finishing q r') :
    Inv u ((s.setRunner r runner).setStage q stage) := by
  have hpath := setRunner_field RunnerRef.modelPath hp
  have hclosed := setRunner_field RunnerRef.closed hc
  have hholders : ∀ r', r' ≠ r → (s.setStage q stage).holders r' = s.holders r' := by
    intro r' hr'
    ext q'
    unfold holders
    rw [mem_ofPred_eq, mem_ofPred_eq]
    by_cases he : q' = q
    · rw [he, setStage_self]
      exact (hothers r' hr').symm
    · rw [setStage_of_ne he]
  have hsub : (s.setStage q stage).holders r ⊆ insert q (s.holders r) := by
    intro q' hq'
    by_cases he : q' = q
    · exact Or.inl he
    · unfold holders at hq'
      rw [mem_ofPred_eq, setStage_of_ne he] at hq'
      exact Or.inr hq'
  have hkept : ∀ q' r', (s.setStage q stage).stage q' = .checked r' ∨
      (s.setStage q stage).stage q' = .loading r' → q' ≠ q := by
    rintro q' r' hq' rfl
    rw [setStage_self] at hq'
    obtain hq' | hq' := hq'
    all_goals
      obtain ⟨hheld, -⟩ := hstage r' (by rw [hq']; rfl)
      rw [hq'] at hheld
      obtain hheld | hheld := hheld <;> cases hheld
  have hended : ∀ q' r', q' ≠ q → s.stage q' = .ended r' →
      (s.setStage q stage).stage q' = .ended r' := fun q' r' he hq' =>
    (setStage_of_ne he stage).trans hq'
  refine ⟨fun p r' => ?_, fun r' hr' => ?_, fun r' => ?_, fun r' => ?_, fun r' hb => ?_,
    fun q' r' hq' => ?_, fun q' r' hq' => ?_, fun q' r' hq' => ?_, fun q₁ q₂ r' h₁ h₂ => ?_,
    fun q' hq' => ⟨?_, (h.loopRequest q' hq').2⟩, fun q' r' hq' => ?_, fun q' r' hq' => ?_,
    h.loopMissing, ⟨h.queued.1, fun q' hq' => ?_⟩, ⟨h.finished.1, fun q' hq' => ?_⟩,
    fun q' r' hq' => ?_⟩
  -- the runners
  · show s.loaded p = some r' ↔ r' < s.next ∧ ((s.setRunner r runner).runners r').modelPath = p ∧
      ((s.setRunner r runner).runners r').closed = false
    rw [hpath, hclosed]
    exact h.loaded_iff p r'
  · have he : r' ≠ r := fun he => Nat.not_le.mpr hborn (he ▸ hr')
    show ((s.setRunner r runner).runners r').refCount = 0
    rw [setRunner_of_ne he]
    exact h.unborn r' hr'
  · by_cases he : r' = r
    · rw [he]
      exact ((h.finite r).insert q).subset hsub
    · exact (hholders r' he).symm ▸ h.finite r'
  · show ((s.setRunner r runner).runners r').refCount = ((s.setStage q stage).holders r').ncard
    by_cases he : r' = r
    · rw [he, setRunner_self, hr]
    · rw [setRunner_of_ne he, hholders r' he]
      exact h.counted r'
  · change 0 < ((s.setRunner r runner).runners r').refCount ∨
      ((s.setRunner r runner).runners r').locked = true at hb
    show ((s.setRunner r runner).runners r').closed = false
    by_cases he : r' = r
    · rw [he, setRunner_self] at hb ⊢
      exact hbusy hb
    · rw [setRunner_of_ne he] at hb ⊢
      exact h.busy r' hb
  -- the requests
  · show r' < s.next ∧ ((s.setRunner r runner).runners r').modelPath = u.modelPath q'
    rw [hpath]
    by_cases he : q' = q
    · subst he
      exact (hstage r' (by rwa [← setStage_self (s := s) q' stage])).2
    · exact h.stage q' r' (by rwa [← setStage_of_ne (s := s) he stage])
  · show ((s.setRunner r runner).runners r').closed = false
    rw [hclosed]
    refine h.checked q' r' ?_
    rwa [← setStage_of_ne (s := s) (hkept q' r' (Or.inl hq')) stage]
  · have he := hkept q' r' (Or.inr hq')
    have hq'' : s.stage q' = .loading r' := by rwa [← setStage_of_ne (s := s) he stage]
    show ((s.setRunner r runner).runners r').locked = true
    by_cases hr' : r' = r
    · rw [hr', setRunner_self]
      exact hl q' he (hr' ▸ hq'')
    · rw [setRunner_of_ne hr']
      exact h.loading q' r' hq''
  · refine h.loading_unique q₁ q₂ r' ?_ ?_
    · rwa [← setStage_of_ne (s := s) (hkept q₁ r' (Or.inr h₁)) stage]
    · rwa [← setStage_of_ne (s := s) (hkept q₂ r' (Or.inr h₂)) stage]
  -- the loops and the queues
  · have he : q' ≠ q := fun he => hloop (he ▸ hq')
    exact (setStage_of_ne he stage).trans (h.loopRequest q' hq').1
  · show r' < s.next ∧ ((s.setRunner r runner).runners r').modelPath = u.modelPath q'
    rw [hpath]
    exact h.loopRunner q' r' hq'
  · show ((s.setRunner r runner).runners r').closed = false
    rw [hclosed]
    exact h.loopUse q' r' hq'
  · have he : q' ≠ q := fun he => hqueue (he ▸ hq')
    exact (setStage_of_ne he stage).trans (h.queued.2 q' hq')
  · obtain ⟨r', hr'⟩ := h.finished.2 q' hq'
    exact ⟨r', hended q' r' (fun he => hfinished (he ▸ hq')) hr'⟩
  · obtain ⟨hr', hmem⟩ := h.finishing q' r' hq'
    exact ⟨hended q' r' (fun he => hfinishing r' (he ▸ hq')) hr', hmem⟩

/-- A runner is handed out. -/
theorem Inv.give (h : Inv u s)
    (hfree : ∀ r', ¬(s.stage q).Holds r') (hloop : s.pendingLoop.request ≠ some q)
    (hqueue : q ∉ s.pendingReqCh) (hborn : r < s.next) (hpath : (s.runners r).modelPath = u.modelPath q)
    (hopen : (s.runners r).closed = false) (hp : runner.modelPath = (s.runners r).modelPath)
    (hr : runner.refCount = (s.runners r).refCount + 1)
    (hl : ∀ q', q' ≠ q → s.stage q' = .loading r → runner.locked = true)
    (hc : runner.closed = (s.runners r).closed) :
    Inv u ((s.setRunner r runner).setStage q (.given r)) := by
  have hnot : q ∉ s.holders r := hfree r
  have hholders : (s.setStage q (.given r)).holders r = insert q (s.holders r) := by
    ext q'
    by_cases he : q' = q
    · rw [he]
      exact iff_of_true (Or.inl (setStage_self q _)) (mem_insert q _)
    · rw [mem_insert_iff, or_iff_right he]
      unfold holders
      rw [mem_ofPred_eq, mem_ofPred_eq, setStage_of_ne he]
  refine h.count (fun r' hr' => ?_) hp hc hl ?_ hborn (fun _ => hc.trans hopen) (fun r' hr' => ?_)
    hloop hqueue (fun hmem => ?_) fun r' hr' => ?_
  · refine iff_of_false (hfree r') ?_
    rintro (he | he)
    · exact hr' (Stage.given.inj he).symm
    · cases he
  · rw [hr, hholders, ncard_insert_of_notMem hnot (h.finite r), h.counted r]
  · obtain rfl : r = r' := Option.some.inj hr'
    exact ⟨Or.inl rfl, hborn, hpath⟩
  · obtain ⟨r', hr'⟩ := h.finished.2 q hmem
    exact hfree r' (Or.inr hr')
  · exact hfree r' (Or.inr (h.finishing q r' hr').1)

/-- The end of a request's context is told. -/
theorem Inv.tell (h : Inv u s) (hq : s.stage q = .given r) :
    Inv u ({ s with finishedReqCh := s.finishedReqCh ++ [q] }.setStage q (.ended r)) := by
  have hfinished : q ∉ s.finishedReqCh := by
    intro hmem
    obtain ⟨r', hr'⟩ := h.finished.2 q hmem
    rw [hq] at hr'
    cases hr'
  have hfinishing : ∀ r', s.completedLoop ≠ .finishing q r' := by
    intro r' hr'
    have := (h.finishing q r' hr').1
    rw [hq] at this
    cases this
  have hholds : ∀ r', (s.stage q).Holds r' ↔ (Stage.ended r).Holds r' := by
    intro r'
    rw [hq]
    constructor
    · rintro (he | he)
      · exact Or.inr (by rw [Stage.given.inj he])
      · cases he
    · rintro (he | he)
      · cases he
      · exact Or.inl (by rw [Stage.ended.inj he])
  have hholders : (s.setStage q (.ended r)).holders r = s.holders r := by
    ext q'
    unfold holders
    rw [mem_ofPred_eq, mem_ofPred_eq]
    by_cases he : q' = q
    · rw [he, setStage_self]
      exact (hholds r).symm
    · rw [setStage_of_ne he]
  have hset : s.setRunner r (s.runners r) = s := by
    unfold Sched.setRunner
    rw [Function.update_eq_self]
  obtain ⟨hborn, hpath⟩ := h.stage q r (by rw [hq]; rfl)
  obtain ⟨hloop, hqueue⟩ := h.not_pending (q := q) (by rw [hq]; exact fun he => by cases he)
  have h' : Inv u ((s.setRunner r (s.runners r)).setStage q (.ended r)) := by
    refine h.count (fun r' _ => hholds r') rfl rfl (fun q' _ hq' => h.loading q' r hq')
      (by rw [hholders]; exact h.counted r) hborn (h.busy r) (fun r' hr' => ?_) hloop hqueue
      hfinished hfinishing
    obtain rfl : r = r' := Option.some.inj hr'
    exact ⟨Or.inr rfl, hborn, hpath⟩
  rw [hset] at h'
  refine ⟨h'.loaded_iff, h'.unborn, h'.finite, h'.counted, h'.busy, h'.stage, h'.checked,
    h'.loading, h'.loading_unique, h'.loopRequest, h'.loopRunner, h'.loopUse, h'.loopMissing,
    h'.queued, ⟨?_, fun q' hq' => ?_⟩, fun q' r' hq' => ⟨(h'.finishing q' r' hq').1, fun hmem => ?_⟩⟩
  · exact nodup_append'.mpr ⟨h.finished.1, nodup_singleton q, disjoint_singleton.mpr hfinished⟩
  · obtain hmem | hmem := mem_append.mp hq'
    · exact h'.finished.2 q' hmem
    · exact ⟨r, by rw [mem_singleton.mp hmem]; exact setStage_self q _⟩
  · obtain hmem | hmem := mem_append.mp hmem
    · exact (h.finishing q' r' hq').2 hmem
    · exact hfinishing r' (mem_singleton.mp hmem ▸ hq')

/-- A finished event is received: the runner in the map is the one the request was
given. -/
theorem Inv.receiveFinished (h : Inv u s) {q : ℕ} {rest : List ℕ}
    (hqueue : s.finishedReqCh = q :: rest) :
    ∃ r, s.loaded (u.modelPath q) = some r ∧
      Inv u { s with finishedReqCh := rest, completedLoop := .finishing q r } := by
  have hnodup := h.finished.1
  rw [hqueue, nodup_cons] at hnodup
  have hsub : ∀ q' ∈ rest, q' ∈ s.finishedReqCh := fun q' hq' =>
    hqueue ▸ mem_cons_of_mem q hq'
  obtain ⟨r, hr⟩ := h.finished.2 q (hqueue ▸ mem_cons_self)
  obtain ⟨hborn, hpath⟩ := h.stage q r (by rw [hr]; rfl)
  have hheld : q ∈ s.holders r := Or.inr hr
  have hpos : 0 < (s.runners r).refCount := by
    rw [h.counted r]
    exact (ncard_pos (h.finite r)).mpr ⟨q, hheld⟩
  refine ⟨r, (h.loaded_iff _ r).mpr ⟨hborn, hpath, h.busy r (Or.inl hpos)⟩, h.loaded_iff, h.unborn,
    h.finite, h.counted, h.busy, h.stage, h.checked, h.loading, h.loading_unique, h.loopRequest,
    h.loopRunner, h.loopUse, h.loopMissing, h.queued,
    ⟨hnodup.2, fun q' hq' => h.finished.2 q' (hsub q' hq')⟩, fun q' r' hq' => ?_⟩
  obtain ⟨rfl, rfl⟩ := CompletedLoop.finishing.inj hq'
  exact ⟨hr, hnodup.1⟩

theorem Inv.finishing_pos (h : Inv u s) (hq : s.completedLoop = .finishing q r) :
    0 < (s.runners r).refCount := by
  rw [h.counted r]
  exact (ncard_pos (h.finite r)).mpr ⟨q, Or.inr (h.finishing q r hq).1⟩

/-- A finished event is processed. -/
theorem Inv.leave (h : Inv u s) (hq : s.completedLoop = .finishing q r)
    (hp : runner.modelPath = (s.runners r).modelPath)
    (hr : runner.refCount = (s.runners r).refCount - 1) (hl : runner.locked = (s.runners r).locked)
    (hc : runner.closed = (s.runners r).closed) :
    Inv u (({ s with completedLoop := .idle }.setRunner r runner).setStage q .processed) := by
  obtain ⟨hended, hfinished⟩ := h.finishing q r hq
  obtain ⟨hloop, hqueue⟩ := h.not_pending (q := q) (by rw [hended]; exact fun he => by cases he)
  have hholders : (s.setStage q .processed).holders r = s.holders r \ {q} := by
    ext q'
    by_cases he : q' = q
    · subst he
      refine iff_of_false ?_ fun hmem => hmem.2 rfl
      rintro (he | he) <;> rw [setStage_self] at he <;> cases he
    · rw [mem_sdiff, mem_singleton_iff, and_iff_left he]
      unfold holders
      rw [mem_ofPred_eq, mem_ofPred_eq, setStage_of_ne he]
  have hidle : Inv u { s with completedLoop := .idle } := h.setCompleted fun _ _ he => by cases he
  refine hidle.count (fun r' hr' => ?_) hp hc (fun q' _ hq' => hl.trans (h.loading q' r hq')) ?_
    (h.stage q r (by rw [hended]; rfl)).1
    (fun hb => hc.trans (h.busy r (hb.imp (fun hpos => ?_) fun hlock => hl ▸ hlock)))
    (fun r' hr' => by cases hr') hloop hqueue hfinished fun r' he => by cases he
  · refine iff_of_false ?_ ?_
    · rw [hended]
      rintro (he | he)
      · cases he
      · exact hr' (Stage.ended.inj he).symm
    · rintro (he | he) <;> cases he
  · show runner.refCount = ((s.setStage q .processed).holders r).ncard
    have hmem : q ∈ s.holders r := Or.inr hended
    rw [hr, hholders, ncard_sdiff_singleton_of_mem hmem, h.counted r]
  · rw [hr] at hpos
    exact Nat.lt_of_lt_of_le hpos (Nat.sub_le _ 1)

/-! ## §4  The map -/

/-- A runner that nobody holds or is about to take is unloaded. -/
theorem Inv.unload (h : Inv u s) {r : ℕ} {loaded : String → Option ℕ}
    (hcount : (s.runners r).refCount = 0) (hlocked : (s.runners r).locked = false)
    (hloaded : ∀ p r', loaded p = some r' ↔ s.loaded p = some r' ∧ r' ≠ r)
    (hchecked : ∀ q, s.stage q ≠ .checked r) (huse : ∀ q, s.pendingLoop ≠ .use q r) :
    Inv u { s.setRunner r (s.runners r).unload with loaded := loaded } := by
  have hpath : ∀ r', ((s.setRunner r (s.runners r).unload).runners r').modelPath =
      (s.runners r').modelPath := setRunner_field RunnerRef.modelPath rfl
  have hcounts : ∀ r', ((s.setRunner r (s.runners r).unload).runners r').refCount =
      (s.runners r').refCount := setRunner_field RunnerRef.refCount rfl
  have hlocks : ∀ r', ((s.setRunner r (s.runners r).unload).runners r').locked =
      (s.runners r').locked := setRunner_field RunnerRef.locked rfl
  have hopen : ∀ r', r' ≠ r → (s.runners r').closed = false →
      ((s.setRunner r (s.runners r).unload).runners r').closed = false := by
    intro r' he hr'
    rw [setRunner_of_ne he]
    exact hr'
  refine ⟨fun p r' => ?_, fun r' hr' => ?_, h.finite, fun r' => ?_, fun r' hb => ?_,
    fun q r' hq => ?_, fun q r' hq => ?_, fun q r' hq => ?_, h.loading_unique, h.loopRequest,
    fun q r' hq => ?_, fun q r' hq => ?_, fun q hq => ?_, h.queued, h.finished, h.finishing⟩
  · rw [hloaded, h.loaded_iff]
    show _ ↔ r' < s.next ∧ ((s.setRunner r (s.runners r).unload).runners r').modelPath = p ∧
      ((s.setRunner r (s.runners r).unload).runners r').closed = false
    by_cases he : r' = r
    · rw [he, setRunner_self]
      refine iff_of_false (fun hr' => hr'.2 rfl) fun hr' => ?_
      cases hr'.2.2
    · rw [setRunner_of_ne he, and_iff_left he]
  · rw [hcounts]
    exact h.unborn r' hr'
  · rw [hcounts]
    exact h.counted r'
  · rw [hcounts, hlocks] at hb
    refine hopen r' (fun he => ?_) (h.busy r' hb)
    rw [he, hcount, hlocked] at hb
    obtain hb | hb := hb <;> cases hb
  · rw [hpath]
    exact h.stage q r' hq
  · exact hopen r' (fun he => hchecked q (he ▸ hq)) (h.checked q r' hq)
  · rw [hlocks]
    exact h.loading q r' hq
  · rw [hpath]
    exact h.loopRunner q r' hq
  · exact hopen r' (fun he => huse q (he ▸ hq)) (h.loopUse q r' hq)
  rw [Option.eq_none_iff_forall_ne_some]
  intro r' hr'
  have hr'' := ((hloaded _ r').mp hr').1
  rw [h.loopMissing q hq] at hr''
  cases hr''

/-- A runner is entered in the map. -/
theorem Inv.register (h : Inv u s) {q : ℕ} (hq : s.stage q = .pending) (hqueue : q ∉ s.pendingReqCh)
    (hloop : s.pendingLoop = .idle) (hmissing : s.loaded (u.modelPath q) = none)
    (hp : runner.modelPath = u.modelPath q) (hr : runner.refCount = 0)
    (hl : runner.locked = true) (hc : runner.closed = false) :
    Inv u ({ s with
      loaded := Function.update s.loaded (u.modelPath q) (some s.next)
      next := s.next + 1 }.setRunner s.next runner |>.setStage q (.loading s.next)) := by
  have hold : ∀ r, r < s.next → (s.setRunner s.next runner).runners r = s.runners r := fun r hr' =>
    setRunner_of_ne (Nat.ne_of_lt hr') runner
  have hnew : (s.setRunner s.next runner).runners s.next = runner := setRunner_self _ _
  have hstage : ∀ q' stage, (s.setStage q (.loading s.next)).stage q' = stage →
      stage ≠ .loading s.next → q' ≠ q ∧ s.stage q' = stage := by
    intro q' stage hq' hstage
    have he : q' ≠ q := by
      rintro rfl
      rw [setStage_self] at hq'
      exact hstage hq'.symm
    exact ⟨he, by rwa [setStage_of_ne he] at hq'⟩
  have hholders : ∀ r, (s.setStage q (.loading s.next)).holders r = s.holders r := by
    intro r
    ext q'
    by_cases he : q' = q
    · unfold holders
      rw [he, mem_ofPred_eq, mem_ofPred_eq, setStage_self, hq]
      refine iff_of_false ?_ ?_ <;> rintro (he | he) <;> cases he
    · unfold holders
      rw [mem_ofPred_eq, mem_ofPred_eq, setStage_of_ne he]
  have hnone : s.holders s.next = ∅ := by
    rw [← ncard_eq_zero (h.finite _), ← h.counted, h.unborn s.next le_rfl]
  have hunborn : ∀ q', s.stage q' ≠ .loading s.next := by
    intro q' hq'
    exact Nat.lt_irrefl _ (h.stage q' s.next (by rw [hq']; rfl)).1
  refine ⟨fun p r => ?_, fun r hr' => ?_, fun r => ?_, fun r => ?_, fun r hb => ?_,
    fun q' r hq' => ?_, fun q' r hq' => ?_, fun q' r hq' => ?_, fun q₁ q₂ r h₁ h₂ => ?_,
    fun q' hq' => ?_, fun q' r hq' => ?_, fun q' r hq' => ?_, fun q' hq' => ?_,
    ⟨h.queued.1, fun q' hq' => ?_⟩, ⟨h.finished.1, fun q' hq' => ?_⟩, fun q' r hq' => ?_⟩
  -- the runners
  · show Function.update s.loaded (u.modelPath q) (some s.next) p = some r ↔ r < s.next + 1 ∧
      ((s.setRunner s.next runner).runners r).modelPath = p ∧
      ((s.setRunner s.next runner).runners r).closed = false
    by_cases he : r = s.next
    · subst he
      rw [hnew, hp, and_iff_left hc, and_iff_right (Nat.lt_succ_self _)]
      by_cases hpath : p = u.modelPath q
      · rw [hpath, Function.update_self]
        exact iff_of_true rfl rfl
      · rw [Function.update_of_ne hpath]
        refine iff_of_false (fun hp' => ?_) fun hp' => hpath hp'.symm
        exact Nat.lt_irrefl _ ((h.loaded_iff p s.next).mp hp').1
    · rw [setRunner_of_ne he]
      have hlt : r < s.next + 1 ↔ r < s.next := by omega
      rw [hlt, ← h.loaded_iff]
      by_cases hpath : p = u.modelPath q
      · rw [hpath, Function.update_self, hmissing]
        exact iff_of_false (fun hr' => he (Option.some.inj hr').symm) nofun
      · rw [Function.update_of_ne hpath]
  · show ((s.setRunner s.next runner).runners r).refCount = 0
    change s.next + 1 ≤ r at hr'
    rw [setRunner_of_ne (by omega)]
    exact h.unborn r (by omega)
  · exact (hholders r).symm ▸ h.finite r
  · show ((s.setRunner s.next runner).runners r).refCount = _
    refine Eq.trans ?_ (congrArg ncard (hholders r).symm)
    by_cases he : r = s.next
    · rw [he, hnew, hr, hnone, ncard_empty]
    · rw [setRunner_of_ne he]
      exact h.counted r
  · change 0 < ((s.setRunner s.next runner).runners r).refCount ∨
      ((s.setRunner s.next runner).runners r).locked = true at hb
    show ((s.setRunner s.next runner).runners r).closed = false
    by_cases he : r = s.next
    · rw [he, hnew, hc]
    · rw [setRunner_of_ne he] at hb ⊢
      exact h.busy r hb
  -- the requests
  · show r < s.next + 1 ∧ ((s.setRunner s.next runner).runners r).modelPath = u.modelPath q'
    by_cases he : q' = q
    · subst he
      have hr' : some s.next = some r := by
        rw [← hq']
        exact congrArg Stage.runner (setStage_self (s := s) q' (.loading s.next)).symm
      obtain rfl := Option.some.inj hr'
      exact ⟨Nat.lt_succ_self _, by rw [hnew, hp]⟩
    · have hq'' := h.stage q' r (by rwa [← setStage_of_ne (s := s) he (.loading s.next)])
      exact ⟨Nat.lt_succ_of_lt hq''.1, by rw [hold r hq''.1]; exact hq''.2⟩
  · have hq'' := (hstage q' _ hq' (fun he => by cases he)).2
    show ((s.setRunner s.next runner).runners r).closed = false
    rw [hold r (h.stage q' r (by rw [hq'']; rfl)).1]
    exact h.checked q' r hq''
  · show ((s.setRunner s.next runner).runners r).locked = true
    by_cases he : r = s.next
    · rw [he, hnew, hl]
    · have hq'' := (hstage q' _ hq' fun he' => he (Stage.loading.inj he')).2
      rw [setRunner_of_ne he]
      exact h.loading q' r hq''
  · by_cases he : r = s.next
    · subst he
      have hown : ∀ q', (s.setStage q (.loading s.next)).stage q' = .loading s.next → q' = q := by
        intro q' hq'
        by_contra hne
        rw [setStage_of_ne hne] at hq'
        exact hunborn q' hq'
      rw [hown q₁ h₁, hown q₂ h₂]
    · have hne : Stage.loading r ≠ .loading s.next := fun he' => he (Stage.loading.inj he')
      exact h.loading_unique q₁ q₂ r (hstage q₁ _ h₁ hne).2 (hstage q₂ _ h₂ hne).2
  -- the loops and the queues
  · rw [hloop] at hq'
    cases hq'
  · rw [hloop] at hq'
    cases hq'
  · rw [hloop] at hq'
    cases hq'
  · rw [hloop] at hq'
    cases hq'
  · have he : q' ≠ q := fun he => hqueue (he ▸ hq')
    exact (setStage_of_ne he _).trans (h.queued.2 q' hq')
  · obtain ⟨r, hr'⟩ := h.finished.2 q' hq'
    have he : q' ≠ q := by
      rintro rfl
      rw [hq] at hr'
      cases hr'
    exact ⟨r, (setStage_of_ne he _).trans hr'⟩
  · obtain ⟨hr', hmem⟩ := h.finishing q' r hq'
    have he : q' ≠ q := by
      rintro rfl
      rw [hq] at hr'
      cases hr'
    exact ⟨(setStage_of_ne he _).trans hr', hmem⟩

end Sched

end Ollama.Server
