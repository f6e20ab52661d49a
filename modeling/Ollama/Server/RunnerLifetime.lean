import Ollama.Server.RefCounting

/-!
# The lifetime of a runner

Every step keeps the reference counts, when an expired event unloads only the
runner in the map, and not between a check and its use.
-/

namespace Ollama.Server

open Lib Option

namespace Sched

variable {u : Setup} {s s' : Sched}

/-! ## §1  Requests -/

theorem Inv.useLoadedRunner (h : Inv u s) {q r : ℕ} (hfree : ∀ r', ¬(s.stage q).Holds r')
    (hloop : s.pendingLoop.request ≠ some q) (hqueue : q ∉ s.pendingReqCh) (hborn : r < s.next)
    (hpath : (s.runners r).modelPath = u.modelPath q) (hopen : (s.runners r).closed = false) :
    Inv u (s.useLoadedRunner u q r) :=
  h.give hfree hloop hqueue hborn hpath hopen rfl rfl (fun q' _ hq' => h.loading q' r hq') rfl

variable {q : ℕ}

section

variable (h : Inv u s)
include h

theorem Inv.goOn {stage : Stage} (hpending : s.stage q ≠ .pending)
    (hfree : ∀ r, ¬(s.stage q).Holds r) (hnew : ∀ r, ¬stage.Holds r)
    (hrunner : ∀ r, stage.runner = some r → r < s.next ∧ (s.runners r).modelPath = u.modelPath q)
    (hchecked : ∀ r, stage = .checked r → (s.runners r).closed = false)
    (hloading : ∀ r, stage ≠ .loading r) : Inv u (s.setStage q stage) := by
  obtain ⟨hloop, hqueue⟩ := h.not_pending hpending
  exact h.setStage hfree hnew hrunner hchecked hloading (fun he => absurd he hloop)
    fun he => absurd he hqueue

theorem Inv.plain {stage : Stage} (hpending : s.stage q ≠ .pending)
    (hfree : ∀ r, ¬(s.stage q).Holds r) (hplain : stage.runner = none) :
    Inv u (s.setStage q stage) := by
  refine h.goOn hpending hfree (fun r he => ?_) (fun r he => ?_) (fun r he => ?_) fun r he => ?_
  · obtain rfl | rfl := he <;> cases hplain
  · rw [hplain] at he
    cases he
  · subst he
    cases hplain
  · subst he
    cases hplain

/-- `GetRunner` looks into the map. -/
theorem Inv.getRunner (hst : step u s (.getRunner q) = some s') : Inv u s' := by
  simp only [step, ite_none_right_eq_some, some.injEq] at hst
  obtain ⟨hq, rfl⟩ := hst
  have hpending : s.stage q ≠ .pending := by simp [hq]
  have hfree : ∀ r, ¬(s.stage q).Holds r := by simp [hq, Stage.Holds]
  cases hr : s.loaded (u.modelPath q) with
  | none => exact h.plain hpending hfree rfl
  | some r =>
      obtain ⟨hborn, hpath, -⟩ := (h.loaded_iff _ r).mp hr
      refine h.goOn hpending hfree (by simp [Stage.Holds]) (fun r' he => ?_)
        (fun _ he => by cases he) (fun _ he => by cases he)
      obtain rfl : r = r' := some.inj he
      exact ⟨hborn, hpath⟩

/-- `needsReload`, for a request in `GetRunner`. -/
theorem Inv.needsReload {reload : Bool}
    (hst : step u s (.needsReload q reload) = some s') : Inv u s' := by
  simp only [step] at hst
  split at hst
  · rename_i r hq
    simp only [ite_none_right_eq_some, some.injEq] at hst
    obtain ⟨hmay, rfl⟩ := hst
    have hpending : s.stage q ≠ .pending := by simp [hq]
    have hfree : ∀ r, ¬(s.stage q).Holds r := by simp [hq, Stage.Holds]
    cases reload with
    | true => exact h.plain hpending hfree rfl
    | false =>
        refine h.goOn hpending hfree (by simp [Stage.Holds]) (fun r' he => ?_) (fun r' he => ?_)
          (fun _ he => by cases he)
        · obtain rfl : r = r' := some.inj he
          exact h.stage q r (by rw [hq]; rfl)
        · obtain rfl : r = r' := Stage.checked.inj he
          simp only [mayAnswer, Bool.false_or, Bool.and_eq_true, Bool.not_eq_true'] at hmay
          exact hmay.2
  · cases hst

/-- The send to `pendingReqCh`. -/
theorem Inv.enqueueStep {full : Bool}
    (hst : step u s (.enqueue q full) = some s') : Inv u s' := by
  simp only [step, ite_none_right_eq_some] at hst
  obtain ⟨hq, hst⟩ := hst
  have hpending : s.stage q ≠ .pending := by simp [hq]
  have hfree : ∀ r, ¬(s.stage q).Holds r := by simp [hq, Stage.Holds]
  obtain ⟨hloop, hqueue⟩ := h.not_pending hpending
  cases full with
  | true =>
      simp only [if_true, ite_none_right_eq_some, some.injEq] at hst
      obtain ⟨-, rfl⟩ := hst
      exact h.plain hpending hfree rfl
  | false =>
      simp only [Bool.false_eq_true, if_false, ite_none_right_eq_some, some.injEq] at hst
      obtain ⟨-, rfl⟩ := hst
      have h' : Inv u (s.setStage q .pending) := h.plain hpending hfree rfl
      exact h'.enqueue (setStage_self q _) hloop hqueue

theorem Inv.useChecked (hst : step u s (.useLoadedRunner q) = some s') :
    Inv u s' := by
  simp only [step] at hst
  split at hst
  · rename_i r hq
    simp only [ite_none_left_eq_some, some.injEq] at hst
    obtain ⟨-, rfl⟩ := hst
    obtain ⟨hloop, hqueue⟩ := h.not_pending (q := q) (by simp [hq])
    obtain ⟨hborn, hpath⟩ := h.stage q r (by rw [hq]; rfl)
    exact h.useLoadedRunner (by simp [hq, Stage.Holds]) hloop hqueue hborn hpath (h.checked q r hq)
  · cases hst

theorem Inv.sendFinished (hst : step u s (.sendFinished q) = some s') : Inv u s' := by
  simp only [step] at hst
  split at hst
  · rename_i r hq
    simp only [ite_none_right_eq_some, some.injEq] at hst
    obtain ⟨-, rfl⟩ := hst
    exact h.tell hq
  · cases hst

/-! ## §2  `processPending` -/

theorem Inv.fail (hq : s.stage q = .pending) (hqueue : q ∉ s.pendingReqCh)
    (hloop : s.pendingLoop.request ≠ some q) : Inv u (s.setStage q .failed) := by
  refine h.setStage (by simp [hq, Stage.Holds]) (by simp [Stage.Holds]) (fun _ he => by cases he)
    (fun _ he => by cases he) (fun _ he => by cases he) (fun he => absurd he hloop)
    fun he => absurd he hqueue

theorem Inv.receive (hst : step u s .receive = some s') : Inv u s' := by
  simp only [step] at hst
  split at hst
  · rename_i q rest hidle hqueue
    obtain ⟨h', hq, hmem, hloop⟩ := h.dequeue hqueue
    split at hst
    · obtain rfl := some.inj hst
      exact h'.fail hq hmem hloop
    · obtain rfl := some.inj hst
      refine h'.setLoop (fun q' he => ?_) (fun _ _ he => by cases he) (fun _ _ he => by cases he)
        fun _ he => by cases he
      obtain rfl : q = q' := some.inj he
      exact ⟨hq, hmem⟩
  · cases hst

theorem Inv.snapshot (hst : step u s .snapshot = some s') : Inv u s' := by
  simp only [step] at hst
  split at hst
  · rename_i q hloop
    obtain rfl := some.inj hst
    refine h.setLoop (fun q' he => ?_) (fun q' r he => ?_) (fun _ _ he => by cases he)
      fun q' he => ?_
    · obtain rfl : q = q' := some.inj he
      exact h.loopRequest q (by rw [hloop]; rfl)
    · cases hr : s.loaded (u.modelPath q) with
      | none =>
          rw [hr] at he
          cases he
      | some r' =>
          rw [hr] at he
          obtain ⟨rfl, rfl⟩ := Prod.mk.inj (some.inj he)
          obtain ⟨hborn, hpath, -⟩ := (h.loaded_iff _ _).mp hr
          exact ⟨hborn, hpath⟩
    · cases hr : s.loaded (u.modelPath q) with
      | none =>
          rw [hr] at he
          obtain rfl : q = q' := some.inj he
          exact hr
      | some r' =>
          rw [hr] at he
          cases he
  · cases hst

theorem Inv.choose {reload : Bool} {gpus : ℕ}
    (hst : s.choose reload gpus = some s') : Inv u s' := by
  unfold Sched.choose at hst
  split at hst
  · rename_i q r n hloop
    have hq : s.pendingLoop.request = some q := by rw [hloop]; rfl
    simp only [ite_none_right_eq_some, some.injEq] at hst
    obtain ⟨hmay, rfl⟩ := hst
    cases reload with
    | true => exact h.keepRequest q hq rfl rfl rfl
    | false =>
        refine h.setLoop (fun q' he => ?_) (fun q' r' he => ?_) (fun q' r' he => ?_)
          fun _ he => by cases he
        · obtain rfl : q = q' := some.inj he
          exact h.loopRequest q hq
        · obtain ⟨rfl, rfl⟩ := Prod.mk.inj (some.inj he)
          exact h.loopRunner q r (by rw [hloop]; rfl)
        · obtain ⟨rfl, rfl⟩ := PendingLoop.use.inj he
          simp only [mayAnswer, Bool.false_or, Bool.and_eq_true, Bool.not_eq_true'] at hmay
          exact hmay.2
  · rename_i q n hloop
    have hq : s.pendingLoop.request = some q := by rw [hloop]; rfl
    split at hst
    · obtain rfl := some.inj hst
      exact h.keepRequest q hq rfl rfl rfl
    obtain rfl := some.inj hst
    have h' : Inv u { s with pendingLoop := .load q (decide (n ≠ 0)) } := by
      refine h.setLoop (fun q' he => ?_) (fun _ _ he => by cases he) (fun _ _ he => by cases he)
        fun q' he => ?_
      · obtain rfl : q = q' := some.inj he
        exact h.loopRequest q hq
      · obtain rfl : q = q' := some.inj he
        exact h.loopMissing q (by rw [hloop]; rfl)
    exact h'.frame _ _ _ _ _ _ _ _
  · cases hst

theorem Inv.usePending (hst : step u s .usePending = some s') : Inv u s' := by
  simp only [step] at hst
  split at hst
  · rename_i q r hloop
    simp only [ite_none_left_eq_some, some.injEq] at hst
    obtain ⟨-, rfl⟩ := hst
    obtain ⟨hq, hqueue⟩ := h.loopRequest q (by rw [hloop]; rfl)
    obtain ⟨hborn, hpath⟩ := h.loopRunner q r (by rw [hloop]; rfl)
    exact h.idle.useLoadedRunner (by simp [hq, Stage.Holds]) (fun he => by cases he) hqueue hborn
      hpath (h.loopUse q r hloop)
  · cases hst

end

variable {pid : ℤ}

theorem Inv.registerStep (h : Inv u s) {full : Bool}
    (hloop : s.pendingLoop = .load q full) (hst : s.register u q pid = some s') : Inv u s' := by
  obtain ⟨hq, hqueue⟩ := h.loopRequest q (by rw [hloop]; rfl)
  have hmissing := h.loopMissing q (by rw [hloop]; rfl)
  unfold Sched.register at hst
  rw [hmissing] at hst
  obtain rfl := some.inj hst
  exact (h.idle.register hq hqueue rfl hmissing rfl rfl rfl rfl).frame _ _ _ _ _ _ _ _

theorem Inv.load (h : Inv u s) {outcome : LoadOutcome} (hst : s.load u outcome = some s') :
    Inv u s' := by
  unfold Sched.load at hst
  split at hst
  · rename_i q full hloop
    obtain ⟨hq, hqueue⟩ := h.loopRequest q (by rw [hloop]; rfl)
    have hfail : Inv u ({ s with pendingLoop := .idle }.setStage q .failed) :=
      h.idle.fail hq hqueue fun he => by cases he
    cases outcome with
    | modelError =>
        obtain rfl := some.inj hst
        exact hfail
    | serverError =>
        simp only [ite_none_right_eq_some, some.injEq] at hst
        obtain ⟨-, rfl⟩ := hst
        exact hfail
    | requiredFull =>
        simp only [ite_none_right_eq_some] at hst
        obtain ⟨-, hst⟩ := hst
        split at hst
        · obtain rfl := some.inj hst
          have h' : Inv u { s with pendingLoop := .evict q } :=
            h.keepRequest q (by rw [hloop]; rfl) rfl rfl rfl
          exact h'.frame _ _ _ _ _ _ _ _
        · obtain rfl := some.inj hst
          exact hfail.frame _ _ _ _ _ _ _ _
    | otherError =>
        simp only [ite_none_right_eq_some, some.injEq] at hst
        obtain ⟨-, rfl⟩ := hst
        exact hfail.frame _ _ _ _ _ _ _ _
    | ok pid =>
        simp only [ite_none_right_eq_some] at hst
        exact h.registerStep hloop hst.2
  · cases hst

theorem Inv.findRunnerToUnload (h : Inv u s) {runner : Option ℕ}
    (hst : s.findRunnerToUnload runner = some s') : Inv u s' := by
  unfold Sched.findRunnerToUnload at hst
  split at hst
  · rename_i q hloop
    simp only [ite_none_right_eq_some, some.injEq] at hst
    obtain ⟨-, rfl⟩ := hst
    exact h.keepRequest q (by rw [hloop]; rfl) rfl rfl rfl
  · rename_i q r hloop
    simp only [ite_none_right_eq_some, some.injEq] at hst
    obtain ⟨-, rfl⟩ := hst
    exact h.keepRequest q (by rw [hloop]; rfl) rfl rfl rfl
  · cases hst

theorem Inv.expireNow (h : Inv u s) (r : ℕ) : Inv u (s.expireNow r) := by
  have h' : Inv u (s.setRunner r { (s.runners r).stopTimer with sessionDuration := 0 }) :=
    h.touch rfl rfl rfl rfl
  unfold Sched.expireNow
  split
  · exact h'.frame _ _ _ _ _ _ _ _
  · exact h'

theorem Inv.expirePending (h : Inv u s) (hst : step u s .expirePending = some s') : Inv u s' := by
  simp only [step] at hst
  split at hst
  · rename_i q r hloop
    simp only [ite_none_left_eq_some, some.injEq] at hst
    obtain ⟨-, rfl⟩ := hst
    refine (h.expireNow r).keepRequest q ?_ rfl rfl rfl
    unfold Sched.expireNow
    split <;> exact (congrArg PendingLoop.request hloop)
  · cases hst

theorem Inv.unloadedReceived (h : Inv u s) (hst : step u s .unloadedReceived = some s') :
    Inv u s' := by
  simp only [step] at hst
  split at hst
  · rename_i q hloop
    simp only [ite_none_right_eq_some, some.injEq] at hst
    obtain ⟨-, rfl⟩ := hst
    have h' : Inv u { s with pendingLoop := .attempt q } :=
      h.keepRequest q (by rw [hloop]; rfl) rfl rfl rfl
    exact h'.frame _ _ _ _ _ _ _ _
  · cases hst

/-- The runner is up, or not. -/
theorem Inv.loadDone (h : Inv u s) {ok : Bool}
    (hst : s.loadDone q ok pid = some s') : Inv u s' := by
  unfold Sched.loadDone at hst
  split at hst
  · rename_i r hq
    have hpending : s.stage q ≠ .pending := by simp [hq]
    have hfree : ∀ r, ¬(s.stage q).Holds r := by simp [hq, Stage.Holds]
    obtain ⟨hloop, hqueue⟩ := h.not_pending hpending
    obtain ⟨hborn, hpath⟩ := h.stage q r (by rw [hq]; rfl)
    have halone : ∀ q', q' ≠ q → s.stage q' ≠ .loading r := fun q' he hq' =>
      he (h.loading_unique q' q r hq' hq)
    cases ok with
    | true =>
        obtain rfl := some.inj hst
        exact h.give hfree hloop hqueue hborn hpath (h.busy r (Or.inr (h.loading q r hq))) rfl rfl
          (fun q' he hq' => absurd hq' (halone q' he)) rfl
    | false =>
        obtain rfl := some.inj hst
        have hfail : Inv u (s.setStage q .failed) := h.plain hpending hfree rfl
        have h' : Inv u ((s.setStage q .failed).setRunner r { s.runners r with locked := false }) := by
          refine hfail.setRunner rfl rfl (fun he => by cases he) (fun q' hq' => ?_) rfl
          by_cases he : q' = q
          · rw [he, setStage_self] at hq'
            cases hq'
          · rw [setStage_of_ne he] at hq'
            exact absurd hq' (halone q' he)
        exact h'.frame _ _ _ _ _ _ _ _
  · cases hst

/-! ## §3  `processCompleted` and the timers -/

theorem Inv.finishedReceived (h : Inv u s) (hst : step u s .finishedReceived = some s') :
    Inv u s' := by
  simp only [step] at hst
  split at hst
  · rename_i q rest hidle hqueue
    obtain ⟨r, hr, h'⟩ := h.receiveFinished hqueue
    rw [hr] at hst
    obtain rfl := some.inj hst
    exact h'
  · cases hst

theorem Inv.finish (h : Inv u s) (hst : s.finish = some s') : Inv u s' := by
  unfold Sched.finish at hst
  split at hst
  · rename_i q r hq
    simp only [ite_none_left_eq_some, some.injEq] at hst
    obtain ⟨-, rfl⟩ := hst
    have hpos := h.finishing_pos hq
    have hcount : (s.runners r).decrement.refCount = (s.runners r).refCount - 1 :=
      if_neg (Nat.pos_iff_ne_zero.mp hpos)
    split
    · exact h.leave hq rfl hcount rfl rfl
    split
    · have h' : Inv u (({ s with completedLoop := .idle }.setRunner r
          (s.runners r).decrement.stopTimer).setStage q .processed) :=
        h.leave hq rfl hcount rfl rfl
      exact h'.frame _ _ _ _ _ _ _ _
    · exact h.leave hq rfl hcount rfl rfl
  · cases hst

/-- An expired event unloads the runner in the map only, and no request that is about
to take the runner has checked it. -/
def UnloadsIdle (s : Sched) (a : Act) : Prop :=
  a = .expiredReceived → ∀ r rest r', s.expiredCh = r :: rest → (s.runners r).refCount = 0 →
    s.loaded (s.runners r).modelPath = some r' → (s.runners r).pid = (s.runners r').pid →
    r' = r ∧ (∀ q, s.stage q ≠ .checked r) ∧ ∀ q, s.pendingLoop ≠ .use q r

theorem Inv.expiredReceived (h : Inv u s) (hidle : UnloadsIdle s .expiredReceived)
    (hst : s.expiredReceived = some s') : Inv u s' := by
  unfold Sched.expiredReceived at hst
  split at hst
  · rename_i r rest hcompleted hexpired
    simp only [ite_none_left_eq_some, Bool.not_eq_true] at hst
    obtain ⟨hlocked, hst⟩ := hst
    split at hst
    · obtain rfl := some.inj hst
      exact h.frame _ _ _ _ _ _ _ _
    rename_i hpos
    have hzero : (s.runners r).refCount = 0 := Nat.eq_zero_of_not_pos hpos
    split at hst
    · obtain rfl := some.inj hst
      exact h.frame _ _ _ _ _ _ _ _
    rename_i r' hr'
    split at hst
    -- an orphan: it is not in the map, so it was unloaded before
    · rename_i hpid
      obtain rfl := some.inj hst
      have hgone : r < s.next → (s.runners r).closed ≠ false := by
        intro hborn hopen
        have hr := (h.loaded_iff _ r).mpr ⟨hborn, rfl, hopen⟩
        rw [hr'] at hr
        exact hpid (congrArg (fun r => (s.runners r).pid) (some.inj hr)).symm
      have h' : Inv u { s.setRunner r (s.runners r).unload with loaded := s.loaded } := by
        refine h.unload hzero hlocked (fun p r'' => ?_) (fun q hq => ?_) fun q hq => ?_
        · refine (and_iff_left_of_imp fun hp he => ?_).symm
          obtain ⟨hborn, -, hopen⟩ := (h.loaded_iff p r'').mp hp
          exact hgone (he ▸ hborn) (he ▸ hopen)
        · exact hgone (h.stage q r (by rw [hq]; rfl)).1 (h.checked q r hq)
        · exact hgone (h.loopRunner q r (by rw [hq]; rfl)).1 (h.loopUse q r hq)
      exact h'.frame _ _ _ _ _ _ _ _
    · rename_i hpid
      obtain rfl := some.inj hst
      obtain ⟨rfl, hchecked, huse⟩ :=
        hidle rfl r rest r' hexpired hzero hr' (not_not.mp hpid)
      have h' : Inv u { s.setRunner r' (s.runners r').unload with
          loaded := Function.update s.loaded (s.runners r').modelPath none } := by
        refine h.unload hzero hlocked (fun p r => ?_) hchecked huse
        by_cases hp : p = (s.runners r').modelPath
        · rw [hp, Function.update_self, hr']
          refine iff_of_false (fun he => by cases he) fun he => he.2 ?_
          exact (some.inj he.1).symm
        · rw [Function.update_of_ne hp]
          refine (and_iff_left_of_imp fun he hr => hp ?_).symm
          rw [← hr]
          exact ((h.loaded_iff p r).mp he).2.1.symm
      have h'' : Inv u { { s.setRunner r' (s.runners r').unload with
          loaded := Function.update s.loaded (s.runners r').modelPath none } with
          completedLoop := .unloaded } := h'.setCompleted fun _ _ he => by cases he
      exact h''.frame _ _ _ _ _ _ _ _
  · cases hst

theorem Inv.sendUnloaded (h : Inv u s) (hst : step u s .sendUnloaded = some s') : Inv u s' := by
  simp only [step, ite_none_right_eq_some, some.injEq] at hst
  obtain ⟨-, rfl⟩ := hst
  have h' : Inv u { s with completedLoop := .idle } := h.setCompleted fun _ _ he => by cases he
  exact h'.frame _ _ _ _ _ _ _ _

theorem Inv.fire (h : Inv u s) {r : ℕ} (hst : step u s (.fire r) = some s') : Inv u s' := by
  simp only [step, ite_none_right_eq_some, some.injEq] at hst
  obtain ⟨-, rfl⟩ := hst
  have h' : Inv u (s.setRunner r { s.runners r with armed := false }) := h.touch rfl rfl rfl rfl
  exact h'.frame _ _ _ _ _ _ _ _

theorem Inv.timer (h : Inv u s) {r : ℕ} (hst : step u s (.timer r) = some s') : Inv u s' := by
  simp only [step, ite_none_right_eq_some, some.injEq] at hst
  obtain ⟨-, rfl⟩ := hst
  have h' : Inv u (s.setRunner r (s.runners r).stopTimer) := h.touch rfl rfl rfl rfl
  exact h'.frame _ _ _ _ _ _ _ _

theorem Inv.expireRunner (h : Inv u s) {modelPath : String}
    (hst : step u s (.expireRunner modelPath) = some s') : Inv u s' := by
  simp only [step] at hst
  split at hst
  · rename_i r hr
    simp only [ite_none_left_eq_some, some.injEq] at hst
    obtain ⟨-, rfl⟩ := hst
    exact h.expireNow r
  · obtain rfl := some.inj hst
    exact h

/-! ## §4  The invariant in runs -/

/-- Every step keeps the invariant. -/
theorem Inv.step (h : Inv u s) {a : Act} (hidle : UnloadsIdle s a)
    (hst : step u s a = some s') : Inv u s' := by
  cases a with
  | cancel q =>
      obtain rfl := some.inj hst
      exact h.frame _ _ _ _ _ _ _ _
  | getRunner q => exact h.getRunner hst
  | needsReload q reload => exact h.needsReload hst
  | enqueue q full => exact h.enqueueStep hst
  | useLoadedRunner q => exact h.useChecked hst
  | receive => exact h.receive hst
  | ignoreUnloaded =>
      simp only [Server.step, ite_none_right_eq_some, some.injEq] at hst
      obtain ⟨-, rfl⟩ := hst
      exact h.frame _ _ _ _ _ _ _ _
  | snapshot => exact h.snapshot hst
  | choose reload gpus => exact h.choose hst
  | usePending => exact h.usePending hst
  | load outcome => exact h.load hst
  | findRunnerToUnload runner => exact h.findRunnerToUnload hst
  | expirePending => exact h.expirePending hst
  | unloadedReceived => exact h.unloadedReceived hst
  | loadDone q ok pid => exact h.loadDone hst
  | sendFinished q => exact h.sendFinished hst
  | finishedReceived => exact h.finishedReceived hst
  | finish => exact h.finish hst
  | expiredReceived => exact h.expiredReceived hidle hst
  | sendUnloaded => exact h.sendUnloaded hst
  | resend r =>
      simp only [Server.step, ite_none_right_eq_some, some.injEq] at hst
      obtain ⟨-, rfl⟩ := hst
      exact h.frame _ _ _ _ _ _ _ _
  | fire r => exact h.fire hst
  | timer r => exact h.timer hst
  | expireRunner modelPath => exact h.expireRunner hst

theorem Inv.init (u : Setup) : Inv u (initial u) where
  loaded_iff p r := iff_of_false (fun h => by cases h) fun h => Nat.not_lt_zero r h.1
  unborn r _ := rfl
  finite r := by
    have hnone : (initial u).holders r = ∅ := by
      ext q
      exact iff_of_false (by rintro (he | he) <;> cases he) (Set.notMem_empty q)
    rw [hnone]
    exact Set.finite_empty
  counted r := by
    have hnone : (initial u).holders r = ∅ := by
      ext q
      exact iff_of_false (by rintro (he | he) <;> cases he) (Set.notMem_empty q)
    rw [hnone, Set.ncard_empty]
    rfl
  busy r hb := by obtain hb | hb := hb <;> cases hb
  stage q r hq := by cases hq
  checked q r hq := by cases hq
  loading q r hq := by cases hq
  loading_unique q q' r hq _ := by cases hq
  loopRequest q hq := by cases hq
  loopRunner q r hq := by cases hq
  loopUse q r hq := by cases hq
  loopMissing q hq := by cases hq
  queued := ⟨List.nodup_nil, fun q hq => by cases hq⟩
  finished := ⟨List.nodup_nil, fun q hq => by cases hq⟩
  finishing q r hq := by cases hq

theorem inv_of_guarded (h : ((scheduler u).guard UnloadsIdle).Reachable s) : Inv u s := by
  refine System.Reachable.invariant (fun s hs => ?_) (fun s a s' hinv hst => ?_) h
  · exact hs ▸ Inv.init u
  · exact hinv.step hst.1 hst.2

/-! ## §5  Where runners are handed out -/

@[grind =] theorem stage_setStage (q q' : ℕ) (stage : Stage) :
    (s.setStage q stage).stage q' = if q' = q then stage else s.stage q' :=
  Function.update_apply _ _ _ _

@[grind =] theorem stage_setRunner (r q : ℕ) (runner : RunnerRef) :
    (s.setRunner r runner).stage q = s.stage q := rfl

@[grind =] theorem stage_sendExpired (r q : ℕ) : (s.sendExpired r).stage q = s.stage q := rfl

@[grind =] theorem stage_useLoadedRunner (q r q' : ℕ) :
    (s.useLoadedRunner u q r).stage q' = if q' = q then .given r else s.stage q' :=
  Function.update_apply _ _ _ _

@[grind =] theorem stage_expireNow (r q : ℕ) : (s.expireNow r).stage q = s.stage q := by
  unfold expireNow
  split <;> rfl

theorem stage_register (hst : s.register u q pid = some s') (q' : ℕ) :
    ∃ r, s'.stage q' = if q' = q then .loading r else s.stage q' := by
  obtain ⟨t, ht, rfl⟩ := map_eq_some_iff.mp hst
  have hstage : t.stage q' = s.stage q' := by
    split at ht
    · obtain rfl := some.inj ht
      rfl
    · split at ht
      · cases ht
      · obtain rfl := some.inj ht
        rfl
  refine ⟨t.next, ?_⟩
  rw [stage_setStage, stage_setRunner, hstage]

/-- Runners are handed out in three places. -/
theorem given_of_step {a : Act} (hst : Server.step u s a = some s') {q r : ℕ}
    (hne : s.stage q ≠ .given r) (hq : s'.stage q = .given r) :
    s.stage q = .checked r ∨ s.pendingLoop = .use q r ∨ s.stage q = .loading r := by
  cases a with
  | choose reload gpus => grind [Server.step, Sched.choose]
  | load outcome =>
      simp only [Server.step] at hst
      unfold Sched.load at hst
      split at hst
      · cases outcome with
        | ok pid =>
            simp only [ite_none_right_eq_some] at hst
            obtain ⟨r', hr'⟩ := stage_register hst.2 q
            grind
        | requiredFull =>
            simp only [ite_none_right_eq_some] at hst
            obtain ⟨-, hst⟩ := hst
            split at hst
            · obtain rfl := some.inj hst
              exact absurd hq hne
            · obtain rfl := some.inj hst
              grind
        | otherError =>
            simp only [ite_none_right_eq_some, some.injEq] at hst
            obtain ⟨-, rfl⟩ := hst
            grind
        | _ => grind
      · cases hst
  | findRunnerToUnload runner =>
      simp only [Server.step] at hst
      unfold Sched.findRunnerToUnload at hst
      grind
  | loadDone q ok pid => grind [Server.step, Sched.loadDone]
  | finish => grind [Server.step, Sched.finish]
  | expiredReceived => grind [Server.step, Sched.expiredReceived, setRunner]
  | expirePending => grind [Server.step, Sched.expireNow, setRunner, sendExpired]
  | fire r => grind [Server.step, setRunner]
  | _ => grind [Server.step]

/-- Reference counting is safe in a state: (a) the count of a runner is the number
of requests that were given it and whose finished event is not processed, and it is
not lowered at 0; (b) a request whose context has not ended has a runner that is
not closed, and no step hands out a closed one; (c) a finished event lowers the
count of the runner its request was given. -/
structure Safe (u : Setup) (s : Sched) : Prop where
  counted : ∀ r, (s.holders r).Finite ∧ (s.runners r).refCount = (s.holders r).ncard
  lowered : ∀ q r, s.completedLoop = .finishing q r → 0 < (s.runners r).refCount
  kept : ∀ q r, s.stage q = .given r → s.done q = false → (s.runners r).closed = false
  handedOut : ∀ a s' q r, Server.step u s a = some s' → s.stage q ≠ .given r →
    s'.stage q = .given r → (s.runners r).closed = false
  finished : ∀ q r, s.completedLoop = .finishing q r → s.stage q = .ended r

end Sched

/-! ## §6  Runs -/

open Sched

variable {u : Setup} {s : Sched}

/-- **Reference counting is safe** in every run in which an expired event unloads the
runner in the map only, and only when no request has checked the runner and not yet
taken it. -/
theorem refCount_safe (h : ((scheduler u).guard UnloadsIdle).Reachable s) : Safe u s := by
  have hinv := inv_of_guarded h
  refine ⟨fun r => ⟨hinv.finite r, hinv.counted r⟩, fun q r hq => hinv.finishing_pos hq,
    fun q r hq _ => ?_, fun a s' q r hst hne hq => ?_, fun q r hq => (hinv.finishing q r hq).1⟩
  · have hpos : 0 < (s.runners r).refCount := by
      rw [hinv.counted r]
      exact (Set.ncard_pos (hinv.finite r)).mpr ⟨q, Or.inl hq⟩
    exact hinv.busy r (Or.inl hpos)
  · obtain hchecked | huse | hloading := given_of_step hst hne hq
    · exact hinv.checked q r hchecked
    · exact hinv.loopUse q r huse
    · exact hinv.busy r (Or.inr (hinv.loading q r hloading))

/-- Steps one after the other. -/
def run (u : Setup) : Sched → List Act → Option Sched
  | s, [] => some s
  | s, a :: acts => (step u s a).bind fun s' => run u s' acts

theorem reachable_of_run {T : System Sched Act} (acts : List Act) :
    ∀ {s s' : Sched}, (∀ a ∈ acts, ∀ s s', step u s a = some s' → T.step s a s') →
      T.Reachable s → run u s acts = some s' → T.Reachable s' := by
  induction acts with
  | nil =>
      intro s s' _ h hrun
      obtain rfl := some.inj hrun
      exact h
  | cons a acts ih =>
      intro s s' hT h hrun
      obtain ⟨t, ht, hrun⟩ := bind_eq_some_iff.mp hrun
      exact ih (fun b hb => hT b (List.mem_cons_of_mem a hb))
        (.step h (hT a List.mem_cons_self s t ht)) hrun

/-- One model, kept for a while after its last request. -/
def oneModel : Setup where
  modelPath _ := "model"
  sessionDuration _ := none
  keepAlive := 300
  maxQueue := 512
  maxRunners := 3

def loadModel : List Act :=
  [.getRunner 0, .enqueue 0 false, .receive, .snapshot, .choose false 1, .load (.ok 7),
    .loadDone 0 true 7]

theorem refCount_safe_loaded :
    ∃ s, Safe oneModel s ∧ s.stage 0 = .given 0 ∧ (s.runners 0).refCount = 1 := by
  have hrun : (run oneModel (initial oneModel) loadModel).any (fun s =>
      s.stage 0 = .given 0 ∧ (s.runners 0).refCount = 1) = true := by decide
  obtain ⟨s, hs, hgiven⟩ := (any_eq_true _ _).mp hrun
  have hreach : ((scheduler oneModel).guard UnloadsIdle).Reachable s := by
    refine reachable_of_run loadModel (fun a ha s s' hst => ⟨fun he => ?_, hst⟩) (.init rfl) hs
    subst he
    simp [loadModel] at ha
  exact ⟨s, refCount_safe hreach, of_decide_eq_true hgiven⟩

def endRequest : List Act :=
  [.cancel 0, .sendFinished 0, .finishedReceived, .finish, .fire 0, .timer 0]

def takeUnloaded : List Act :=
  [.getRunner 1, .needsReload 1 false, .expiredReceived, .useLoadedRunner 1]

/-- A runner that was unloaded after the check is handed out. -/
theorem refCount_unsafe : ¬ ∀ u s, (scheduler u).Reachable s → Safe u s := by
  intro hsafe
  have hrun : (run oneModel (initial oneModel) (loadModel ++ endRequest ++ takeUnloaded)).any
      (fun s => s.stage 1 = .given 0 ∧ s.done 1 = false ∧ (s.runners 0).closed = true) = true := by
    decide
  obtain ⟨s, hs, hgiven⟩ := (any_eq_true _ _).mp hrun
  obtain ⟨hgiven, hdone, hclosed⟩ := of_decide_eq_true hgiven
  have hreach : (scheduler oneModel).Reachable s :=
    reachable_of_run _ (fun _ _ _ _ hst => hst) (.init rfl) hs
  have hopen := (hsafe oneModel s hreach).kept 1 0 hgiven hdone
  rw [hclosed] at hopen
  cases hopen

end Ollama.Server
