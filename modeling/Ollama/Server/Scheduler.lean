import Mathlib
import Ollama.Lib.Transition

/-!
# The scheduler

`server/sched.go` as a step relation over its lock sections and channel
operations: requests in `GetRunner`, the loops `processPending` and
`processCompleted`, the goroutines of `load`, of timers and of requests that wait
for their context to end. A send to a channel that is full only delays a step.
-/

namespace Ollama.Server

open Lib

/-! ## §1  Runners and requests -/

/-- `runnerRef`. `armed` says that the timer is running, `locked` that `load` holds
`refMu` until the runner is up; `closed` is set by `unload`, which also takes the
options away. -/
structure RunnerRef where
  modelPath : String
  pid : ℤ
  refCount : ℕ
  sessionDuration : ℤ
  expireTimer : Bool
  armed : Bool
  locked : Bool
  closed : Bool

inductive Stage
  | fresh
  /-- `GetRunner` has found a runner. -/
  | looked (runner : ℕ)
  /-- `needsReload` has said no. -/
  | checked (runner : ℕ)
  /-- To be sent to `pendingReqCh`. -/
  | waiting
  /-- In `pendingReqCh`, or with `processPending`. -/
  | pending
  /-- With the goroutine of `load`. -/
  | loading (runner : ℕ)
  /-- An error was sent, or the request was skipped. -/
  | failed
  /-- The runner was sent to `successCh`. -/
  | given (runner : ℕ)
  /-- The finished event was sent. -/
  | ended (runner : ℕ)
  /-- The finished event was processed. -/
  | processed
deriving DecidableEq

/-- Where `processPending` is. -/
inductive PendingLoop
  | idle
  | attempt (q : ℕ)
  | found (q : ℕ) (runner : Option ℕ) (loadedCount : ℕ)
  | use (q runner : ℕ)
  | load (q : ℕ) (requireFull : Bool)
  | evict (q : ℕ)
  | expire (q runner : ℕ)
  | unloading (q : ℕ)
deriving DecidableEq

/-- Where `processCompleted` is. -/
inductive CompletedLoop
  | idle
  | finishing (q runner : ℕ)
  | unloaded
deriving DecidableEq

structure Setup where
  modelPath : ℕ → String
  sessionDuration : ℕ → Option ℤ
  keepAlive : ℤ
  maxQueue : ℕ
  maxRunners : ℕ

/-- `Scheduler`, with all goroutines. -/
structure Sched where
  runners : ℕ → RunnerRef
  next : ℕ
  loaded : String → Option ℕ
  loadedCount : ℕ
  activeLoading : Option String
  stage : ℕ → Stage
  done : ℕ → Bool
  pendingReqCh : List ℕ
  finishedReqCh : List ℕ
  expiredCh : List ℕ
  unloadedCh : ℕ
  pendingLoop : PendingLoop
  completedLoop : CompletedLoop
  maxRunners : ℕ
  /-- Timers that went off and wait for `refMu`. -/
  fired : List ℕ
  /-- Expired events that are sent again after a while. -/
  resend : List ℕ

inductive LoadOutcome
  | modelError
  | serverError
  | requiredFull
  | otherError
  | ok (pid : ℤ)

inductive Act
  | cancel (q : ℕ)
  | getRunner (q : ℕ)
  | needsReload (q : ℕ) (reload : Bool)
  | enqueue (q : ℕ) (full : Bool)
  | useLoadedRunner (q : ℕ)
  | receive
  | ignoreUnloaded
  | snapshot
  | choose (reload : Bool) (gpus : ℕ)
  | usePending
  | load (outcome : LoadOutcome)
  | findRunnerToUnload (runner : Option ℕ)
  | expirePending
  | unloadedReceived
  | loadDone (q : ℕ) (ok : Bool) (pid : ℤ)
  | sendFinished (q : ℕ)
  | finishedReceived
  | finish
  | expiredReceived
  | sendUnloaded
  | resend (runner : ℕ)
  | fire (runner : ℕ)
  | timer (runner : ℕ)
  | expireRunner (modelPath : String)

/-! ## §2  The sections -/

def RunnerRef.stopTimer (runner : RunnerRef) : RunnerRef :=
  { runner with expireTimer := false, armed := false }

/-- `unload` -/
def RunnerRef.unload (runner : RunnerRef) : RunnerRef := { runner.stopTimer with closed := true }

/-- `runner.refCount--` of an unsigned counter. -/
def RunnerRef.decrement (runner : RunnerRef) : RunnerRef :=
  { runner with refCount := if runner.refCount = 0 then 2 ^ 64 - 1 else runner.refCount - 1 }

namespace Sched

def setRunner (s : Sched) (r : ℕ) (runner : RunnerRef) : Sched :=
  { s with runners := Function.update s.runners r runner }

def setStage (s : Sched) (q : ℕ) (stage : Stage) : Sched :=
  { s with stage := Function.update s.stage q stage }

def sendExpired (s : Sched) (r : ℕ) : Sched := { s with expiredCh := s.expiredCh ++ [r] }

/-- The answers `needsReload` may give: a runner that was unloaded has no options
left. -/
def mayAnswer (s : Sched) (r : ℕ) (reload : Bool) : Bool :=
  !(s.runners r).locked && (reload || !(s.runners r).closed)

variable (u : Setup)

/-- `useLoadedRunner` -/
def useLoadedRunner (s : Sched) (q r : ℕ) : Sched :=
  let runner := (s.runners r).stopTimer
  (s.setRunner r { runner with
      refCount := runner.refCount + 1
      sessionDuration := (u.sessionDuration q).getD runner.sessionDuration }).setStage q (.given r)

/-- What `processPending` does after its look at the loaded runners. -/
def choose (s : Sched) (reload : Bool) (gpus : ℕ) : Option Sched :=
  match s.pendingLoop with
  | .found q (some r) _ =>
      if s.mayAnswer r reload then
        some { s with pendingLoop := if reload then .expire q r else .use q r }
      else none
  | .found q none loadedCount =>
      if 0 < s.maxRunners ∧ s.maxRunners ≤ loadedCount then
        some { s with pendingLoop := .evict q }
      else
        some { s with
          pendingLoop := .load q (decide (loadedCount ≠ 0))
          maxRunners := if 0 < s.maxRunners then s.maxRunners else 3 * max gpus 1 }
  | _ => none

/-- The new runner is entered in the map; a runner that is still there is
unloaded. -/
def register (s : Sched) (q : ℕ) (pid : ℤ) : Option Sched :=
  let runner : RunnerRef := ⟨u.modelPath q, pid, 0, (u.sessionDuration q).getD u.keepAlive, false,
    false, true, false⟩
  let s' : Option Sched :=
    match s.loaded (u.modelPath q) with
    | none => some { s with loadedCount := s.loadedCount + 1 }
    | some old =>
        if (s.runners old).locked then none
        else some (s.setRunner old (s.runners old).unload)
  s'.map fun s' =>
    ({ s' with
      activeLoading := none
      loaded := Function.update s'.loaded (u.modelPath q) (some s'.next)
      next := s'.next + 1
      pendingLoop := .idle }.setRunner s'.next runner).setStage q (.loading s'.next)

/-- `load`, and what `processPending` does with its answer. A server for another
model that is still being loaded is a panic. -/
def load (s : Sched) (outcome : LoadOutcome) : Option Sched :=
  match s.pendingLoop with
  | .load q requireFull =>
      let fail := { s with pendingLoop := .idle }.setStage q .failed
      match outcome with
      | .modelError => some fail
      | .serverError => if s.activeLoading = none then some fail else none
      | outcome =>
          if (s.activeLoading.getD (u.modelPath q)) = u.modelPath q then
            match outcome with
            | .requiredFull =>
                if requireFull then
                  some { s with activeLoading := some (u.modelPath q), pendingLoop := .evict q }
                else some { fail with activeLoading := none }
            | .ok pid => s.register u q pid
            | _ => some { fail with activeLoading := none }
          else none
  | _ => none

/-- `findRunnerToUnload` returns one of the loaded runners, if there are any. -/
def findRunnerToUnload (s : Sched) (runner : Option ℕ) : Option Sched :=
  match s.pendingLoop, runner with
  | .evict q, none => if s.loadedCount = 0 then some { s with pendingLoop := .attempt q } else none
  | .evict q, some r =>
      if s.loaded (s.runners r).modelPath = some r then
        some { s with pendingLoop := .expire q r }
      else none
  | _, _ => none

def expireNow (s : Sched) (r : ℕ) : Sched :=
  let s' := s.setRunner r { (s.runners r).stopTimer with sessionDuration := 0 }
  if (s.runners r).refCount = 0 then s'.sendExpired r else s'

/-- The goroutine of `load`. -/
def loadDone (s : Sched) (q : ℕ) (ok : Bool) (pid : ℤ) : Option Sched :=
  match s.stage q with
  | .loading r =>
      let runner := { s.runners r with locked := false }
      if ok then
        some ((s.setRunner r { runner with
            pid := if runner.pid < 0 then pid else runner.pid
            refCount := runner.refCount + 1 }).setStage q (.given r))
      else some (((s.setRunner r runner).setStage q .failed).sendExpired r)
  | _ => none

/-- The finished case of `processCompleted`, after its look at the map. -/
def finish (s : Sched) : Option Sched :=
  match s.completedLoop with
  | .finishing q r =>
      if (s.runners r).locked then none
      else
        let runner := (s.runners r).decrement
        let s' := { s with completedLoop := .idle }.setStage q .processed
        some (
          if 0 < runner.refCount then s'.setRunner r runner
          else if runner.sessionDuration ≤ 0 then (s'.setRunner r runner.stopTimer).sendExpired r
          else s'.setRunner r { runner with expireTimer := true, armed := true })
  | _ => none

/-- The expired case of `processCompleted`. -/
def expiredReceived (s : Sched) : Option Sched :=
  match s.completedLoop, s.expiredCh with
  | .idle, r :: rest =>
      let s := { s with expiredCh := rest }
      if (s.runners r).locked then none
      else if 0 < (s.runners r).refCount then some { s with resend := r :: s.resend }
      else
        match s.loaded (s.runners r).modelPath with
        | none => some s
        | some r' =>
            let s' := s.setRunner r (s.runners r).unload
            if (s.runners r).pid ≠ (s.runners r').pid then some s'
            else
              some { s' with
                loaded := Function.update s.loaded (s.runners r).modelPath none
                loadedCount := s.loadedCount - 1
                completedLoop := .unloaded }
  | _, _ => none

end Sched

/-! ## §3  The steps -/

open Sched in
/-- A step of one of the goroutines. -/
def step (u : Setup) (s : Sched) : Act → Option Sched
  | .cancel q => some { s with done := Function.update s.done q true }
  | .getRunner q =>
      if s.stage q = .fresh then
        some (s.setStage q (match s.loaded (u.modelPath q) with
          | some r => .looked r
          | none => .waiting))
      else none
  | .needsReload q reload =>
      match s.stage q with
      | .looked r =>
          if s.mayAnswer r reload then
            some (s.setStage q (if reload then .waiting else .checked r))
          else none
      | _ => none
  | .enqueue q full =>
      if s.stage q = .waiting then
        if full then
          if u.maxQueue ≤ s.pendingReqCh.length then some (s.setStage q .failed) else none
        else if s.pendingReqCh.length < u.maxQueue ∨ u.maxQueue = 0 then
          some ({ s with pendingReqCh := s.pendingReqCh ++ [q] }.setStage q .pending)
        else none
      else none
  | .useLoadedRunner q =>
      match s.stage q with
      | .checked r => if (s.runners r).locked then none else some (s.useLoadedRunner u q r)
      | _ => none
  | .receive =>
      match s.pendingLoop, s.pendingReqCh with
      | .idle, q :: rest =>
          let s := { s with pendingReqCh := rest }
          if s.done q then some (s.setStage q .failed)
          else some { s with pendingLoop := .attempt q }
      | _, _ => none
  | .ignoreUnloaded =>
      if s.pendingLoop = .idle ∧ 0 < s.unloadedCh then some { s with unloadedCh := s.unloadedCh - 1 }
      else none
  | .snapshot =>
      match s.pendingLoop with
      | .attempt q =>
          some { s with pendingLoop := .found q (s.loaded (u.modelPath q)) s.loadedCount }
      | _ => none
  | .choose reload gpus => s.choose reload gpus
  | .usePending =>
      match s.pendingLoop with
      | .use q r =>
          if (s.runners r).locked then none
          else some ({ s with pendingLoop := .idle }.useLoadedRunner u q r)
      | _ => none
  | .load outcome => s.load u outcome
  | .findRunnerToUnload runner => s.findRunnerToUnload runner
  | .expirePending =>
      match s.pendingLoop with
      | .expire q r =>
          if (s.runners r).locked then none
          else some { s.expireNow r with pendingLoop := .unloading q }
      | _ => none
  | .unloadedReceived =>
      match s.pendingLoop with
      | .unloading q =>
          if 0 < s.unloadedCh then
            some { s with unloadedCh := s.unloadedCh - 1, pendingLoop := .attempt q }
          else none
      | _ => none
  | .loadDone q ok pid => s.loadDone q ok pid
  | .sendFinished q =>
      match s.stage q with
      | .given r =>
          if s.done q then
            some ({ s with finishedReqCh := s.finishedReqCh ++ [q] }.setStage q (.ended r))
          else none
      | _ => none
  | .finishedReceived =>
      match s.completedLoop, s.finishedReqCh with
      | .idle, q :: rest =>
          match s.loaded (u.modelPath q) with
          | none => some ({ s with finishedReqCh := rest }.setStage q .processed)
          | some r => some { s with finishedReqCh := rest, completedLoop := .finishing q r }
      | _, _ => none
  | .finish => s.finish
  | .expiredReceived => s.expiredReceived
  | .sendUnloaded =>
      if s.completedLoop = .unloaded then
        some { s with completedLoop := .idle, unloadedCh := s.unloadedCh + 1 }
      else none
  | .resend r =>
      if r ∈ s.resend then some ({ s with resend := s.resend.erase r }.sendExpired r) else none
  | .fire r =>
      if (s.runners r).armed then
        some { s.setRunner r { s.runners r with armed := false } with fired := r :: s.fired }
      else none
  | .timer r =>
      if r ∈ s.fired ∧ (s.runners r).locked = false then
        some (({ s with fired := s.fired.erase r }.setRunner r (s.runners r).stopTimer).sendExpired r)
      else none
  | .expireRunner modelPath =>
      match s.loaded modelPath with
      | some r => if (s.runners r).locked then none else some (s.expireNow r)
      | none => some s

/-- No runner is loaded and no request has been made. -/
def initial (u : Setup) : Sched where
  runners := fun _ => ⟨"", -1, 0, 0, false, false, false, false⟩
  next := 0
  loaded := fun _ => none
  loadedCount := 0
  activeLoading := none
  stage := fun _ => .fresh
  done := fun _ => false
  pendingReqCh := []
  finishedReqCh := []
  expiredCh := []
  unloadedCh := 0
  pendingLoop := .idle
  completedLoop := .idle
  maxRunners := u.maxRunners
  fired := []
  resend := []

/-- The scheduler, from the start of the server. -/
def scheduler (u : Setup) : System Sched Act where
  init := fun s => s = initial u
  step := fun s a s' => step u s a = some s'

end Ollama.Server
