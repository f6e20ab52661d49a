import Ollama.Lib.Single
import Mathlib.Algebra.BigOperators.Group.List.Basic
import Mathlib.Data.List.Induction

/-!
# Waiting for VRAM

`waitForVRAMRecovery` of `server/sched.go`: the free memory of the GPUs is polled until enough of
it is back or the time is over. Memory is summed and subtracted in 64 bits and compared in single
precision.
-/

namespace Ollama.Server.VRAMRecovery

open Lib List

/-! ## §1  The wait -/

/-- `ml.DeviceInfo` -/
structure DeviceInfo where
  freeMemory : UInt64

/-- `runnerRef`: the libraries of its GPUs, and its size. -/
structure RunnerRef where
  gpus : List String
  discreteGPUs : Bool
  vramSize : UInt64

def freeMemory (gpus : List DeviceInfo) : UInt64 :=
  gpus.foldl (fun sum gpu => sum + gpu.freeMemory) 0

/-- `float32(runner.vramSize)*0.75` -/
def target (vramSize : ℕ) : ℕ := Single.mul (Single.ofNat vramSize) (3 * 2 ^ 147)

def converged (runner : RunnerRef) (freeMemoryBefore freeMemoryNow : UInt64) : Bool :=
  target runner.vramSize.toNat < Single.ofNat (freeMemoryNow - freeMemoryBefore).toNat

inductive Wait
  /-- The signal was sent at once. -/
  | unneeded
  | waiting
  /-- The signal was sent at the poll with this report. -/
  | finished (gpusNow : List DeviceInfo)
  | timedOut

inductive Event
  | tick (gpusNow : List DeviceInfo)
  | done

/-- `waitForVRAMRecovery` up to its goroutine. -/
def start (runner : RunnerRef) : Wait :=
  if runner.gpus = [] ∨ runner.discreteGPUs = false ∨ runner.gpus = ["Metal"] then .unneeded
  else .waiting

def step (runner : RunnerRef) (gpusBefore : List DeviceInfo) : Wait → Event → Wait
  | .waiting, .tick gpusNow =>
      if converged runner (freeMemory gpusBefore) (freeMemory gpusNow) then .finished gpusNow
      else .waiting
  | .waiting, .done => .timedOut
  | wait, _ => wait

def run (runner : RunnerRef) (gpusBefore : List DeviceInfo) (events : List Event) : Wait :=
  events.foldl (step runner gpusBefore) (start runner)

/-- The free memory, whatever its size. -/
def total (gpus : List DeviceInfo) : ℕ := (gpus.map fun gpu => gpu.freeMemory.toNat).sum

def recovered (gpusBefore gpusNow : List DeviceInfo) : ℤ := total gpusNow - total gpusBefore

/-- The signal at a poll means that more than 75 percent are back. -/
def Recovers (runner : RunnerRef) (gpusBefore : List DeviceInfo) (events : List Event) : Prop :=
  ∀ gpusNow, run runner gpusBefore events = .finished gpusNow →
    3 * (runner.vramSize.toNat : ℤ) < 4 * recovered gpusBefore gpusNow

/-! ## §2  The difference -/

theorem toNat_foldl (gpus : List DeviceInfo) (sum : UInt64) :
    (gpus.foldl (fun sum gpu => sum + gpu.freeMemory) sum).toNat =
      (sum.toNat + total gpus) % 2 ^ 64 := by
  induction gpus generalizing sum with
  | nil => exact (Nat.mod_eq_of_lt sum.toNat_lt).symm
  | cons gpu gpus ih =>
    rw [foldl_cons, ih, UInt64.toNat_add, Nat.mod_add_mod, Nat.add_assoc]
    rfl

theorem toNat_freeMemory (gpus : List DeviceInfo) :
    (freeMemory gpus).toNat = total gpus % 2 ^ 64 := by
  unfold freeMemory
  rw [toNat_foldl]
  exact congrArg (· % 2 ^ 64) (Nat.zero_add _)

theorem toNat_difference (gpusBefore gpusNow : List DeviceInfo) :
    ((freeMemory gpusNow - freeMemory gpusBefore).toNat : ℤ) =
      recovered gpusBefore gpusNow % 2 ^ 64 := by
  have hbefore := toNat_freeMemory gpusBefore
  have hnow := toNat_freeMemory gpusNow
  rw [UInt64.toNat_sub]
  unfold recovered
  omega

/-! ## §3  The threshold -/

def threshold (vramSize : ℕ) : ℕ :=
  Nat.findGreatest (fun d => Single.ofNat d ≤ target vramSize) (2 ^ 64)

theorem ofNat_mono {m n : ℕ} (h : m ≤ n) : Single.ofNat m ≤ Single.ofNat n :=
  Single.round_mono Nat.one_pos (Nat.mul_le_mul_right _ h)

theorem ofNat_le_target_iff {d vramSize : ℕ} (hd : d ≤ 2 ^ 64) :
    Single.ofNat d ≤ target vramSize ↔ d ≤ threshold vramSize := by
  constructor
  · exact fun h => Nat.le_findGreatest hd h
  intro h
  rcases Nat.eq_zero_or_pos d with rfl | hpos
  · exact Nat.zero_le _
  · -- a number that does not end the wait is not below `d`
    have hspec := Nat.findGreatest_of_ne_zero (P := fun d => Single.ofNat d ≤ target vramSize)
      rfl (Nat.ne_of_gt (hpos.trans_le h))
    exact (ofNat_mono h).trans hspec

/-! ## §4  When the wait does not end early -/

/-- The report does not end the wait early: memory that is taken does not look like memory that
is free, and memory that is free is not between the threshold and 75 percent. -/
structure Sound (runner : RunnerRef) (gpusBefore gpusNow : List DeviceInfo) : Prop where
  taken : recovered gpusBefore gpusNow < 0 →
    recovered gpusBefore gpusNow % 2 ^ 64 ≤ threshold runner.vramSize.toNat
  free : 0 ≤ recovered gpusBefore gpusNow →
    recovered gpusBefore gpusNow ≤ threshold runner.vramSize.toNat ∨
      3 * (runner.vramSize.toNat : ℤ) < 4 * recovered gpusBefore gpusNow

variable {runner : RunnerRef} {gpusBefore gpusNow : List DeviceInfo} {events : List Event}

theorem converged_iff : converged runner (freeMemory gpusBefore) (freeMemory gpusNow) = true ↔
    threshold runner.vramSize.toNat < recovered gpusBefore gpusNow % 2 ^ 64 := by
  have hlt := (freeMemory gpusNow - freeMemory gpusBefore).toNat_lt
  unfold converged
  rw [decide_eq_true_eq, ← toNat_difference, ← Nat.not_le, ofNat_le_target_iff hlt.le, Nat.not_le,
    Nat.cast_lt]

/-- A poll that ends the wait only after the recovery is a sound one. -/
theorem sound_iff : Sound runner gpusBefore gpusNow ↔
    (converged runner (freeMemory gpusBefore) (freeMemory gpusNow) = true →
      3 * (runner.vramSize.toNat : ℤ) < 4 * recovered gpusBefore gpusNow) := by
  have hsize := runner.vramSize.toNat_lt
  rw [converged_iff]
  constructor
  · rintro ⟨htaken, hfree⟩ hconverged
    rcases Int.lt_or_le (recovered gpusBefore gpusNow) 0 with hneg | hpos
    · exact absurd hconverged (Int.not_lt.mpr (htaken hneg))
    · rcases hfree hpos with hle | hmore
      · -- a remainder is not larger
        have : recovered gpusBefore gpusNow % 2 ^ 64 ≤ recovered gpusBefore gpusNow := by omega
        exact absurd hconverged (Int.not_lt.mpr (this.trans hle))
      · exact hmore
  · intro h
    constructor
    · intro hneg
      by_contra hconverged
      omega
    intro hpos
    by_contra hnone
    rw [not_or] at hnone
    obtain ⟨hmore, hless⟩ := hnone
    rw [Int.not_lt] at hless
    apply hless.not_gt
    apply h
    rw [Int.emod_eq_of_lt hpos (by omega)]
    exact Int.not_le.mp hmore

/-- The wait is over for good. -/
theorem foldl_step_over {wait : Wait} (h : wait ≠ .waiting) (events : List Event) :
    events.foldl (step runner gpusBefore) wait = wait := by
  induction events with
  | nil => rfl
  | cons event events ih =>
    have hstep : step runner gpusBefore wait event = wait := by
      cases wait with
      | waiting => exact absurd rfl h
      | unneeded => rfl
      | finished _ => rfl
      | timedOut => rfl
    rw [foldl_cons, hstep]
    exact ih

/-- The polls of a wait, up to the one that ends it, are sound. -/
def SoundWhileWaiting (runner : RunnerRef) (gpusBefore : List DeviceInfo) (events : List Event) :
    Prop :=
  ∀ before gpusNow after, events = before ++ .tick gpusNow :: after →
    run runner gpusBefore before = .waiting → Sound runner gpusBefore gpusNow

theorem run_append (before after : List Event) : run runner gpusBefore (before ++ after) =
      after.foldl (step runner gpusBefore) (run runner gpusBefore before) :=
  foldl_append

/-- A wait that has ended at a poll: the polls before it, and the one that has ended it. -/
theorem run_finished (h : run runner gpusBefore events = .finished gpusNow) :
    ∃ before after, events = before ++ .tick gpusNow :: after ∧
      run runner gpusBefore before = .waiting ∧
      converged runner (freeMemory gpusBefore) (freeMemory gpusNow) = true := by
  induction events using List.reverseRecOn with
  | nil =>
    unfold run start at h
    split at h <;> cases h
  | append_singleton events event ih =>
    rw [run_append, foldl_cons, foldl_nil] at h
    cases hrun : run runner gpusBefore events with
    | finished gpus =>
      rw [hrun] at h
      cases h
      obtain ⟨before, after, rfl, hwaiting, hconverged⟩ := ih hrun
      refine ⟨before, after ++ [event], ?_, hwaiting, hconverged⟩
      rw [append_assoc, cons_append]
    | unneeded =>
      rw [hrun] at h
      cases h
    | timedOut =>
      rw [hrun] at h
      cases h
    | waiting =>
      rw [hrun] at h
      cases event with
      | done => cases h
      | tick gpus =>
        rw [step] at h
        split at h
        · next hconverged =>
          cases h
          exact ⟨events, [], rfl, hrun, hconverged⟩
        · cases h

/-- **VRAM recovery.** A wait ends at a poll only with more than 75 percent back exactly when the
polls up to its end are sound. -/
theorem recovers_iff : Recovers runner gpusBefore events ↔
    SoundWhileWaiting runner gpusBefore events := by
  constructor
  · rintro h before gpusNow after rfl hwaiting
    rw [sound_iff]
    intro hconverged
    apply h
    rw [run_append, hwaiting, foldl_cons, step, if_pos hconverged]
    exact foldl_step_over (fun h => Wait.noConfusion h) after
  · intro h now hfinished
    obtain ⟨before, after, heq, hwaiting, hconverged⟩ := run_finished hfinished
    exact sound_iff.mp (h before now after heq hwaiting) hconverged

theorem run_tick (hstart : start runner = .waiting)
    (hconverged : converged runner (freeMemory gpusBefore) (freeMemory gpusNow) = true) :
    run runner gpusBefore [.tick gpusNow] = .finished gpusNow := by
  unfold run
  rw [hstart, foldl_cons, foldl_nil, step, if_pos hconverged]

/-- Another process takes 1 MiB from a GPU, and 8 GiB count as back. -/
theorem not_recovers_taken :
    ¬ Recovers ⟨["CUDA"], true, 8589934592⟩ [⟨4294967296⟩] [.tick [⟨4293918720⟩]] := by
  intro h
  have hfinished := h _ (run_tick (if_neg (by decide)) (by decide +kernel))
  exact absurd hfinished (by decide +kernel)

end Ollama.Server.VRAMRecovery
