import Ollama.Llm.Layout

/-!
# Searching for a layout

`ollamaServer.Load` of `llm/server.go`: the layout is adjusted to the memory
reports of the runner, first by fitting, then by allocating, and is committed.
The runner is an oracle that may answer anything.
-/

namespace Ollama.Llm

open Lib

/-! ## §1  What is asked and answered -/

inductive LoadOperation
  | fit
  | alloc
  | commit
  | close
deriving DecidableEq

/-- `operation++` -/
def LoadOperation.next : LoadOperation → LoadOperation
  | .fit => .alloc
  | .alloc => .commit
  | .commit => .close
  | .close => .close

structure LoadResponse (n : ℕ) where
  success : Bool
  memory : BackendMemory n

/-- A call of `initModel`; no answer is an error. -/
structure Call (n : ℕ) where
  operation : LoadOperation
  layout : Layout
  answer : Option (LoadResponse n)

/-- `ollamaServer` when `Load` is called: the memory report and the requested
number of layers may be those of an earlier call. The runner answers by what it
has been asked so far. -/
structure OllamaServer (n : ℕ) extends Machine where
  hash : List (String × List ℕ) → ℕ
  initModel : List (Call n) → LoadOperation → Layout → Option (LoadResponse n)
  launched : Bool
  mem : Option (BackendMemory n)
  numGPU : ℤ

/-! ## §2  `Load` -/

/-- Where `Load` is. -/
inductive Point (n : ℕ)
  /-- Before the first layout. -/
  | start
  /-- The head of `nextLoad`, or the commit. -/
  | request
  /-- The head of the loop that makes new layouts. -/
  | adjust (resp : LoadResponse n)
  /-- The exploration of intermediate layer counts, at `i`. -/
  | trial (resp : LoadResponse n) (i : ℤ)
  /-- After a successful trial. -/
  | verify (resp : LoadResponse n) (new : Layout) (i : ℤ)
  /-- After the exploration. -/
  | settle (resp : LoadResponse n)

/-- The variables of `Load`; `backoff` counts the increments. -/
structure LoadState (n : ℕ) where
  point : Point n
  operation : LoadOperation
  gpuLayers : Layout
  mem : Option (BackendMemory n)
  numGPU : ℤ
  pastAllocations : List ℕ
  backoff : ℕ
  calls : List (Call n)

/-- `backoff += 0.1`, so many times. -/
def backoffValue : ℕ → ℕ
  | 0 => 0
  | k + 1 => Single.add (backoffValue k) (13421773 * 2 ^ 122)

def uniqueDeviceIDs (l : Layout) : List DeviceID :=
  l.foldl (fun devices g => if g.deviceID ∈ devices then devices else devices ++ [g.deviceID]) []

structure LoadResult (n : ℕ) where
  answer : Except LoadError (List DeviceID)
  calls : List (Call n)

namespace OllamaServer

variable {n : ℕ} (srv : OllamaServer n)

def fail (st : LoadState n) (e : LoadError) : LoadState n ⊕ LoadResult n :=
  .inr ⟨.error e, ⟨.close, [], srv.initModel st.calls .close []⟩ :: st.calls⟩

/-- The layout that is asked for in a turn, with its memory report, its number of
layers and its backoff. -/
def layoutFor (st : LoadState n) : Option (Option (BackendMemory n) × ℤ × ℕ) :=
  match st.point with
  | .start => some (srv.mem, st.numGPU, 0)
  | .adjust _ => some (st.mem, st.numGPU, backoffValue st.backoff)
  | .trial _ i =>
      if (st.gpuLayers.sum : ℤ) ≤ i then some (st.mem, i, backoffValue st.backoff) else none
  | .verify resp _ _ => some (some resp.memory, st.numGPU, backoffValue st.backoff)
  | _ => none

/-- The request for the layout at hand. -/
def request (st : LoadState n) : LoadState n ⊕ LoadResult n :=
  let answer := srv.initModel st.calls st.operation st.gpuLayers
  let st := { st with calls := ⟨st.operation, st.gpuLayers, answer⟩ :: st.calls }
  match answer with
  | none => srv.fail st .init
  | some resp =>
      if st.operation = .commit then
        if resp.success then .inr ⟨.ok (uniqueDeviceIDs st.gpuLayers), st.calls⟩
        else srv.fail st .commit
      else
        .inl { st with
          point := .adjust resp
          pastAllocations := srv.hash st.gpuLayers.digest :: st.pastAllocations
          mem := some resp.memory }

/-- A new layout after an answer. -/
def adjust (st : LoadState n) (resp : LoadResponse n) (new : Layout) (numGPU : ℤ) : LoadState n :=
  let st := { st with numGPU := numGPU }
  if srv.hash new.digest ∉ st.pastAllocations ∧ new.sum ≤ st.gpuLayers.sum then
    { st with gpuLayers := new, point := .request }
  else if numGPU < 0 ∧ 1 < (new.sum : ℤ) - st.gpuLayers.sum then
    { st with point := .trial resp (new.sum - 1) }
  else { st with point := .settle resp }

/-- A trial with a layout of `i` layers. -/
def trial (st : LoadState n) (i : ℤ) (new : Layout) : LoadState n ⊕ LoadResult n :=
  let answer := srv.initModel st.calls st.operation new
  let st := { st with numGPU := -1, calls := ⟨st.operation, new, answer⟩ :: st.calls }
  match answer with
  | none => srv.fail st .init
  | some resp =>
      if resp.success then .inl { st with point := .verify resp new i }
      else .inl { st with point := .trial resp (i - 1) }

/-- The layout that the report of a trial leads to. -/
def verify (st : LoadState n) (resp : LoadResponse n) (new : Layout) (i : ℤ) (verified : Layout)
    (numGPU : ℤ) : LoadState n :=
  let st := { st with numGPU := numGPU }
  if new.sum ≤ verified.sum then
    { st with
      gpuLayers := new, pastAllocations := [], operation := st.operation.next, point := .request }
  else { st with point := .trial resp (i - 1) }

def settle (st : LoadState n) (resp : LoadResponse n) : LoadState n ⊕ LoadResult n :=
  if resp.success then .inl { st with operation := st.operation.next, point := .request }
  else if 0 ≤ st.numGPU then srv.fail st .numGPU
  else if Single.one < backoffValue st.backoff then srv.fail st .allocate
  else .inl { st with backoff := st.backoff + 1, point := .adjust resp }

/-- What is done with a layout that has been made. -/
def withLayout (st : LoadState n) (new : Layout) (numGPU : ℤ) : LoadState n ⊕ LoadResult n :=
  match st.point with
  | .start =>
      if srv.launched then
        .inl { st with gpuLayers := new, numGPU := numGPU, point := .request }
      else srv.fail st .launch
  | .adjust resp => .inl (srv.adjust st resp new numGPU)
  | .trial _ i => srv.trial st i new
  | .verify resp l i => .inl (verify st resp l i new numGPU)
  | _ => .inl st

def without (st : LoadState n) : LoadState n ⊕ LoadResult n :=
  match st.point with
  | .request => srv.request st
  | .trial resp _ => .inl { st with point := .settle resp }
  | .settle resp => srv.settle st resp
  | _ => .inl st

/-- `Load`, from one point to the next; `none` when `createLayout` does not
return. -/
def turn (st : LoadState n) : Option (LoadState n ⊕ LoadResult n) :=
  match srv.layoutFor st with
  | none => some (srv.without st)
  | some (memory, numGPU, backoff) =>
      (srv.createLayout memory numGPU backoff).map fun
        | (.error e, _) => srv.fail st e
        | (.ok new, numGPU) => srv.withLayout st new numGPU

def start : LoadState n where
  point := .start
  operation := .fit
  gpuLayers := []
  mem := srv.mem
  numGPU := srv.numGPU
  pastAllocations := []
  backoff := 0
  calls := []

/-- `Load`, in so many turns. -/
def load (turns : ℕ) : Option (LoadResult n) := Loop.run srv.turn turns srv.start

end OllamaServer

end Ollama.Llm
