import Ollama.KvCache.Causal

/-!
# The input cache of the runner: model of `runner/ollamarunner/cache.go`

The slots and the bookkeeping that hands them out. The cache behind them is
any implementation of `kvcache.Cache` (`CacheOps`), so that the same code runs
over the causal and the recurrent one.
-/

namespace Ollama.Runner

open KvCache (maxInt32 toInt32)

/-! ## §1  State -/

/-- `input.Input`: a token or a piece of multimodal data, which is compared by
its hash. The next `sameBatch` inputs belong to the same batch. -/
structure Input where
  token : Int
  multimodalHash : Nat := 0
  sameBatch : Int := 0
deriving DecidableEq, Repr

/-- `InputCacheSlot`. Times are integers on the clock of `time.Now`. -/
structure InputCacheSlot where
  id : Nat
  inputs : List Input := []
  inUse : Bool := false
  lastUsed : Int := 0
deriving DecidableEq, Repr

/-- The part of `kvcache.Cache` (and, where it is implemented, of
`kvcache.CheckpointCache`) that the input cache calls. `remove` returns
whether it failed. -/
structure CacheOps (σ : Type) where
  canResume : σ → Int → Int → Bool
  prepareRestore : Option (σ → Int → Int → σ × Option Int)
  remove : σ → Int → Int → Int → σ × Bool
  copyPrefix : σ → Int → Int → Int → σ

/-- `InputCache`; `cache` is `none` when the model has no cache. -/
structure InputCache (σ : Type) where
  numCtx : Int
  slots : List InputCacheSlot
  multiUserCache : Bool
  cache : Option σ

/-- The errors of the input cache; `reprocess` is `ErrReprocessInputs`. -/
inductive InputCacheError where
  | noSlots
  | cache
  | keepExceedsContext
  | reprocess (inputs : List Input)
deriving DecidableEq, Repr

inductive Outcome (α : Type) where
  | ok (a : α)
  | err (e : InputCacheError)
  | panic
deriving DecidableEq, Repr

/-! ## §2  `findLongestCacheSlot` and `findBestCacheSlot` -/

def countCommonPrefix : List Input → List Input → Nat
  | a :: as, b :: bs =>
      if a.token ≠ b.token ∨ a.multimodalHash ≠ b.multimodalHash then 0
      else countCommonPrefix as bs + 1
  | _, _ => 0

section Search

variable {σ : Type}

/-- One slot of the loop of `findLongestCacheSlot`: `longest` and the index of
`longestSlot`. -/
def longestStep (prompt : List Input) (best : Int × Option Nat)
    (p : InputCacheSlot × Nat) : Int × Option Nat :=
  if p.1.inUse then best
  else
    let count : Int := countCommonPrefix p.1.inputs prompt
    if best.1 < count then (count, some p.2) else best

def findLongestCacheSlot (c : InputCache σ) (prompt : List Input) :
    Outcome (InputCache σ × Nat × Int) :=
  let (longest, longestSlot) := c.slots.zipIdx.foldl (longestStep prompt) (-1, none)
  match longestSlot with
  | none => .err .noSlots
  | some i => .ok (c, i, longest)

/-- The variables of the loop of `findBestCacheSlot`. -/
structure BestSlots where
  oldest : Int
  oldestSlot : Option Nat := none
  longest : Int := -1
  longestSlot : Option Nat := none

def bestStep (prompt : List Input) (b : BestSlots) (p : InputCacheSlot × Nat) : BestSlots :=
  let count : Int := countCommonPrefix p.1.inputs prompt
  let b := if b.longest < count then { b with longest := count, longestSlot := some p.2 } else b
  if p.1.lastUsed < b.oldest ∧ !p.1.inUse then
    { b with oldest := p.1.lastUsed, oldestSlot := some p.2 }
  else b

/-- `now` is what `time.Now` returns. A slot pointer that is nil is
dereferenced where the source reads `longestSlot.Inputs` and
`oldestSlot.InUse`. -/
def findBestCacheSlot (ops : CacheOps σ) (c : InputCache σ) (prompt : List Input)
    (now : Int) : Outcome (InputCache σ × Nat × Int) :=
  let b := c.slots.zipIdx.foldl (bestStep prompt) { oldest := now }
  match b.longestSlot.bind (fun i => (c.slots[i]?).map (i, ·)) with
  | none => .panic
  | some (i, longestSlot) =>
      if b.longest = longestSlot.inputs.length ∧ !longestSlot.inUse then
        .ok (c, i, b.longest)
      else
        match b.oldestSlot.bind (fun k => (c.slots[k]?).map (k, ·)) with
        | none => .panic
        | some (k, oldestSlot) =>
            if oldestSlot.inUse then .err .noSlots
            else if 0 < b.longest ∧ i ≠ k then
              let c :=
                { c with
                  slots := c.slots.set k
                    { oldestSlot with inputs := longestSlot.inputs.take b.longest.toNat }
                  cache := c.cache.map fun s =>
                    ops.copyPrefix s longestSlot.id oldestSlot.id b.longest }
              .ok (c, k, b.longest)
            else .ok (c, k, b.longest)

/-! ## §3  `LoadCacheSlot` -/

/-- What the cache says of resuming at `numPast`: the checkpoint to restore, or
whether the window is still there. -/
def resumeAt (ops : CacheOps σ) (s : σ) (id : Nat) (numPast : Int) : σ × Int :=
  if 0 < numPast then
    match ops.prepareRestore with
    | some prepareRestore =>
        match prepareRestore s id numPast with
        | (s, some restored) => (s, restored)
        | (s, none) => (s, 0)
    | none => if ops.canResume s id numPast then (s, numPast) else (s, 0)
  else (s, numPast)

/-- Trim the cache to `numPast` inputs, or to nothing when it cannot be
trimmed; the last value is whether clearing failed as well. -/
def trimTo (ops : CacheOps σ) (s : σ) (id : Nat) (numPast : Int) : σ × Int × Bool :=
  match ops.remove s id numPast maxInt32 with
  | (s, false) => (s, numPast, false)
  | (s, true) =>
      match ops.remove s id 0 maxInt32 with
      | (s, false) => (s, 0, false)
      | (s, true) => (s, 0, true)

/-- What a call of `LoadCacheSlot` leaves, and what it returns: the index of
the slot and the inputs that remain to be processed. -/
structure Loaded (σ : Type) where
  cache : InputCache σ
  result : Outcome (Nat × List Input)

/-- The part of `LoadCacheSlot` after the search has returned slot `i`. -/
def loadSlot (ops : CacheOps σ) (c : InputCache σ) (prompt : List Input)
    (cachePrompt : Bool) (now : Int) (i : Nat) (numPast : Int) : Loaded σ :=
  match c.slots[i]? with
  | none => ⟨c, .panic⟩
  | some slot =>
      let numPast := if cachePrompt then numPast else 0
      let slot := { slot with inUse := true, lastUsed := now }
      let c := { c with slots := c.slots.set i slot }
      let numPast := if numPast = prompt.length then numPast - 1 else numPast
      let (cache, numPast, failed) :=
        match c.cache with
        | none => (none, numPast, false)
        | some s =>
            let (s, numPast) := resumeAt ops s slot.id numPast
            let (s, numPast, failed) := trimTo ops s slot.id numPast
            (some s, numPast, failed)
      let c := { c with cache }
      if failed then ⟨c, .err .cache⟩
      else if numPast < 0 then ⟨c, .panic⟩
      else
        ⟨{ c with slots := c.slots.set i { slot with inputs := prompt.take numPast.toNat } },
          .ok (i, prompt.drop numPast.toNat)⟩

/-- `LoadCacheSlot`; `nowSearch` and `now` are what the two calls of `time.Now`
return. -/
def loadCacheSlot (ops : CacheOps σ) (c : InputCache σ) (prompt : List Input)
    (cachePrompt : Bool) (nowSearch now : Int) : Loaded σ :=
  let found :=
    if c.multiUserCache then findBestCacheSlot ops c prompt nowSearch
    else findLongestCacheSlot c prompt
  match found with
  | .panic => ⟨c, .panic⟩
  | .err e => ⟨c, .err e⟩
  | .ok (c, i, numPast) => loadSlot ops c prompt cachePrompt now i numPast

end Search

/-! ## §4  `ShiftDiscard` and `ShiftCacheSlot` -/

/-- The loop of `ShiftDiscard`; the inputs are those after the kept ones. -/
def discardLoop (targetFree : Int) : Int → Int → Int → List Input → Int
  | _, _, discard, [] => discard
  | currentFree, sameBatch, discard, input :: rest =>
      if sameBatch ≤ 0 ∧ targetFree ≤ currentFree then discard
      else
        let sameBatch := sameBatch - 1
        discardLoop targetFree (currentFree + 1)
          (if 0 < input.sameBatch then toInt32 input.sameBatch else sameBatch) (discard + 1) rest

/-- How many inputs a shift discards after the first `numKeep`. -/
def shiftDiscard (numCtx : Int) (inputs : List Input) (numKeep : Int) : Int :=
  discardLoop (max ((numCtx - numKeep).tdiv 2) 1) (numCtx - inputs.length) 0 0
    (inputs.drop numKeep.toNat)

/-- `ShiftCacheSlot` on a slot with the inputs `inputs`: the cache, the inputs
left in the slot and the error. A failed removal leaves the slot empty and
returns the inputs that have to be processed again. -/
def shiftCacheSlot {σ : Type} (ops : CacheOps σ) (numCtx : Int) (cache : Option σ)
    (id : Nat) (inputs : List Input) (numKeep : Int) :
    Option σ × List Input × Option InputCacheError :=
  if numCtx ≤ numKeep then (cache, inputs, some .keepExceedsContext)
  else
    let discard := shiftDiscard numCtx inputs numKeep
    if discard ≤ 0 then (cache, inputs, none)
    else
      let kept := inputs.take numKeep.toNat ++ inputs.drop (numKeep + discard).toNat
      match cache with
      | none => (none, kept, none)
      | some s =>
          match ops.remove s id numKeep (numKeep + discard) with
          | (s, false) => (some s, kept, none)
          | (s, true) =>
              (some (ops.remove s id 0 maxInt32).1, [], some (.reprocess kept))

end Ollama.Runner
