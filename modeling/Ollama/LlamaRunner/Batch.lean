import Ollama.Lib.Transition
import Ollama.LlamaRunner.Cache

/-!
# Sequences and batches: model of `runner/llamarunner/runner.go`

Requests take a slot; `processBatch` fills one batch from all sequences,
decodes it and samples. The lock is held from the filling to the end of the
sampling.
-/

namespace Ollama.LlamaRunner

open Lib (System)

/-! ## §1  State -/

/-- `Sequence`; `cache` is the index of its slot. The last three fields are
history: what it was given to decode since it took its slot (or since a
refused shift queued its inputs again), what has been decoded of that, and all
its inputs less those that shifts have discarded. -/
structure Sequence where
  inputs : List Input
  pendingInputs : List Input := []
  cache : Nat
  iBatch : Int := 0
  numPredict : Int
  numPredicted : Nat := 0
  numKeep : Nat
  embeddingOnly : Bool
  shift : Bool
  handed : List Input
  decoded : List Decoded := []
  whole : List Input
deriving DecidableEq, Repr

/-- `llama.Batch` -/
structure Batch where
  size : Nat
  embedSize : Nat
  entries : List Entry := []
deriving DecidableEq, Repr

def Batch.isEmbedding (b : Batch) : Bool := b.embedSize ≠ 0

def tokenBatch (P : Params) : Batch := { size := P.batchSize, embedSize := 0 }

def embedBatch (P : Params) : Batch :=
  if P.image then { size := P.batchSize, embedSize := P.nEmbd } else { size := 0, embedSize := 0 }

/-- `sampling`: a batch has been decoded and its results are being worked off.
`batch` is the batch decoded last. `aborted`: an assertion has failed. -/
structure State where
  slots : List InputCacheSlot
  mem : Memory
  seqs : List (Option Sequence)
  nextSeq : Nat := 0
  batch : Option Batch := none
  sampling : Bool := false
  aborted : Bool := false
deriving DecidableEq, Repr

/-! ## §2  Filling a batch -/

/-- The variables of the inner loop of `processBatch`; `inputs` are those of
the sequence's slot. -/
structure Filling where
  inputs : List Input
  mem : Memory
  seq : Sequence
  batch : Option Batch
  nextSeq : Nat
  numOutputs : Nat
  removed : Bool := false

def discardFrom (numKeep discard : Nat) (xs : List Input) : List Input :=
  xs.take numKeep ++ xs.drop (numKeep + discard)

def Filling.shifted (f : Filling) (mem : Memory) (inputs : List Input) : Filling :=
  { f with
    inputs, mem
    seq := { f.seq with
      whole := discardFrom f.seq.numKeep (f.inputs.length - inputs.length) f.seq.whole } }

/-- After a refused shift: the inputs are queued again. -/
def Filling.reprocess (f : Filling) (mem : Memory) (inputs : List Input) : Filling :=
  { f with
    inputs := [], mem
    seq := { f.seq with
      inputs := inputs ++ f.seq.inputs
      handed := inputs ++ f.seq.inputs
      decoded := []
      whole := discardFrom f.seq.numKeep (f.inputs.length - inputs.length) f.seq.whole } }

/-- The end of the body of the inner loop: put input number `i` into a batch.
The second component is whether the loop is left. -/
def Filling.add (P : Params) (seqIdx i : Nat) (input : Input) (f : Filling) : Filling × Bool :=
  let batch := f.batch.getD (if input.isEmbed then embedBatch P else tokenBatch P)
  if f.batch.isSome ∧ input.isEmbed ≠ batch.isEmbedding then ({ f with nextSeq := seqIdx }, true)
  else if batch.size ≤ i then ({ f with batch := some batch }, true)
  else
    let output := decide (i + 1 = f.seq.inputs.length)
    let before := f.inputs ++ f.seq.pendingInputs
    let entry : Entry :=
      { input, pos := (f.inputs.length + f.seq.pendingInputs.length : Nat), logits := output,
        seqId := f.seq.cache, before }
    ({ f with
        batch := some { batch with entries := batch.entries ++ [entry] }
        numOutputs := if output then f.numOutputs + 1 else f.numOutputs
        seq := { f.seq with
          pendingInputs := f.seq.pendingInputs ++ [input]
          iBatch := ((batch.entries.length + 1 : Nat) : Int) - 1 } }, false)

/-- The inner loop of `processBatch`, over the inputs that the sequence had
when it began; `none` is an error, on which the runner panics. -/
def fillInputs (P : Params) (refused : Bool) (seqIdx : Nat) :
    List (Input × Nat) → Filling → Option Filling
  | [], f => some f
  | (input, i) :: rest, f =>
      if P.numCtx < f.inputs.length + f.seq.pendingInputs.length + 1 then
        if f.seq.pendingInputs = [] then
          if !f.seq.shift then some { f with removed := true }
          else
            match shiftCacheSlot P f.mem f.seq.cache f.inputs f.seq.numKeep refused with
            | .keepExceedsContext => none
            | .reprocess mem inputs => fillInputs P refused seqIdx rest (f.reprocess mem inputs)
            | .shifted mem inputs =>
                match (f.shifted mem inputs).add P seqIdx i input with
                | (f, true) => some f
                | (f, false) => fillInputs P refused seqIdx rest f
        else some f
      else
        match f.add P seqIdx i input with
        | (f, true) => some f
        | (f, false) => fillInputs P refused seqIdx rest f

structure Fill where
  slots : List InputCacheSlot
  mem : Memory
  seqs : List (Option Sequence)
  nextSeq : Nat
  batch : Option Batch := none
  numOutputs : Nat := 0

/-- `removeSequence` -/
def removeSeq (slots : List InputCacheSlot) (seqs : List (Option Sequence)) (j cache : Nat) :
    List InputCacheSlot × List (Option Sequence) :=
  (slots.modify cache fun s => { s with inUse := false }, seqs.set j none)

def Filling.leave (r : Filling) : Sequence :=
  { r.seq with inputs := r.seq.inputs.drop r.seq.pendingInputs.length }

/-- What the inner loop leaves is written back. -/
def Fill.write (f : Fill) (j cache : Nat) (r : Filling) : Fill :=
  { slots := f.slots.modify cache fun s => { s with inputs := r.inputs }
    mem := r.mem
    seqs := f.seqs.set j (some r.leave)
    nextSeq := r.nextSeq
    batch := r.batch
    numOutputs := r.numOutputs }

/-- The body of the outer loop for sequence `j`. -/
def fillSeq (P : Params) (refused : Nat → Bool) (f : Fill) (j : Nat) : Option Fill :=
  match f.seqs[j]? with
  | some (some q) =>
      if 0 < q.numPredict ∧ q.numPredict ≤ q.numPredicted then
        let (slots, seqs) := removeSeq f.slots f.seqs j q.cache
        some { f with slots, seqs }
      else
        match f.slots[q.cache]? with
        | none => none
        | some slot =>
            match fillInputs P (refused j) j q.inputs.zipIdx
                { inputs := slot.inputs, mem := f.mem, seq := q, batch := f.batch,
                  nextSeq := f.nextSeq, numOutputs := f.numOutputs } with
            | none => none
            | some r =>
                let f := f.write j q.cache r
                if r.removed then
                  let (slots, seqs) := removeSeq f.slots f.seqs j q.cache
                  some { f with slots, seqs }
                else some f
  | _ => some f

/-- The order in which the outer loop visits the sequences. -/
def order (nextSeq n : Nat) : List Nat := (List.range n).map fun k => (nextSeq + k) % n

def fillBatch (P : Params) (refused : Nat → Bool) (s : State) : Option Fill :=
  (order s.nextSeq s.seqs.length).foldlM (fillSeq P refused)
    { slots := s.slots, mem := s.mem, seqs := s.seqs, nextSeq := s.nextSeq }

/-! ## §3  Decoding -/

/-- The pending inputs of a sequence are in the cache. -/
def appendPending (slots : List InputCacheSlot) (seqs : List (Option Sequence)) :
    List InputCacheSlot :=
  seqs.foldl (fun slots q =>
    match q with
    | none => slots
    | some q => slots.modify q.cache fun s => { s with inputs := s.inputs ++ q.pendingInputs })
    slots

def Sequence.afterDecode (decoded : List Decoded) (q : Sequence) : Sequence :=
  { q with
    pendingInputs := []
    decoded := q.decoded ++ decoded.filter fun d => d.entry.seqId = q.cache }

/-- `processBatch` up to the results: the batch is filled and decoded.
`refused j` says whether the memory refuses to remove a part of the slot of
sequence `j`, `evict` how far the window cache purges. -/
def decodeBatch (P : Params) (refused : Nat → Bool) (evict : Nat → Int) (s : State) :
    Option State :=
  match fillBatch P refused s with
  | none => none
  | some f =>
      let s := { s with slots := f.slots, mem := f.mem, seqs := f.seqs, nextSeq := f.nextSeq,
                        batch := none }
      match f.batch with
      | none => some s
      | some b =>
          if b.entries = [] then some s
          else
            let (mem, decoded) := decode P.window evict 0 f.mem b.entries
            some { s with
              mem
              slots := appendPending f.slots f.seqs
              seqs := f.seqs.map (Option.map (Sequence.afterDecode decoded))
              batch := some b
              sampling := true }

/-! ## §4  Sampling -/

/-- What sampling comes to for one sequence: the token, whether it ends the
generation, whether the text hit a stop string (`origLen`, `newLen` and
`tokenTruncated` of the pending responses), and whether the client is gone. -/
structure Sampled where
  token : Int
  eog : Bool
  stop : Option (Nat × Nat × Bool)
  closed : Bool
deriving DecidableEq, Repr

def State.remove (s : State) (j cache : Nat) : State :=
  let (slots, seqs) := removeSeq s.slots s.seqs j cache
  { s with slots, seqs }

/-- The results for sequence `j`; `none` is a slice bound out of range. -/
def sampleSeq (o : Sampled) (s : State) (j : Nat) : Option State :=
  match s.seqs[j]? with
  | some (some q) =>
      if q.inputs ≠ [] then some s
      else if q.embeddingOnly then some (s.remove j q.cache)
      else if o.eog then some (s.remove j q.cache)
      else
        match o.stop with
        | some (origLen, newLen, tokenTruncated) =>
            let len := ((s.slots[q.cache]?.getD {}).inputs).length
            let tokenLen : Int := (len : Int) + 1 - ((origLen : Int) - newLen)
            let tokenLen := if tokenTruncated ∨ origLen = newLen then tokenLen - 1 else tokenLen
            if tokenLen < 0 ∨ (len : Int) < tokenLen then none
            else
              let slots := s.slots.modify q.cache fun slot =>
                { slot with inputs := slot.inputs.take tokenLen.toNat }
              some ({ s with slots }.remove j q.cache)
        | none =>
            if o.closed then some (s.remove j q.cache)
            else
              some { s with
                seqs := s.seqs.set j (some { q with
                    inputs := [.token o.token]
                    numPredicted := q.numPredicted + 1
                    handed := q.handed ++ [.token o.token]
                    whole := q.whole ++ [.token o.token] }) }
  | _ => some s

/-- The loop over the sequences after `Decode`. -/
def sampleAll (o : Nat → Sampled) (s : State) : Option State :=
  (List.range s.seqs.length).foldlM (fun s j => sampleSeq (o j) s j) s

/-! ## §5  Runs -/

structure Request where
  inputs : List Input
  numKeep : Int
  addBOSToken : Bool
  truncate : Bool
  shift : Bool
  embedding : Bool
  cachePrompt : Bool
  numPredict : Int
deriving DecidableEq, Repr

/-- `NewSequence` after `inputs`: the inputs left and `numKeep`. -/
def newSequence (P : Params) (r : Request) : Option (List Input × Nat) :=
  if r.inputs.length = 0 then none
  else
    let numKeep := if r.numKeep < 0 then (r.inputs.length : Int) else r.numKeep
    let numKeep := if r.addBOSToken then numKeep + 1 else numKeep
    let numKeep := (min numKeep ((P.numCtx : Int) - 1)).toNat
    if P.numCtx < r.inputs.length then
      let discard := r.inputs.length - P.numCtx
      if !r.truncate then none
      else some (r.inputs.take numKeep ++ r.inputs.drop (numKeep + discard), numKeep)
    else some (r.inputs, numKeep)

/-- `completion` and `embeddings` up to where the sequence is running. A panic
leaves the lock held, and nothing happens any more. -/
def request (P : Params) (r : Request) (refused : Bool) (nowSearch now : Int) (s : State) :
    Option State :=
  match newSequence P r with
  | none => some s
  | some (inputs, numKeep) =>
      match s.seqs.findIdx? Option.isNone with
      | none => some s
      | some j =>
          match loadCacheSlot P s.slots s.mem inputs r.cachePrompt refused nowSearch now with
          | .err => some s
          | .panic => none
          | .abort => some { s with aborted := true }
          | .ok (slots, mem, i, rest) =>
              some { s with
                slots, mem
                seqs := s.seqs.set j (some
                  { inputs := rest, cache := i, numPredict := r.numPredict, numKeep,
                    embeddingOnly := r.embedding, shift := r.shift, handed := rest,
                    whole := inputs }) }

inductive Action where
  | request (r : Request) (refused : Bool) (nowSearch now : Int)
  | decode (refused : Nat → Bool) (evict : Nat → Int)
  | sample (o : Nat → Sampled)

def step (P : Params) (s : State) (a : Action) : Option State :=
  if s.aborted then none
  else
    match a with
    | .request r refused nowSearch now =>
        if s.sampling then none else request P r refused nowSearch now s
    | .decode refused evict => if s.sampling then none else decodeBatch P refused evict s
    | .sample o =>
        if s.sampling then (sampleAll o s).map fun s => { s with sampling := false } else none

/-- `n` parallel sequences. -/
def initial (n : Nat) : State :=
  { slots := List.replicate n {}, mem := List.replicate n {}, seqs := List.replicate n none }

def system (P : Params) : System State Action where
  init := fun s => ∃ n, s = initial n
  step := fun s a s' => step P s a = some s'

end Ollama.LlamaRunner
