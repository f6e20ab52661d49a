import Ollama.KvCache.Causal

/-!
# The recurrent cache: model of `kvcache/recurrent.go` and `recurrent_checkpoints.go`

A causal cache, a slot of recurrent state for each sequence, shared until it
is written, and a ring of checkpoints for each slot. The state tensors of a
slot stand for the tokens they were computed from (`List τ`, the empty list
for a zeroed slot), in all layers at once. Go maps are functions; the end of
the slice `freeSlots` is the head of the list.
-/

namespace Ollama.KvCache

open Function

/-- The errors of the recurrent cache. `noSlot` is the `ErrKvCacheFull` of
`allocSlot`, kept apart from that of the causal cache. -/
inductive RecurrentError where
  | kv (e : CacheError)
  | noSlot
  | notSupported
deriving DecidableEq, Repr

/-! ## §1  `slotCheckpointStore` -/

/-- `checkpointEntry`; `state` is `none` while no tensor was allocated. -/
structure CheckpointEntry (τ : Type) where
  pos : Int := -1
  state : Option (List τ) := none
deriving DecidableEq, Repr

structure SlotCheckpointStore (τ : Type) where
  entries : List (CheckpointEntry τ)
  size : Nat := 0
  next : Nat := 0
  lastPos : Int := -1
deriving DecidableEq, Repr

structure CheckpointRestore where
  slot : Nat
  idx : Nat
  pos : Int
deriving DecidableEq, Repr

namespace SlotCheckpointStore

variable {τ : Type}

/-- `newSlotCheckpointStore`. -/
def new (n : Nat) : SlotCheckpointStore τ where
  entries := List.replicate n {}

def reset (s : SlotCheckpointStore τ) : SlotCheckpointStore τ where
  entries := s.entries.map fun e => { e with pos := -1 }

/-- `record`: the index is `none` for a ring without entries. -/
def record (s : SlotCheckpointStore τ) (pos : Int) : SlotCheckpointStore τ × Option Nat :=
  if s.entries = [] then (s, none)
  else
    ({ entries := s.entries.modify s.next fun e => { e with pos }
       size := if s.size < s.entries.length then s.size + 1 else s.size
       next := (s.next + 1) % s.entries.length
       lastPos := pos }, some s.next)

/-- One entry of the loop of `bestIndex`. -/
def bestStep (targetPos : Int) (best : Int × Option Nat) (p : CheckpointEntry τ × Nat) :
    Int × Option Nat :=
  if p.1.pos < 0 ∨ targetPos ≤ p.1.pos then best
  else if best.1 < p.1.pos then (p.1.pos, some p.2)
  else best

/-- `bestIndex`: the entry with the greatest position below the target. -/
def bestIndex (s : SlotCheckpointStore τ) (targetPos : Int) : Option (Nat × Int) :=
  let (bestPos, bestIdx) := s.entries.zipIdx.foldl (bestStep targetPos) (-1, none)
  bestIdx.map fun i => (i, bestPos)

def minIdx (entries : List (CheckpointEntry τ)) : Nat :=
  (entries.zipIdx.foldl
    (fun (m : Int × Nat) p => if 0 ≤ p.1.pos ∧ p.1.pos < m.1 then (p.1.pos, p.2) else m)
    (maxInt32, 0)).2

/-- What the loops of `pruneAfter` and `shiftRange` set from the entries they
leave. -/
def rescan (entries : List (CheckpointEntry τ)) (lastPos : Int) : SlotCheckpointStore τ :=
  let size := entries.countP fun e => decide (0 ≤ e.pos)
  if size = 0 then { entries }
  else
    { entries
      size
      next := (entries.findIdx? fun e => decide (e.pos < 0)).getD (minIdx entries)
      lastPos }

def pruneAfter (s : SlotCheckpointStore τ) (pos : Int) : SlotCheckpointStore τ :=
  rescan (s.entries.map fun e => if pos < e.pos then { e with pos := -1 } else e) pos

/-- The position `shiftRange` gives an entry. -/
def shiftPos (beginIndex endIndex pos : Int) : Int :=
  if pos < 0 then pos
  else if beginIndex ≤ pos ∧ pos < endIndex then -1
  else if endIndex ≤ pos then pos + (beginIndex - endIndex)
  else pos

def shiftRange (s : SlotCheckpointStore τ) (beginIndex endIndex : Int) : SlotCheckpointStore τ :=
  let entries := s.entries.map fun e => { e with pos := shiftPos beginIndex endIndex e.pos }
  rescan entries (entries.foldl (fun m e => if 0 ≤ e.pos then max m e.pos else m) (-1))

end SlotCheckpointStore

/-! ## §2  The state -/

structure Recurrent (τ : Type) where
  kv : Causal
  maxSequences : Nat
  slotForSeq : Int → Option Nat
  refCount : Nat → Nat
  freeSlots : List Nat
  /-- What the rows of each slot were computed from. -/
  states : Nat → List τ
  /-- Whether a layer's state buffers have been allocated. -/
  buffers : Bool
  checkpointCount : Nat
  checkpointMinPos : Int
  checkpointInterval : Int
  checkpoints : Nat → Option (SlotCheckpointStore τ)
  pendingRestore : Int → Option CheckpointRestore
  curCheckpointPos : List Int
  curCheckpointSlots : Nat → Option Nat
  reserveCheckpoints : Bool
  curSeqs : List Int
  curSlots : List Nat
  writableEnsured : Bool
  writableError : Option RecurrentError

namespace Recurrent

variable {τ : Type}

/-- `NewRecurrentCache` and `Init` over the causal cache `kv`. -/
def init (kv : Causal) (maxSequences checkpointCount : Nat)
    (checkpointMinPos checkpointInterval : Int) : Recurrent τ where
  kv
  maxSequences
  slotForSeq _ := none
  refCount _ := 0
  freeSlots := List.range maxSequences
  states _ := []
  buffers := false
  checkpointCount
  checkpointMinPos
  checkpointInterval
  checkpoints _ := none
  pendingRestore _ := none
  curCheckpointPos := []
  curCheckpointSlots _ := none
  reserveCheckpoints := false
  curSeqs := []
  curSlots := []
  writableEnsured := false
  writableError := none

/-! ## §3  Slots -/

def validSlot (c : Recurrent τ) (slot : Nat) : Bool := decide (slot < c.maxSequences)

/-- `c.slotForSeq[seq] = slot; c.refCount[slot] = 1` for the slot that
`allocSlot` returned. -/
def assign (c : Recurrent τ) (seq : Int) (slot : Nat) (rest : List Nat) : Recurrent τ :=
  { c with
    freeSlots := rest
    slotForSeq := update c.slotForSeq seq (some slot)
    refCount := update c.refCount slot 1 }

/-- `checkpointStore`: the ring of a slot, made on the first use. -/
def checkpointStore (c : Recurrent τ) (slot : Nat) : SlotCheckpointStore τ :=
  (c.checkpoints slot).getD (.new c.checkpointCount)

def setStore (c : Recurrent τ) (slot : Nat) (s : SlotCheckpointStore τ) : Recurrent τ :=
  { c with checkpoints := update c.checkpoints slot (some s) }

def copyRecurrentState (c : Recurrent τ) (srcSlot dstSlot : Nat) : Recurrent τ :=
  { c with states := update c.states dstSlot (c.states srcSlot) }

def copyCheckpoints (c : Recurrent τ) (srcSlot dstSlot : Nat) : Recurrent τ :=
  if c.checkpointCount = 0 then c
  else
    match c.checkpoints srcSlot with
    | none => c
    | some src =>
        if src.size = 0 then c
        else
          c.setStore dstSlot { src with
              entries := List.zipWith (fun s d => ⟨s.pos, s.state.or d.state⟩) src.entries
                (c.checkpointStore dstSlot).entries }

/-- Give `seq` a copy of the slot it shares: `allocSlot`, the two copies and
the counts. `none` is the error of `allocSlot`. -/
def detach (c : Recurrent τ) (seq : Int) (slot : Nat) : Option (Recurrent τ × Nat) :=
  match c.freeSlots with
  | [] => none
  | newSlot :: rest =>
      let c := (c.copyRecurrentState slot newSlot).copyCheckpoints slot newSlot
      let c := { c with refCount := update c.refCount slot (c.refCount slot - 1) }
      some (c.assign seq newSlot rest, newSlot)

/-- The loop of `EnsureWritable` from index `i` on. -/
def ensureLoop : List Int → Nat → Recurrent τ → Recurrent τ × Option RecurrentError
  | [], _, c => (c, none)
  | seq :: rest, i, c =>
      match c.slotForSeq seq with
      | none => ensureLoop rest (i + 1) c
      | some slot =>
          if !c.validSlot slot then ensureLoop rest (i + 1) c
          else if c.refCount slot ≤ 1 then ensureLoop rest (i + 1) c
          else
            match c.detach seq slot with
            | none => (c, some .noSlot)
            | some (c, newSlot) =>
                ensureLoop rest (i + 1) { c with curSlots := c.curSlots.set i newSlot }

/-- `EnsureWritable`. -/
def ensureWritableAll (c : Recurrent τ) : Recurrent τ × Option RecurrentError :=
  ensureLoop c.curSeqs 0 c

def needsWritable (c : Recurrent τ) : Bool :=
  c.curSeqs.any fun seq =>
    match c.slotForSeq seq with
    | none => false
    | some slot => c.validSlot slot && decide (1 < c.refCount slot)

/-- `ensureWritableOnce`. -/
def ensureWritableOnce (c : Recurrent τ) : Recurrent τ :=
  if c.writableEnsured then c
  else
    let c :=
      if c.needsWritable then
        match c.ensureWritableAll with
        | (c, some e) => { c with writableError := some e }
        | (c, none) => c
      else c
    { c with writableEnsured := true }

/-- `ensureWritable`. -/
def ensureWritable (c : Recurrent τ) : Recurrent τ × Option RecurrentError :=
  (c.ensureWritableOnce, c.ensureWritableOnce.writableError)

/-! ## §4  Checkpoints -/

/-- `posMax[seq]`. -/
def posMax (batch : Batch) (seq : Int) : Option Int :=
  batch.foldl (fun m e =>
      if e.seq = seq then
        match m with
        | none => some e.pos
        | some pos => some (max pos e.pos)
      else m)
    none

/-- One sequence of the loop of `planCheckpoints`: the position to record is
appended to `curCheckpointPos`. -/
def planSeq (batch : Batch) (c : Recurrent τ) (p : Int × Nat) : Recurrent τ :=
  let skip := { c with curCheckpointPos := c.curCheckpointPos ++ [-1] }
  match posMax batch p.1 with
  | none => skip
  | some pos =>
      if pos < c.checkpointMinPos then skip
      else
        let store := c.checkpointStore p.2
        let c := c.setStore p.2 store
        { c with
          curCheckpointPos := c.curCheckpointPos ++
            [if store.lastPos < 0 ∨ c.checkpointInterval ≤ pos - store.lastPos then pos else -1] }

def planCheckpoints (c : Recurrent τ) (batch : Batch) : Recurrent τ :=
  let c := { c with curCheckpointPos := [], curCheckpointSlots := fun _ => none }
  if c.checkpointCount = 0 ∨ c.curSeqs = [] then c
  else (c.curSeqs.zip c.curSlots).foldl (planSeq batch) c

/-- `checkpointIndexForSlot`. -/
def checkpointIndexForSlot (c : Recurrent τ) (slot : Nat) (pos : Int) : Recurrent τ × Option Nat :=
  if c.checkpointCount = 0 then (c, none)
  else
    match c.curCheckpointSlots slot with
    | some idx => (c, some idx)
    | none =>
        match (c.checkpointStore slot).record pos with
        | (store, none) => (c.setStore slot store, none)
        | (store, some idx) =>
            ({ c.setStore slot store with
               curCheckpointSlots := update c.curCheckpointSlots slot (some idx) },
              some idx)

/-- One sequence of the capture loops: the new state of its slot is copied to
the entry. -/
def capture (c : Recurrent τ) (slot : Nat) (pos : Int) (state : List τ) : Recurrent τ :=
  if pos < 0 then c
  else
    match c.checkpointIndexForSlot slot pos with
    | (c, none) => c
    | (c, some idx) =>
        let store := c.checkpointStore slot
        c.setStore slot { store with entries := store.entries.modify idx fun e => { e with state } }

def clearCheckpoints (c : Recurrent τ) (slot : Nat) : Recurrent τ :=
  match c.checkpoints slot with
  | none => c
  | some store => c.setStore slot store.reset

def shiftCheckpoints (c : Recurrent τ) (slot : Nat) (beginIndex endIndex : Int) : Recurrent τ :=
  match c.checkpoints slot with
  | none => c
  | some store => c.setStore slot (store.shiftRange beginIndex endIndex)

/-! ## §5  `StartForward` -/

/-- The loop that finds or allocates the slots of the batch: the slots and the
new ones among them. -/
def assignSlots : List Int → Recurrent τ → List Nat → Recurrent τ × List Nat × Option RecurrentError
  | [], c, newSlots => (c, newSlots, none)
  | seq :: rest, c, newSlots =>
      match c.slotForSeq seq with
      | some slot => assignSlots rest { c with curSlots := c.curSlots ++ [slot] } newSlots
      | none =>
          match c.freeSlots with
          | [] => (c, newSlots, some .noSlot)
          | slot :: free =>
              let c := c.assign seq slot free
              assignSlots rest { c with curSlots := c.curSlots ++ [slot] } (newSlots ++ [slot])

def zeroSlots (c : Recurrent τ) (slots : List Nat) : Recurrent τ :=
  { c with states := fun s => if s ∈ slots then [] else c.states s }

def finalizeStartForward (c : Recurrent τ) (batch : Batch) (reserve : Bool) : Recurrent τ :=
  planCheckpoints
    { c with writableEnsured := false, writableError := none, reserveCheckpoints := reserve }
    batch

def batchSeqs (batch : Batch) : List Int :=
  batch.foldl (fun seqs e => if e.seq ∈ seqs then seqs else seqs ++ [e.seq]) []

/-- `seqCounts[seq]`. -/
def seqCount (batch : Batch) (seq : Int) : Nat :=
  batch.countP fun e => decide (e.seq = seq)

def startForwardSingleSeq (c : Recurrent τ) (seq : Int) (batch : Batch) (reserve : Bool) :
    Recurrent τ × Option RecurrentError :=
  let c := { c with curSeqs := [seq] }
  if reserve then (finalizeStartForward { c with curSlots := [0] } batch true, none)
  else
    match c.slotForSeq seq with
    | some slot => (finalizeStartForward { c with curSlots := [slot] } batch false, none)
    | none =>
        match c.freeSlots with
        | [] => (c, some .noSlot)
        | slot :: free =>
            let c := (c.assign seq slot free).zeroSlots [slot]
            (finalizeStartForward { c with curSlots := [slot] } batch false, none)

/-- The part of `StartForward` after the causal cache has returned nil. -/
def startSlots (c : Recurrent τ) (batch : Batch) (reserve : Bool) :
    Recurrent τ × Option RecurrentError :=
  match batch with
  | [] =>
      ({ c with
         curSeqs := []
         curSlots := []
         reserveCheckpoints := false
         writableEnsured := false
         writableError := none }, none)
  | first :: _ =>
      if batch.all fun e => decide (e.seq = first.seq) then
        c.startForwardSingleSeq first.seq batch reserve
      else
        let c := { c with curSeqs := batchSeqs batch }
        let want := batch.length / c.curSeqs.length
        if c.curSeqs.any fun seq => decide (seqCount batch seq ≠ want) then
          (c, some .notSupported)
        else if reserve then
          (finalizeStartForward { c with curSlots := List.range c.curSeqs.length } batch true, none)
        else
          match assignSlots c.curSeqs { c with curSlots := [] } [] with
          | (c, _, some e) => (c, some e)
          | (c, newSlots, none) =>
              (finalizeStartForward (c.zeroSlots newSlots) batch false, none)

def startForward (c : Recurrent τ) (batch : Batch) (reserve : Bool) (maxMoves : Int) :
    Recurrent τ × Option RecurrentError :=
  let f := c.kv.startForward batch reserve maxMoves
  let c := { c with kv := f.cache }
  match f.err with
  | some e => (c, some (.kv e))
  | none => c.startSlots batch reserve

/-! ## §6  The forward pass -/

def seqTokens (batch : Batch) (tokens : List τ) (seq : Int) : List τ :=
  ((batch.zip tokens).filter fun p => decide (p.1.seq = seq)).map Prod.snd

/-- The new state of every sequence of the batch, with its slot: the old state
of the slot followed by the sequence's tokens. -/
def newStates (c : Recurrent τ) (batch : Batch) (tokens : List τ) : List (Nat × List τ) :=
  (c.curSeqs.zip c.curSlots).map fun p =>
    (p.2, c.states p.2 ++ seqTokens batch tokens p.1)

/-- What the layers of the model do with the states: `UpdateConvState` and
`UpdateRecurrentState` write the new states to the slots and capture the
planned checkpoints. -/
def updateStates (c : Recurrent τ) (batch : Batch) (tokens : List τ) : Recurrent τ :=
  let new := c.newStates batch tokens
  let c :=
    { c with
      buffers := true
      states := new.foldl (fun states p => update states p.1 p.2) c.states }
  (new.zip c.curCheckpointPos).foldl (fun c p => c.capture p.1.1 p.2 p.1.2) c

/-- A forward pass of the model: `StartForward`, then for the layers
`ensureWritable` and the updates. -/
def forwardPass (c : Recurrent τ) (batch : Batch) (tokens : List τ) (maxMoves : Int) :
    Recurrent τ × Option RecurrentError :=
  match c.startForward batch false maxMoves with
  | (c, some e) => (c, some e)
  | (c, none) =>
      match c.ensureWritable with
      | (c, some e) => (c, some e)
      | (c, none) => (c.updateStates batch tokens, none)

/-! ## §7  `CopyPrefix`, `PrepareRestore` and `Remove` -/

/-- `seq` gives up its slot, which is freed with its last sequence. -/
def release (c : Recurrent τ) (seq : Int) (slot : Nat) : Recurrent τ :=
  { c with
    refCount := update c.refCount slot (c.refCount slot - 1)
    freeSlots := if c.refCount slot ≤ 1 then slot :: c.freeSlots else c.freeSlots
    slotForSeq := update c.slotForSeq seq none }

def forget (c : Recurrent τ) (seq : Int) : Recurrent τ :=
  { c with slotForSeq := update c.slotForSeq seq none }

def copyPrefix (c : Recurrent τ) (srcSeq dstSeq prefixLen : Int) : Recurrent τ :=
  let c := { c with kv := c.kv.copyPrefix srcSeq dstSeq prefixLen }
  let c :=
    match c.slotForSeq dstSeq with
    | none => c
    | some dstSlot =>
        if c.validSlot dstSlot then c.release dstSeq dstSlot else c.forget dstSeq
  match c.slotForSeq srcSeq with
  | none => c
  | some srcSlot =>
      if c.validSlot srcSlot then
        { c with
          slotForSeq := update c.slotForSeq dstSeq (some srcSlot)
          refCount := update c.refCount srcSlot (c.refCount srcSlot + 1) }
      else c

/-- `PrepareRestore`: the position to resume at, if there is a checkpoint. -/
def prepareRestore (c : Recurrent τ) (seq targetPos : Int) : Recurrent τ × Option Int :=
  if targetPos ≤ 0 then (c, none)
  else
    match c.slotForSeq seq with
    | none => (c, none)
    | some slot =>
        match c.checkpoints slot with
        | none => (c, none)
        | some store =>
            match store.bestIndex targetPos with
            | none => (c, none)
            | some (idx, pos) =>
                ({ c with
                   pendingRestore :=
                     update c.pendingRestore seq (some ⟨slot, idx, pos⟩) },
                  some (pos + 1))

/-- `restoreEntry`: the entry of a restore, if it is live and complete. -/
def restoreEntry (c : Recurrent τ) (restore : CheckpointRestore) : Option (CheckpointEntry τ) :=
  match c.checkpoints restore.slot with
  | none => none
  | some store =>
      match store.entries[restore.idx]? with
      | none => none
      | some entry =>
          if entry.pos < 0 then none
          else if c.buffers && entry.state.isNone then none
          else some entry

/-- `applyCheckpointRestore`. -/
def applyCheckpointRestore (c : Recurrent τ) (restore : CheckpointRestore) :
    Recurrent τ × Option RecurrentError :=
  match c.restoreEntry restore with
  | none => (c, some .notSupported)
  | some entry =>
      let c :=
        match entry.state with
        | none => c
        | some state => { c with states := update c.states restore.slot state }
      match c.checkpoints restore.slot with
      | none => (c, none)
      | some store => (c.setStore restore.slot (store.pruneAfter restore.pos), none)

/-- The cache after `c.kv.Remove` has returned nil and
`delete(c.pendingRestore, seq)`. -/
def kvRemoved (c : Recurrent τ) (seq : Int) (kv : Causal) : Recurrent τ :=
  { c with kv, pendingRestore := update c.pendingRestore seq none }

/-- The rest of `Remove` of a range in the middle: the checkpoints move with the
cells, in a slot of the sequence's own. -/
def shiftState (c : Recurrent τ) (seq beginIndex endIndex : Int) :
    Recurrent τ × Option RecurrentError :=
  match c.slotForSeq seq with
  | none => (c, none)
  | some slot =>
      if !c.validSlot slot then (c, none)
      else if 1 < c.refCount slot then
        match c.detach seq slot with
        | none => (c, some .noSlot)
        | some (c, newSlot) => (c.shiftCheckpoints newSlot beginIndex endIndex, none)
      else (c.shiftCheckpoints slot beginIndex endIndex, none)

/-- `Remove` of a range in the middle. -/
def removeMiddle (c : Recurrent τ) (seq beginIndex endIndex : Int) (shiftFails : Bool) :
    Recurrent τ × Option RecurrentError :=
  match c.kv.remove seq beginIndex endIndex shiftFails with
  | (kv, some e) => ({ c with kv }, some (.kv e))
  | (kv, none) => (c.kvRemoved seq kv).shiftState seq beginIndex endIndex

/-- The detachment before a restore: the cache and the restore on the new
slot. -/
def detachForRestore (c : Recurrent τ) (seq : Int) (restore : CheckpointRestore) :
    Option (Recurrent τ × CheckpointRestore) :=
  match c.slotForSeq seq with
  | none => some (c, restore)
  | some slot =>
      if c.validSlot slot && decide (1 < c.refCount slot) then
        match c.detach seq slot with
        | none => none
        | some (c, newSlot) =>
            let restore := { restore with slot := newSlot }
            some ({ c with
              pendingRestore := update c.pendingRestore seq (some restore) }, restore)
      else some (c, restore)

/-- `Remove` of a suffix, which needs a prepared restore. -/
def removeSuffix (c : Recurrent τ) (seq beginIndex endIndex : Int) (shiftFails : Bool) :
    Recurrent τ × Option RecurrentError :=
  match c.pendingRestore seq with
  | none => (c, some .notSupported)
  | some restore =>
      if restore.pos + 1 ≠ beginIndex then (c, some .notSupported)
      else if (c.restoreEntry restore).isNone then (c, some .notSupported)
      else
        match c.detachForRestore seq restore with
        | none => (c, some .noSlot)
        | some (c, restore) =>
            match c.kv.remove seq beginIndex endIndex shiftFails with
            | (kv, some e) => ({ c with kv }, some (.kv e))
            | (kv, none) => (c.kvRemoved seq kv).applyCheckpointRestore restore

/-- The rest of `Remove` from the start: the sequence gives up its slot. -/
def dropState (c : Recurrent τ) (seq : Int) : Recurrent τ :=
  match c.slotForSeq seq with
  | none => c
  | some slot =>
      if !c.validSlot slot then c.forget seq
      else (if c.refCount slot ≤ 1 then c.clearCheckpoints slot else c).release seq slot

/-- `Remove` from the start. -/
def removeAll (c : Recurrent τ) (seq beginIndex endIndex : Int) (shiftFails : Bool) :
    Recurrent τ × Option RecurrentError :=
  match c.kv.remove seq beginIndex endIndex shiftFails with
  | (kv, some e) => ({ c with kv }, some (.kv e))
  | (kv, none) => ((c.kvRemoved seq kv).dropState seq, none)

def remove (c : Recurrent τ) (seq beginIndex endIndex : Int) (shiftFails : Bool) :
    Recurrent τ × Option RecurrentError :=
  if 0 < beginIndex then
    if endIndex ≠ maxInt32 then c.removeMiddle seq beginIndex endIndex shiftFails
    else c.removeSuffix seq beginIndex endIndex shiftFails
  else c.removeAll seq beginIndex endIndex shiftFails

end Recurrent

end Ollama.KvCache
