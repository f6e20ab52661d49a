import Mathlib
import Ollama.KvCache.Cells

/-!
# The causal KV cache: model of `kvcache/causal.go`

The state keeps the metadata of the cache and what the current forward pass
uses of it. The tensors are not part of the state: `Get` is the range of rows
it reads together with the mask, and `defrag` returns the row copies it had
computed, in order, so that their effect on any storage can be stated.
-/

namespace Ollama.KvCache

/-! ## §1  The state -/

/-- The errors of `kvcache`: a full cache, an unsupported operation, a shift
of cells shared by several sequences, and an error of the shift function. -/
inductive CacheError where
  | kvCacheFull
  | notSupported
  | sharedShift
  | shiftFailed
deriving DecidableEq, Repr

/-- One token of a batch: `batch.Positions[i]` and `batch.Sequences[i]`,
which are equal in length. -/
structure BatchEntry where
  pos : Int
  seq : Int
deriving DecidableEq, Repr

abbrev Batch : Type := List BatchEntry

/-- The paddings of `ml.CacheConfig`. -/
structure CacheConfig where
  cachePadding : Nat
  maskBatchPadding : Nat
deriving DecidableEq, Repr

/-- The mask tensor, row by row: `true` stands for `-Inf`, a masked entry. -/
structure Mask where
  length : Nat
  batchSize : Nat
  data : List Bool
deriving DecidableEq, Repr

/-- `mask[i*length + j]`; an entry outside the tensor is masked. -/
def Mask.masked (m : Mask) (i j : Nat) : Bool :=
  (m.data[i * m.length + j]?).getD true

structure Causal where
  swaWindowSize : Int
  swaMemorySize : Int
  chunkSize : Int
  except : List Nat
  maxBatch : Nat
  config : CacheConfig
  curLoc : Nat
  /-- `curPositions` and `curSequences`; `curBatchSize` is its length. -/
  curBatch : Batch
  curMask : Mask
  curCellRange : CellRange
  cells : List CacheCell
  cellRanges : AList (fun _ : Int => CellRange)

def roundDown (length pad : Nat) : Nat := length / pad * pad

def roundUp (length pad : Nat) : Nat := (length + pad - 1) / pad * pad

/-- The value of an `int32` sum. -/
def toInt32 (x : Int) : Int := (x + 2 ^ 31) % 2 ^ 32 - 2 ^ 31

/-- `Init` on a cache made by one of the constructors (window, memory and
chunk size 0 when not given); `none` is the panic on a memory smaller than
the window. -/
def Causal.init (swaWindowSize swaMemorySize chunkSize : Int)
    (config : CacheConfig) (maxSequences capacity maxBatch : Nat) :
    Option Causal :=
  let cachePadding := if config.cachePadding = 0 then 1 else config.cachePadding
  let maskBatchPadding :=
    if config.maskBatchPadding = 0 then 1 else config.maskBatchPadding
  let window := if swaWindowSize = 0 then maxInt32 else swaWindowSize
  let memory := if swaMemorySize = 0 then window else swaMemorySize
  let memory :=
    if memory ≠ maxInt32 ∧ 1 < maxSequences then
      max memory (toInt32 (window + 1))
    else memory
  let memory := if (capacity : Int) ≤ memory then maxInt32 else memory
  if memory < window then none
  else
    let cacheSize :=
      if memory = maxInt32 then maxSequences * capacity
      else maxSequences * memory.toNat + maxBatch
    some
      { swaWindowSize := window
        swaMemorySize := memory
        chunkSize
        except := []
        maxBatch
        config := ⟨cachePadding, maskBatchPadding⟩
        curLoc := 0
        curBatch := []
        curMask := ⟨0, 0, []⟩
        curCellRange := ⟨0, 0⟩
        cells := List.replicate (roundUp cacheSize cachePadding) {}
        cellRanges := ∅ }

namespace Causal

/-! ## §2  `updateSlidingWindow` -/

/-- `lowestPosition`: the lowest position a sequence still needs, and whether
the sequence is part of the batch. -/
structure LowestPosition where
  pos : Int
  curBatch : Bool
deriving DecidableEq, Repr

abbrev LowestMap : Type := AList (fun _ : Int => LowestPosition)

def lowerEntry (m : LowestMap) (e : BatchEntry) : LowestMap :=
  match m.lookup e.seq with
  | none => m.insert e.seq ⟨e.pos, true⟩
  | some lowest =>
      m.insert e.seq (if e.pos < lowest.pos then { lowest with pos := e.pos } else lowest)

def batchLowest (batch : Batch) : LowestMap :=
  batch.foldl lowerEntry ∅

def lastPos (cells : List CacheCell) (seq : Int) (r : CellRange) : Int :=
  (List.range' r.min (r.max + 1 - r.min)).foldl (fun last i =>
      if seq ∈ (cellAt cells i).sequences then max last (cellAt cells i).pos
      else last)
    0

/-- Add a sequence that is not part of the batch: its window starts after its
last position. -/
def otherLowest (cells : List CacheCell) (m : LowestMap) (seq : Int) (r : CellRange) : LowestMap :=
  match m.lookup seq with
  | some _ => m
  | none => m.insert seq ⟨lastPos cells seq r + 1, false⟩

structure TrimState where
  cells : List CacheCell
  newRange : CellRange
  curCellRange : CellRange

/-- One location of the deletion loop. -/
def trimCell (window memory : Int) (seq : Int) (lowest : LowestPosition)
    (st : TrimState) (i : Nat) : TrimState :=
  let cell := cellAt st.cells i
  if seq ∈ cell.sequences then
    let st :=
      if cell.pos < lowest.pos - memory then
        { st with cells := st.cells.modify i (fun x => x.drop seq) }
      else { st with newRange := st.newRange.add i }
    if lowest.curBatch ∧ lowest.pos - window ≤ cell.pos then
      { st with curCellRange := st.curCellRange.add i }
    else st
  else st

/-- Delete the entries of `seq` that are beyond the window of its lowest
position, and recompute its range. -/
def trimSequence (c : Causal) (seq : Int) (lowest : LowestPosition) : Causal :=
  match c.cellRanges.lookup seq with
  | none => c
  | some oldRange =>
      let st :=
        (List.range' oldRange.min (oldRange.max + 1 - oldRange.min)).foldl
          (trimCell c.swaWindowSize c.swaMemorySize seq lowest)
          ⟨c.cells, KvCache.newRange, c.curCellRange⟩
      { c with
        cells := st.cells
        curCellRange := st.curCellRange
        cellRanges := c.cellRanges.insert seq st.newRange }

/-- The lowest positions of `updateSlidingWindow`: the batch's own, and one
past the last position for every other sequence in the cache. -/
def lowestPositions (c : Causal) : LowestMap :=
  c.cellRanges.entries.foldl (fun m e => otherLowest c.cells m e.1 e.2) (batchLowest c.curBatch)

/-- The union of the ranges of the batch's sequences. -/
def batchRange (c : Causal) : CellRange :=
  c.curBatch.foldl (fun r e =>
      match c.cellRanges.lookup e.seq with
      | some seqRange => r.join seqRange
      | none => r)
    KvCache.newRange

def updateSlidingWindow (c : Causal) : Causal :=
  if c.swaMemorySize = maxInt32 then { c with curCellRange := c.batchRange }
  else
    c.lowestPositions.entries.foldl (fun c e => c.trimSequence e.1 e.2)
      { c with curCellRange := KvCache.newRange }

/-! ## §3  `findStartLoc` and `defrag` -/

/-- The loop of `findStartLoc` from location `i` on. -/
def findStart (batchSize : Nat) : Nat → Nat → Nat → List CacheCell → Option Nat
  | _, _, _, [] => none
  | i, start, count, cell :: rest =>
      if cell.sequences = [] then
        if batchSize ≤ count + 1 then some start
        else findStart batchSize (i + 1) start (count + 1) rest
      else findStart batchSize (i + 1) (i + 1) 0 rest

/-- The first block of free cells that the batch fits into; `none` is
`ErrKvCacheFull`. -/
def findStartLoc (c : Causal) : Option Nat :=
  findStart c.curBatch.length 0 0 0 c.cells

/-- The arguments of one `moveCells` call: rows `src .. src+len-1` are copied
to `dst .. dst+len-1`, in the keys and the values of every layer. -/
structure CellMove where
  src : Nat
  dst : Nat
  len : Nat
deriving DecidableEq, Repr

/-- The variables of `defrag`. `queued` are the copies recorded in the current
context, `computed` those of the contexts already computed. -/
structure DefragState where
  cells : List CacheCell
  src : Nat
  pendingSrc : Nat := 0
  pendingDst : Nat := 0
  pendingLen : Nat := 0
  moves : Nat := 0
  queued : List CellMove := []
  computed : List CellMove := []

/-- `c.moveCells(ctx, pendingSrc, pendingDst, pendingLen); moves++`. -/
def DefragState.issue (st : DefragState) : DefragState :=
  { st with
    moves := st.moves + 1
    queued := st.queued ++ [⟨st.pendingSrc, st.pendingDst, st.pendingLen⟩] }

/-- `ctx.Compute()` followed by a new context. -/
def DefragState.compute (st : DefragState) : DefragState :=
  { st with moves := 0, queued := [], computed := st.computed ++ st.queued }

/-- `for ; src > dst; src--`, up to the first occupied cell. -/
def findSrc (cells : List CacheCell) (dst : Nat) : Nat → Nat
  | 0 => 0
  | src + 1 =>
      if dst < src + 1 then
        if (cellAt cells (src + 1)).sequences ≠ [] then src + 1
        else findSrc cells dst src
      else src + 1

/-- The body of the search: move the cell at `st.src` to the hole at `dst`,
and either extend the pending copy or issue it and start a new one. -/
def DefragState.move (st : DefragState) (dst : Nat) : DefragState :=
  let src := st.src
  let st :=
    { st with
      cells := (st.cells.set dst (cellAt st.cells src)).set src {} }
  if 0 < st.pendingLen ∧ src + st.pendingLen = st.pendingSrc ∧
      dst = st.pendingDst + st.pendingLen then
    { st with pendingSrc := src, pendingLen := st.pendingLen + 1 }
  else
    let st := if 0 < st.pendingLen then st.issue else st
    { st with pendingSrc := src, pendingDst := dst, pendingLen := 1 }

/-- One iteration of `for dst := 0; dst < src; dst++`. -/
def DefragState.step (maxMoves : Int) (st : DefragState) (dst : Nat) : DefragState :=
  let st :=
    if (cellAt st.cells dst).sequences = [] then
      let st := { st with src := findSrc st.cells dst st.src }
      if dst < st.src then st.move dst else st
    else st
  if maxMoves ≤ st.moves then st.compute else st

/-- The loop over `dst`. The fuel is the number of cells, which `dst` does not
reach because it stays below `src`. -/
def defragLoop (maxMoves : Int) : Nat → Nat → DefragState → DefragState
  | 0, _, st => st
  | fuel + 1, dst, st =>
      if dst < st.src then defragLoop maxMoves fuel (dst + 1) (st.step maxMoves dst)
      else st

/-- What follows the loop: the pending copy is issued and the context
computed if it holds any copy. -/
def DefragState.finish (st : DefragState) : DefragState :=
  let st := if 0 < st.pendingLen then st.issue else st
  if 0 < st.moves then st.compute else st

/-- The compaction of `defrag`, before the ranges are reset. -/
def defragCells (cells : List CacheCell) (maxMoves : Int) : DefragState :=
  (defragLoop maxMoves cells.length 0 { cells := cells, src := cells.length - 1 }).finish

def rangeOf (cells : List CacheCell) (seq : Int) : CellRange :=
  scanRange (fun cell => seq ∈ cell.sequences) 0 KvCache.newRange cells

/-- `defrag`: the new cache and the copies that were computed, in order.
`maxMoves` is what the context's graph size allows. -/
def defrag (c : Causal) (maxMoves : Int) : Causal × List CellMove :=
  let st := defragCells c.cells maxMoves
  let c :=
    { c with
      cells := st.cells
      cellRanges :=
        c.cellRanges.keys.foldl (fun m seq => m.insert seq (rangeOf st.cells seq)) c.cellRanges }
  (c.updateSlidingWindow, st.computed)

/-! ## §4  The mask -/

/-- The condition under which `buildMask` writes `-Inf` for the token
`e = (curPositions[i], curSequences[i])` and the cell at `j`. -/
def hides (c : Causal) (i : Nat) (e : BatchEntry) (j : Nat) : Bool :=
  let enabled := i ∉ c.except
  let cell := cellAt c.cells j
  decide (e.seq ∉ cell.sequences ∨ (enabled ∧ e.pos < cell.pos) ∨
    (0 < c.chunkSize ∧ cell.pos < e.pos - e.pos.tmod c.chunkSize) ∨
    cell.pos < e.pos - c.swaWindowSize)

def maskRow (c : Causal) (length i : Nat) : List Bool :=
  match c.curBatch[i]? with
  | some e => (List.range length).map fun j => c.hides i e (c.curCellRange.min + j)
  | none => List.replicate length true

/-- Align the cell range and build the mask over it. -/
def buildMask (c : Causal) : Causal :=
  let batchSize := roundUp c.curBatch.length c.config.maskBatchPadding
  let c :=
    { c with
      curCellRange :=
        ⟨roundDown c.curCellRange.min c.config.cachePadding,
          roundUp (c.curCellRange.max + 1) c.config.cachePadding - 1⟩ }
  let length := c.curCellRange.max + 1 - c.curCellRange.min
  { c with
    curMask := ⟨length, batchSize, (List.range batchSize).flatMap (c.maskRow length)⟩ }

/-! ## §5  `StartForward`, `SetCausal` and `Get` -/

/-- Store one token of the batch at location `i`. -/
def storeEntry (c : Causal) (i : Nat) (e : BatchEntry) : Causal :=
  { c with
    cells := c.cells.set i ⟨e.pos, [e.seq]⟩
    curCellRange := c.curCellRange.add i
    cellRanges :=
      c.cellRanges.insert e.seq (((c.cellRanges.lookup e.seq).getD KvCache.newRange).add i) }

/-- Store a batch from location `i` on. -/
def storeBatch : Nat → Batch → Causal → Causal
  | _, [], c => c
  | i, e :: rest, c => storeBatch (i + 1) rest (c.storeEntry i e)

/-- The cache in which room for the batch was looked for, the copies a
defragmentation computed, and the location found. -/
structure Located where
  cache : Causal
  moves : List CellMove
  loc : Option Nat

/-- Update the window, find room for the batch and defragment when there is
none. -/
def locate (c : Causal) (maxMoves : Int) : Located :=
  let c := c.updateSlidingWindow
  match c.findStartLoc with
  | some loc => ⟨c, [], some loc⟩
  | none =>
      let (c, moves) := c.defrag maxMoves
      ⟨c, moves, c.findStartLoc⟩

/-- What a forward pass leaves: the cache, the copies computed on the way and
the error returned. -/
structure Forwarded where
  cache : Causal
  moves : List CellMove
  err : Option CacheError

/-- `c.curBatchSize`, `c.curSequences`, `c.curPositions` and `c.opts.Except`
of the new pass. -/
def beginBatch (c : Causal) (batch : Batch) : Causal :=
  { c with curBatch := batch, except := [] }

/-- `StartForward` up to the mask: the batch is stored, or with `reserve` the
range is set to the worst case. (A cache has a cell: the callers of `Init` ask
for one per sequence.) -/
def prepareForward (c : Causal) (batch : Batch) (reserve : Bool) (maxMoves : Int) : Forwarded :=
  let c := c.beginBatch batch
  if reserve then
    ⟨{ c with curLoc := 0, curCellRange := ⟨0, c.cells.length - 1⟩ }, [], none⟩
  else
    let l := c.locate maxMoves
    match l.loc with
    | some loc => ⟨storeBatch loc batch { l.cache with curLoc := loc }, l.moves, none⟩
    | none => ⟨{ l.cache with curLoc := 0 }, l.moves, some .kvCacheFull⟩

def startForward (c : Causal) (batch : Batch) (reserve : Bool) (maxMoves : Int) : Forwarded :=
  let f := c.prepareForward batch reserve maxMoves
  match f.err with
  | some _ => f
  | none => { f with cache := f.cache.buildMask }

/-- `SetCausal`; `ctx` says whether a context was given. -/
def setCausal (c : Causal) (ctx : Bool) (except : List Nat) : Causal :=
  if c.except = except then c
  else
    let c := { c with except }
    if ctx then c.buildMask else c

/-- What `Get` returns of the metadata: the first row of the key and value
views, the number of rows, and the mask. -/
structure View where
  row : Nat
  size : Nat
  mask : Mask

def get (c : Causal) : View :=
  ⟨c.curCellRange.min, c.curMask.length, c.curMask⟩

/-! ## §6  `CopyPrefix`, `CanResume` and `Remove` -/

/-- The body of the `CopyPrefix` loop on one cell. -/
def copyCell (srcSeq dstSeq len : Int) (cell : CacheCell) : CacheCell :=
  let cell := if dstSeq ∈ cell.sequences then cell.drop dstSeq else cell
  if srcSeq ∈ cell.sequences ∧ cell.pos < len then
    { cell with sequences := cell.sequences ++ [dstSeq] }
  else cell

def copyPrefix (c : Causal) (srcSeq dstSeq len : Int) : Causal :=
  let cells := c.cells.map (copyCell srcSeq dstSeq len)
  { c with
    cells
    cellRanges := c.cellRanges.insert dstSeq (rangeOf cells dstSeq) }

def canResume (c : Causal) (seq pos : Int) : Bool :=
  if c.swaMemorySize = maxInt32 then true
  else
    match c.cellRanges.lookup seq with
    | none => false
    | some r =>
        let (first, last) :=
          (List.range' r.min (r.max + 1 - r.min)).foldl (fun (fl : Int × Int) i =>
              let cell := cellAt c.cells i
              if seq ∈ cell.sequences then (min fl.1 cell.pos, max fl.2 cell.pos)
              else fl)
            (maxInt32, -1)
        if last = -1 then false
        else decide (first ≤ max 0 (pos - c.swaWindowSize) ∧ pos ≤ last + 1)

/-- The loop of `Remove` from location `i` on: the cells, the range of what is
left of the sequence, and whether the loop stopped at a shared cell. -/
def removeCells (seq beginIndex endIndex offset : Int) :
    Nat → CellRange → List CacheCell → List CacheCell × CellRange × Bool
  | _, r, [] => ([], r, false)
  | i, r, cell :: rest =>
      if seq ∈ cell.sequences then
        if beginIndex ≤ cell.pos ∧ cell.pos < endIndex then
          let res := removeCells seq beginIndex endIndex offset (i + 1) r rest
          (cell.drop seq :: res.1, res.2)
        else if endIndex ≤ cell.pos then
          if cell.sequences.any (fun s => s ≠ seq) then (cell :: rest, r, true)
          else
            let res :=
              removeCells seq beginIndex endIndex offset (i + 1) (r.add i) rest
            ({ cell with pos := cell.pos + offset } :: res.1, res.2)
        else
          let res :=
            removeCells seq beginIndex endIndex offset (i + 1) (r.add i) rest
          (cell :: res.1, res.2)
      else
        let res := removeCells seq beginIndex endIndex offset (i + 1) r rest
        (cell :: res.1, res.2)

/-- `Remove`. `shiftFails` is what `c.shift` returns when the loop calls it,
which is decided by the model's shift function. -/
def remove (c : Causal) (seq beginIndex endIndex : Int) (shiftFails : Bool) :
    Causal × Option CacheError :=
  let offset := if endIndex ≠ maxInt32 then beginIndex - endIndex else 0
  let res := removeCells seq beginIndex endIndex offset 0 KvCache.newRange c.cells
  let c := { c with cells := res.1 }
  if res.2.2 then (c, some .sharedShift)
  else if res.2.1 = KvCache.newRange then
    ({ c with cellRanges := c.cellRanges.erase seq }, none)
  else
    let c := { c with cellRanges := c.cellRanges.insert seq res.2.1 }
    if endIndex ≠ maxInt32 ∧ shiftFails then (c, some .shiftFailed) else (c, none)

end Causal

end Ollama.KvCache
