import Ollama.Ggml.Tensors

/-!
# The GGUF decoder

`fs/ggml/gguf.go`, the reader. A file is what follows in the input; what would stop the
program (a slice or an allocation out of range, a truncation below zero, a division by zero)
is a panic of the model.
-/

namespace Ollama.Ggml

open Lib.Binary

/-! ## §1  Errors and panics -/

inductive Error
  | eof
  | unexpectedEOF
  | invalidMagic
  | invalidType (t : ℕ)
  | invalidArrayType (t : ℕ)
  | negativePosition
  | wrapped (what : String) (e : Error)
  deriving DecidableEq

inductive Panic
  | sliceBounds
  | makeSlice
  | truncate
  | divide
  deriving DecidableEq

abbrev Read (α : Type) := Reader Error Panic α

/-- The container's fields that reading uses, and the most bytes that the runtime allocates
at once. -/
structure ContainerGGUF where
  byteOrder : ByteOrder
  version : ℕ
  maxArraySize : ℤ
  maxAlloc : ℕ

/-- `fmt.Errorf` around an error. -/
def wrap {α : Type} (what : String) (m : Read α) : Read α := fun bs =>
  match m bs with
  | .error e => .error (.wrapped what e)
  | r => r

/-- `io.ReadFull`, and `binary.Read` of that size. -/
def readFull (n : ℕ) : Read Bytes :=
  Reader.take (fun bs => if bs = [] then .eof else .unexpectedEOF) n

/-- `make([]T, n)` for elements of `size` bytes. -/
def makeSlice (maxAlloc size : ℕ) (n : ℤ) : Read Unit :=
  if n < 0 ∨ (maxAlloc : ℤ) < n * size then .halt .makeSlice else pure ()

/-- `bytes.Buffer.Truncate` -/
def truncate (b : Bytes) (n : ℤ) : Read Bytes :=
  if n < 0 ∨ b.length < n then .halt .truncate else pure (b.take n.toNat)

/-- `io.CopyN` into a buffer; there is nothing to copy for a count below zero. -/
def copyN (n : ℤ) : Read Bytes := Reader.take (fun _ => .eof) n.toNat

variable (llm : ContainerGGUF)

def readUint (w : ℕ) : Read ℕ := do
  let bs ← readFull w
  return llm.byteOrder.value bs

/-- `readGGUF` -/
def readGGUF (t : Scalar) : Read (Fin t.bound) := do
  let n ← readUint llm t.size
  return t.ofBits n

/-! ## §2  Strings -/

/-- `len(llm.scratch)` -/
def scratchLen : ℕ := 16 * 2 ^ 10

def readGGUFV1String : Read Bytes := do
  let length ← readUint llm 8
  let b ← copyN (toInt64 length)
  -- gguf v1 strings are null-terminated
  truncate b (b.length - 1)

def readGGUFString : Read Bytes :=
  if llm.version = 1 then readGGUFV1String llm
  else do
    let length ← readUint llm 8
    if scratchLen < toInt64 length then
      makeSlice llm.maxAlloc 1 (toInt64 length)
      readFull (toInt64 length).toNat
    else if toInt64 length < 0 then .halt .sliceBounds
    else readFull (toInt64 length).toNat

/-- The loop of `discardGGUFString`: every turn reads something or ends it. -/
def discard (size : ℕ) (bs : Bytes) : Option Error × Bytes :=
  if size = 0 then (none, bs)
  else if bs = [] then (some .eof, [])
  else
    discard (size - min (min size scratchLen) bs.length)
      (bs.drop (min (min size scratchLen) bs.length))
termination_by size
decreasing_by
  have : bs.length ≠ 0 := by rwa [ne_eq, List.length_eq_zero_iff]
  have : 0 < scratchLen := by decide
  omega

def discardGGUFString (bs : Bytes) : Option Error × Bytes :=
  match readUint llm 8 bs with
  | .ok length rest => discard (toInt64 length).toNat rest
  | .error e => (some e, [])
  | .panic _ => (none, bs)

def skipString : Read Unit := fun bs => .ok () (discardGGUFString llm bs).2

/-! ## §3  Arrays -/

def stringHeader : ℕ := 16

/-- `newArray`: whether the values are kept. -/
def newArray (elemSize : ℕ) (size : ℤ) : Read Bool :=
  if llm.maxArraySize < 0 ∨ size ≤ llm.maxArraySize then do
    makeSlice llm.maxAlloc elemSize size
    return true
  else pure false

/-- `readGGUFArrayData` -/
def readGGUFArrayData (t : Scalar) (size : ℕ) (keep : Bool) : Read Value := do
  let values ← Reader.times (readGGUF llm t) size
  return .array t size (if keep then some values else none)

/-- `readGGUFStringsData` and `readGGUFV1StringsData` -/
def readGGUFStringsData (size : ℕ) (keep : Bool) : Read Value :=
  if keep then do
    let values ← Reader.times (readGGUFString llm) size
    return .strings size (some values)
  else do
    let _ ← Reader.times (skipString llm) size
    return .strings size none

def readGGUFArray : Read Value := do
  let t ← readUint llm 4
  let n ← readUint llm 8
  match scalarOf t with
  | some t =>
      let keep ← newArray llm t.size (toInt64 n)
      readGGUFArrayData llm t (toInt64 n).toNat keep
  | none =>
      if t = ggufTypeString then do
        let keep ← newArray llm stringHeader (toInt64 n)
        readGGUFStringsData llm (toInt64 n).toNat keep
      else .fail (.invalidArrayType t)

/-! ## §4  Key-values and tensors -/

def readValue (t : ℕ) : Read Value :=
  match scalarOf t with
  | some t => do
      let v ← readGGUF llm t
      return .scalar t v
  | none =>
      if t = ggufTypeString then do
        let s ← readGGUFString llm
        return .string s
      else if t = ggufTypeArray then readGGUFArray llm
      else .fail (.invalidType t)

def readKV (kv : KV) : Read KV := do
  let k ← readGGUFString llm
  let t ← readUint llm 4
  let v ← readValue llm t
  return kv.insert k v

def readKVs : ℕ → KV → Read KV
  | 0, kv => pure kv
  | n + 1, kv => do
      let kv ← readKV llm kv
      readKVs n kv

/-- One turn of the loop over tensors. -/
def readTensor : Read Tensor := do
  let name ← wrap "failed to read tensor name" (readGGUFString llm)
  let dims ← wrap "failed to read tensor dimensions" (readUint llm 4)
  makeSlice llm.maxAlloc 8 dims
  let shape ← wrap "failed to read tensor shape" (Reader.times (readUint llm 8) dims)
  let kind ← wrap "failed to read tensor kind" (readUint llm 4)
  let offset ← wrap "failed to read tensor offset" (readUint llm 8)
  return ⟨name, kind, offset, shape⟩

/-! ## §5  The file -/

/-- What `ggufPadding` computes when `align` is not zero. -/
def padding (offset align : ℤ) : ℤ := (align - offset.tmod align).tmod align

/-- `ggufPadding` -/
def ggufPadding (offset align : ℤ) : Read ℤ :=
  if align = 0 then .halt .divide else pure (padding offset align)

/-- `Seek` from the current position. -/
def seek (pos offset : ℤ) : Read ℤ :=
  if pos + offset < 0 ∨ 2 ^ 63 ≤ pos + offset then .fail .negativePosition
  else pure (pos + offset)

/-- The loop over the tensors' data. -/
def seekTensors (alignment : ℕ) : List Tensor → ℤ → Read ℤ
  | [], pos => pure pos
  | t :: ts, pos => do
      let padding ← ggufPadding pos alignment
      let pos ← wrap "failed to seek to init padding" (seek pos padding)
      let pos ← wrap "failed to seek to tensor" (seek pos (toInt64 t.size))
      seekTensors alignment ts pos

/-- What is decoded; `position` is where the input is in the end. -/
structure Gguf where
  kv : KV
  tensors : List Tensor
  parameters : ℕ
  tensorOffset : ℤ
  position : ℤ
  deriving DecidableEq

/-- Where the input is, `stop` being the position of its end. -/
def tell (stop : ℕ) : Read ℤ := fun bs => .ok (stop - bs.length : ℤ) bs

/-- `(*gguf).Decode` -/
def decodeBody (stop numTensor numKV : ℕ) : Read Gguf := do
  let kv ← readKVs llm numKV ∅
  let tensors ← Reader.times (readTensor llm) numTensor
  let parameters := tensors.foldl (fun n t => (n + t.elements) % 2 ^ 64) 0
  let kv := kv.insert parameterCountKey (.scalar .uint64 (Scalar.uint64.ofBits parameters))
  let alignment := KV.alignment kv
  let offset ← tell stop
  let padding ← ggufPadding offset alignment
  let position ← seekTensors alignment tensors offset
  return ⟨kv, tensors, parameters, offset + padding, position⟩

variable (order : ByteOrder) (maxArraySize : ℤ) (maxAlloc stop : ℕ)

/-- `(*containerGGUF).Decode`; a version it does not know is read as version 3. -/
def decodeContainer : Read Gguf := do
  let version ← readUint ⟨order, 0, maxArraySize, maxAlloc⟩ 4
  let w := if version = 1 then 4 else 8
  let counts ← readFull (2 * w)
  decodeBody ⟨order, version, maxArraySize, maxAlloc⟩ stop (order.value (counts.take w))
    (order.value (counts.drop w))

def magicLE : ℕ := 0x46554747

def magicBE : ℕ := 0x47475546

/-- `Decode` of a whole file. -/
def decode (maxArraySize : ℤ) (maxAlloc : ℕ) (file : Bytes) : Result Error Panic Gguf :=
  (do
    let magic ← readFull 4
    if ofLE magic = magicLE then
      decodeContainer .littleEndian maxArraySize maxAlloc file.length
    else if ofLE magic = magicBE then
      decodeContainer .bigEndian maxArraySize maxAlloc file.length
    else .fail .invalidMagic : Read Gguf) file

end Ollama.Ggml
