import Ollama.Ggml.Decode
import Ollama.Lib.Double

/-!
# The lazy GGUF reader

`fs/gguf`: a file that is opened and then read to its end, first the key-values and then the
tensors. An error carries what is left of the input, since reading goes on after one.
-/

namespace Ollama.Gguf

open Lib Lib.Binary Ggml

/-! ## §1  Values -/

inductive Error
  | eof
  | unexpectedEOF
  | unsupported
  deriving DecidableEq

abbrev Read (α : Type) := Reader (Error × Bytes) Panic α

/-- `io.ReadFull`, and `binary.Read` of that size. -/
def readFull (n : ℕ) : Read Bytes :=
  Reader.take (fun bs => (if bs = [] then .eof else .unexpectedEOF, [])) n

def unsupported {α : Type} : Read α := fun bs => .error (.unsupported, bs)

variable (maxAlloc : ℕ)

/-- `make([]T, n)` for elements of `size` bytes. -/
def makeSlice (size n : ℕ) : Read Unit :=
  if maxAlloc < n * size then .halt .makeSlice else pure ()

def readUint (w : ℕ) : Read ℕ := do
  let bs ← readFull w
  return ofLE bs

/-- `read[T]` -/
def read (t : Scalar) : Read (Fin t.bound) := do
  let n ← readUint t.size
  return t.ofBits n

/-- `len(f.bts)` at first. A buffer that has grown was made, so that `make` allows its length
again. -/
def btsLen : ℕ := 4096

def readString : Read Bytes := do
  let n ← readUint 8
  -- a negative `int` is not longer than the buffer, which is then cut out of range
  if 2 ^ 63 ≤ n then .halt .sliceBounds
  else if btsLen < n then do
    makeSlice maxAlloc 1 n
    readFull n
  else readFull n

/-- `readArrayData[T]` -/
def readArrayData (t : Scalar) (n : ℕ) : Read Value := do
  makeSlice maxAlloc t.size n
  let s ← Reader.times (read t) n
  return .array t n (some s)

def readArrayString (n : ℕ) : Read Value := do
  makeSlice maxAlloc stringHeader n
  let s ← Reader.times (readString maxAlloc) n
  return .strings n (some s)

def readArray : Read Value := do
  let t ← readUint 4
  let n ← readUint 8
  match scalarOf t with
  | some t => readArrayData maxAlloc t n
  | none => if t = ggufTypeString then readArrayString maxAlloc n else unsupported

/-! ## §2  Key-values and tensors -/

structure KeyValue where
  key : Bytes
  value : Value
  deriving DecidableEq

def readValue (t : ℕ) : Read Value :=
  match scalarOf t with
  | some t => do
      let v ← read t
      return .scalar t v
  | none =>
      if t = ggufTypeString then do
        let s ← readString maxAlloc
        return .string s
      else if t = ggufTypeArray then readArray maxAlloc
      else unsupported

def readKeyValue : Read KeyValue := do
  let key ← readString maxAlloc
  let t ← readUint 4
  let value ← readValue maxAlloc t
  return ⟨key, value⟩

/-- `TensorInfo` has the fields of a tensor, its type as `kind`. -/
def readTensor : Read Tensor := do
  let name ← readString maxAlloc
  let dims ← readUint 4
  makeSlice maxAlloc 8 dims
  let shape ← Reader.times (readUint 8) dims
  let type ← readUint 4
  let offset ← readUint 8
  return ⟨name, type, offset, shape⟩

/-! ## §3  The file -/

/-- `rest` of a `lazy`: the values up to the first that cannot be read, an error being logged,
and whether all were read. -/
def rest {α : Type} (fn : Read α) : ℕ → Reader (Error × Bytes) Panic (List α × Bool)
  | 0 => pure ([], true)
  | n + 1 => fun bs =>
      match fn bs with
      | .ok a bs => (do
          let (values, all) ← rest fn n
          return (a :: values, all) : Read (List α × Bool)) bs
      | .error (_, bs) => .ok ([], false) bs
      | .panic p => .panic p

structure File where
  version : ℕ
  keyValues : List KeyValue
  tensors : List Tensor
  offset : ℤ
  deriving DecidableEq

/-- `KeyValue` of a key that begins with `general.`: the first one with that key. -/
def keyValue (keyValues : List KeyValue) (key : Bytes) : Option Value :=
  (keyValues.find? fun kv => kv.key = key).map KeyValue.value

/-- `Value.Int`, which is 0 for a value that is not a signed integer. -/
def int : Option Value → ℤ
  | some (.scalar .int8 v) => (v.val : ℤ).bmod (2 ^ 8)
  | some (.scalar .int16 v) => (v.val : ℤ).bmod (2 ^ 16)
  | some (.scalar .int32 v) => (v.val : ℤ).bmod (2 ^ 32)
  | some (.scalar .int64 v) => (v.val : ℤ).bmod (2 ^ 64)
  | _ => 0

/-- `cmp.Or(f.KeyValue("general.alignment").Int(), 32)` -/
def alignment (keyValues : List KeyValue) : ℤ :=
  if int (keyValue keyValues alignmentKey) = 0 then 32
  else int (keyValue keyValues alignmentKey)

def tell (stop : ℕ) : Read ℤ := fun bs => .ok (stop - bs.length : ℤ) bs

/-- Both lists read to their end, and where the data begins. -/
def readBody (stop version : ℕ) : Read File := do
  let numTensor ← readUint 8
  let numKV ← readUint 8
  let (keyValues, _) ← rest (readKeyValue maxAlloc) numKV
  let (tensors, all) ← rest (readTensor maxAlloc) numTensor
  let offset ← tell stop
  let padding := padding offset (alignment keyValues)
  return ⟨version, keyValues, tensors, if all then offset + padding else 0⟩

/-- `Open`, and then everything read. -/
def openAll (file : Bytes) : Result (Error × Bytes) Panic File :=
  (do
    let magic ← readFull 4
    if magic = ascii "gguf" then unsupported
    else do
      let version ← readUint 4
      if version < 2 then unsupported else readBody maxAlloc file.length version : Read File) file

/-! ## §4  The bytes of a tensor -/

/-- `TensorType.blockSize` -/
def blockSize (type : ℕ) : ℕ :=
  match TensorType.ofKind type with
  | some .f32 | some .f16 | some .i8 | some .i16 | some .i32 | some .i64 | some .f64
  | some .bf16 => 1
  | some .q4_0 | some .q4_1 | some .q5_0 | some .q5_1 | some .q8_0 | some .q8_1
  | some .iq4_NL => 32
  | _ => 256

/-- `TensorType.typeSize` -/
def typeSize (type : ℕ) : ℕ :=
  match TensorType.ofKind type with
  | some .f32 => 4
  | some .f16 => 2
  | some .q4_0 => 2 + blockSize type / 2
  | some .q4_1 => 2 + 2 + blockSize type / 2
  | some .q5_0 => 2 + 4 + blockSize type / 2
  | some .q5_1 => 2 + 2 + 4 + blockSize type / 2
  | some .q8_0 => 2 + blockSize type
  | some .q8_1 => 2 + 2 + blockSize type
  | some .q2_K => blockSize type / 16 + blockSize type / 4 + 2 + 2
  | some .q3_K => blockSize type / 8 + blockSize type / 4 + 12 + 2
  | some .q4_K => 2 + 2 + 12 + blockSize type / 2
  | some .q5_K => 2 + 2 + 12 + blockSize type / 8 + blockSize type / 2
  | some .q6_K => blockSize type / 2 + blockSize type / 4 + blockSize type / 16 + 2
  | some .q8_K => 4 + blockSize type + 2 * blockSize type / 16
  | some .iq2_XXS => 2 + 2 * blockSize type / 8
  | some .iq2_XS => 2 + 2 * blockSize type / 8 + blockSize type / 32
  | some .iq3_XXS => 2 + blockSize type / 4 + blockSize type / 8
  | some .iq1_S => 2 + blockSize type / 8 + blockSize type / 16
  | some .iq4_NL => 2 + blockSize type / 2
  | some .iq3_S => 2 + blockSize type / 4 + blockSize type / 8 + blockSize type / 32 + 4
  | some .iq2_S => 2 + blockSize type / 4 + blockSize type / 16
  | some .iq4_XS => 2 + 2 + blockSize type / 2 + blockSize type / 64
  | some .i8 => 1
  | some .i16 => 2
  | some .i32 => 4
  | some .i64 => 8
  | some .f64 => 8
  | some .iq1_M => blockSize type / 8 + blockSize type / 16 + blockSize type / 32
  | some .bf16 => 2
  | _ => 0

/-- `NumValues`, with the overflow of `int64`. -/
def numValues (shape : List ℕ) : ℤ :=
  shape.foldl (fun (numItems : ℤ) (dim : ℕ) =>
    (numItems * (dim : ℤ).bmod (2 ^ 64)).bmod (2 ^ 64)) 1

/-- `NumBytes` -/
def numBytes (t : Tensor) : ℤ :=
  Double.toInt (Double.mul (Double.ofInt (numValues t.shape))
    (Double.div (Double.ofInt (typeSize t.kind)) (Double.ofInt (blockSize t.kind))))

end Ollama.Gguf
