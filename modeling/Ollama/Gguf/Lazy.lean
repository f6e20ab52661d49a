import Ollama.Gguf.File

/-!
# Reading a GGUF file on demand

`fs/gguf`: `Open` reads the header only. Key-values and tensors are pulled out of
the file by two iterators that share its position, when a lookup or an iteration
needs them, and are kept.
-/

namespace Ollama.Gguf

open Lib Lib.Binary Ggml

/-! ## §1  Lazy lists -/

/-- `lazy`: what has been pulled, in `values`; `done` when the iterator has
returned. -/
structure Lazy (α : Type) where
  count : ℕ
  values : List α
  done : Bool

/-- What `next` comes to: the value, the list, the input after it, and whether
`successFunc` is called. -/
structure Pulled (α : Type) where
  value : Option α
  list : Lazy α
  input : Bytes
  success : Bool

/-- `next`: the iterator goes on with its loop, which has run once for each of the
values. -/
def Lazy.next {α : Type} (fn : Read α) (g : Lazy α) (input : Bytes) : Except Panic (Pulled α) :=
  if g.done then .ok ⟨none, g, input, false⟩
  else if g.values.length < g.count then
    match fn input with
    | .ok t input => .ok ⟨some t, { g with values := g.values ++ [t] }, input, false⟩
    | .error (_, input) => .ok ⟨none, { g with done := true }, input, false⟩
    | .panic p => .error p
  else .ok ⟨none, { g with done := true }, input, true⟩

/-- Calls of `next` after which it returns nothing more. -/
def Lazy.left {α : Type} (g : Lazy α) : ℕ := g.count - g.values.length + 1

/-- `File`; `size` is the length of the file, of which `input` has not been read. -/
structure LazyFile where
  size : ℕ
  input : Bytes
  keyValues : Lazy KeyValue
  tensors : Lazy Tensor
  offset : ℤ

/-- `f.reader.offset` -/
def LazyFile.position (f : LazyFile) : ℤ := f.size - f.input.length

def unread : Read Bytes := fun input => .ok input input

variable (maxAlloc : ℕ)

/-- `Open` -/
def openLazy (file : Bytes) : Result (Error × Bytes) Panic LazyFile :=
  (do
    let magic ← readFull 4
    if magic = ascii "gguf" then unsupported
    else do
      let version ← readUint 4
      if version < 2 then unsupported
      else do
        let numTensor ← readUint 8
        let numKV ← readUint 8
        let input ← unread
        return ⟨file.length, input, ⟨numKV, [], false⟩, ⟨numTensor, [], false⟩, 0⟩
    : Read LazyFile) file

/-! ## §2  Key-values -/

/-- `f.keyValues.next` -/
def nextKeyValue (f : LazyFile) : Except Panic (Option KeyValue × LazyFile) := do
  let pulled ← f.keyValues.next (readKeyValue maxAlloc) f.input
  return (pulled.value, { f with keyValues := pulled.list, input := pulled.input })

/-- The loop of `KeyValue`. -/
def pullKeyValue (key : Bytes) : ℕ → LazyFile → Except Panic (Option KeyValue × LazyFile)
  | 0, f => .ok (none, f)
  | n + 1, f => do
      let (kv, f) ← nextKeyValue maxAlloc f
      match kv with
      | none => return (none, f)
      | some kv => if kv.key = key then return (some kv, f) else pullKeyValue key n f

/-- `KeyValue` of a key as it stands in the file. -/
def lookupKeyValue (key : Bytes) (f : LazyFile) : Except Panic (Option KeyValue × LazyFile) :=
  match f.keyValues.values.find? fun kv => kv.key = key with
  | some kv => .ok (some kv, f)
  | none => pullKeyValue maxAlloc key f.keyValues.left f

def isGlobal (key : Bytes) : Bool :=
  (ascii "general.").isPrefixOf key || (ascii "tokenizer.").isPrefixOf key

/-- `String` of a `KeyValue` -/
def stringOf : Option KeyValue → Bytes
  | some ⟨_, .string s⟩ => s
  | _ => []

/-- `KeyValue`; `none` is the one without key and value. -/
def getKeyValue (key : Bytes) (f : LazyFile) : Except Panic (Option KeyValue × LazyFile) := do
  if isGlobal key then lookupKeyValue maxAlloc key f
  else do
    let (architecture, f) ← lookupKeyValue maxAlloc architectureKey f
    lookupKeyValue maxAlloc (stringOf architecture ++ ascii "." ++ key) f

/-- `f.keyValues.rest` -/
def restKeyValues : ℕ → LazyFile → Except Panic LazyFile
  | 0, f => .ok f
  | n + 1, f => do
      let (kv, f) ← nextKeyValue maxAlloc f
      match kv with
      | none => return f
      | some _ => restKeyValues n f

/-! ## §3  Tensors -/

/-- `cmp.Or(kv.Int(), 32)` -/
def alignmentOf (kv : Option KeyValue) : ℤ :=
  if int (kv.map KeyValue.value) = 0 then 32 else int (kv.map KeyValue.value)

/-- `successFunc` of the tensors -/
def successFunc (f : LazyFile) : Except Panic LazyFile := do
  let offset := f.position
  let (kv, f) ← getKeyValue maxAlloc alignmentKey f
  return { f with offset := offset + padding offset (alignmentOf kv) }

/-- `f.tensors.next` -/
def nextTensor (f : LazyFile) : Except Panic (Option Tensor × LazyFile) := do
  let pulled ← f.tensors.next (readTensor maxAlloc) f.input
  let f := { f with tensors := pulled.list, input := pulled.input }
  if pulled.success then do
    let f ← successFunc maxAlloc f
    return (pulled.value, f)
  else return (pulled.value, f)

/-- The loop of `TensorInfo`. -/
def pullTensor (name : Bytes) : ℕ → LazyFile → Except Panic (Option Tensor × LazyFile)
  | 0, f => .ok (none, f)
  | n + 1, f => do
      let (t, f) ← nextTensor maxAlloc f
      match t with
      | none => return (none, f)
      | some t => if t.name = name then return (some t, f) else pullTensor name n f

/-- `TensorInfo{}` -/
def noTensor : Tensor := ⟨[], 0, 0, []⟩

/-- `TensorInfo` -/
def tensorInfo (name : Bytes) (f : LazyFile) : Except Panic (Tensor × LazyFile) :=
  match f.tensors.values.find? fun t => t.name = name with
  | some t => .ok (t, f)
  | none => do
      let f ← restKeyValues maxAlloc f.keyValues.left f
      let (t, f) ← pullTensor maxAlloc name f.tensors.left f
      return (t.getD noTensor, f)

/-- `f.tensors.rest` -/
def restTensors : ℕ → LazyFile → Except Panic LazyFile
  | 0, f => .ok f
  | n + 1, f => do
      let (t, f) ← nextTensor maxAlloc f
      match t with
      | none => return f
      | some _ => restTensors n f

/-- What `TensorReader` returns: the tensor, where its section begins in the file
and how long it is; or that the tensor is not found. -/
inductive Opened
  | section (t : Tensor) (start length : ℤ)
  | notFound
  deriving DecidableEq

/-- `TensorReader` -/
def tensorReader (name : Bytes) (f : LazyFile) : Except Panic (Opened × LazyFile) := do
  let (t, f) ← tensorInfo maxAlloc name f
  if numBytes t = 0 then return (.notFound, f)
  else do
    let f ← restTensors maxAlloc f.tensors.left f
    return (.section t (f.offset + toInt64 t.offset) (numBytes t), f)

/-! ## §4  Iterations -/

/-- One turn of the loop of `All`: the value at the index, if the loop goes on. -/
def allAt {α : Type} (list : LazyFile → Lazy α)
    (next : LazyFile → Except Panic (Option α × LazyFile)) (i : ℕ) (f : LazyFile) :
    Except Panic (Option α × LazyFile) :=
  if (i : ℤ) < toInt64 (list f).count then
    match (list f).values[i]? with
    | some v => .ok (some v, f)
    | none => next f
  else .ok (none, f)

inductive Element
  | keyValue (kv : KeyValue)
  | tensor (t : Tensor)
  deriving DecidableEq

inductive Kind
  | keyValues
  | tensors
  deriving DecidableEq

/-- A loop over `KeyValues` or `TensorInfos`, and the index that comes next in it. -/
structure Cursor where
  kind : Kind
  index : ℕ
  deriving DecidableEq

def iterate (c : Cursor) (f : LazyFile) : Except Panic (Option Element × LazyFile) :=
  match c.kind with
  | .keyValues => do
      let (kv, f) ← allAt LazyFile.keyValues (nextKeyValue maxAlloc) c.index f
      return (kv.map Element.keyValue, f)
  | .tensors => do
      let (t, f) ← allAt LazyFile.tensors (nextTensor maxAlloc) c.index f
      return (t.map Element.tensor, f)

/-! ## §5  Steps -/

/-- What a program does with an open file. A loop that it breaks out of is not
advanced again; loops may be nested. -/
inductive Op
  | keyValue (key : Bytes)
  | tensorInfo (name : Bytes)
  | tensorReader (name : Bytes)
  | keyValues
  | tensorInfos
  | advance (loop : ℕ)

inductive Answer
  | keyValue (kv : Option KeyValue)
  | tensorInfo (t : Tensor)
  | opened (r : Opened)
  | started
  | yielded (index : ℕ) (e : Element)
  | ended
  deriving DecidableEq

def advanceAt (cursors : List Cursor) (loop : ℕ) (c : Cursor) : List Cursor :=
  cursors.set loop { c with index := c.index + 1 }

def step (op : Op) (f : LazyFile) (cursors : List Cursor) :
    Except Panic (Answer × LazyFile × List Cursor) :=
  match op with
  | .keyValue key => do
      let (kv, f) ← getKeyValue maxAlloc key f
      return (.keyValue kv, f, cursors)
  | .tensorInfo name => do
      let (t, f) ← tensorInfo maxAlloc name f
      return (.tensorInfo t, f, cursors)
  | .tensorReader name => do
      let (r, f) ← tensorReader maxAlloc name f
      return (.opened r, f, cursors)
  | .keyValues => return (.started, f, cursors ++ [⟨.keyValues, 0⟩])
  | .tensorInfos => do
      let f ← restKeyValues maxAlloc f.keyValues.left f
      return (.started, f, cursors ++ [⟨.tensors, 0⟩])
  | .advance loop =>
      match cursors[loop]? with
      | none => return (.ended, f, cursors)
      | some c => do
          let (e, f) ← iterate maxAlloc c f
          match e with
          | none => return (.ended, f, cursors)
          | some e => return (.yielded c.index e, f, advanceAt cursors loop c)

/-- The answers to some steps. -/
def answers : List Op → LazyFile → List Cursor → Except Panic (List Answer)
  | [], _, _ => .ok []
  | op :: ops, f, cursors => do
      let (a, f, cursors) ← step maxAlloc op f cursors
      let as ← answers ops f cursors
      return a :: as

/-! ## §6  The whole file at once -/

/-- All that a file holds before its data, and where that ends. -/
structure Parsed where
  keyValues : List KeyValue
  tensors : List Tensor
  infosEnd : ℤ
  deriving DecidableEq

/-- The whole of a file, read from the front to the data. -/
def parse (file : Bytes) : Result (Error × Bytes) Panic Parsed :=
  (do
    let magic ← readFull 4
    if magic ≠ ascii "GGUF" then unsupported
    else do
      let version ← readUint 4
      if version < 2 then unsupported
      else do
        let numTensor ← readUint 8
        let numKV ← readUint 8
        let keyValues ← Reader.times (readKeyValue maxAlloc) numKV
        let tensors ← Reader.times (readTensor maxAlloc) numTensor
        let infosEnd ← tell file.length
        return ⟨keyValues, tensors, infosEnd⟩ : Read Parsed) file

namespace Parsed

variable (p : Parsed)

def lookup (key : Bytes) : Option KeyValue := p.keyValues.find? fun kv => kv.key = key

def keyValue (key : Bytes) : Option KeyValue :=
  if isGlobal key then p.lookup key
  else p.lookup (stringOf (p.lookup architectureKey) ++ ascii "." ++ key)

def tensor (name : Bytes) : Option Tensor := p.tensors.find? fun t => t.name = name

/-- The alignment of the file, 32 when it has none. -/
def alignment : ℕ :=
  match p.lookup alignmentKey with
  | some ⟨_, .scalar .uint32 v⟩ => v.val
  | _ => 32

/-- Where the data begins. -/
def dataOffset : ℤ := p.infosEnd + padding p.infosEnd p.alignment

/-- A section for a tensor that the file has. -/
def opened (name : Bytes) : Opened :=
  match p.tensor name with
  | none => .notFound
  | some t =>
      if numBytes t = 0 then .notFound
      else .section t (p.dataOffset + t.offset) (numBytes t)

def elements : Kind → List Element
  | .keyValues => p.keyValues.map Element.keyValue
  | .tensors => p.tensors.map Element.tensor

/-- A step over what was parsed. -/
def step (op : Op) (cursors : List Cursor) : Answer × List Cursor :=
  match op with
  | .keyValue key => (.keyValue (p.keyValue key), cursors)
  | .tensorInfo name => (.tensorInfo ((p.tensor name).getD noTensor), cursors)
  | .tensorReader name => (.opened (p.opened name), cursors)
  | .keyValues => (.started, cursors ++ [⟨.keyValues, 0⟩])
  | .tensorInfos => (.started, cursors ++ [⟨.tensors, 0⟩])
  | .advance loop =>
      match cursors[loop]? with
      | none => (.ended, cursors)
      | some c =>
          match (p.elements c.kind)[c.index]? with
          | none => (.ended, cursors)
          | some e => (.yielded c.index e, advanceAt cursors loop c)

def answers : List Op → List Cursor → List Answer
  | [], _ => []
  | op :: ops, cursors => (p.step op cursors).1 :: answers ops (p.step op cursors).2

end Parsed

end Ollama.Gguf
