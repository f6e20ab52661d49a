import Ollama.Ggml.Decode

/-!
# Writing a GGUF file, and reading it

`WriteGGUF` of `fs/ggml/gguf.go`. The file is the bytes up to the tensors' data and where
the data goes; `block`, the number after `blk.` in a tensor's name, is a parameter.
-/

namespace Ollama.Ggml

open Lib.Binary

/-! ## §1  Values -/

inductive WriteError
  | architectureNotSet
  | improperType (k : Bytes)
  | divide
  deriving DecidableEq

/-- `writeGGUF` -/
def writeGGUF (t : Scalar) (v : Fin t.bound) : Bytes := toLE 4 t.tag ++ toLE t.size v.val

def lengthPrefixed (s : Bytes) : Bytes := toLE 8 s.length ++ s

def writeGGUFString (s : Bytes) : Bytes := toLE 4 ggufTypeString ++ lengthPrefixed s

/-- `writeGGUFArray` of numbers. -/
def writeGGUFArray (t : Scalar) (s : List (Fin t.bound)) : Bytes :=
  toLE 4 ggufTypeArray ++ (toLE 4 t.tag ++ (toLE 8 s.length ++
    s.flatMap fun v => toLE t.size v.val))

/-- `writeGGUFArray` of strings. -/
def writeGGUFStrings (s : List Bytes) : Bytes :=
  toLE 4 ggufTypeArray ++ (toLE 4 ggufTypeString ++ (toLE 8 s.length ++ s.flatMap lengthPrefixed))

def Value.bytes : Value → Bytes
  | .scalar t v => writeGGUF t v
  | .string s => writeGGUFString s
  | .array t _ values => writeGGUFArray t (values.getD [])
  | .strings _ values => writeGGUFStrings (values.getD [])

/-- The cases of `ggufWriteKV`. -/
def Value.Writable : Value → Prop
  | .scalar t _ => t ∈ [.uint32, .uint64, .float32, .bool]
  | .array t _ _ => t ∈ [.int32, .uint32, .float32, .bool]
  | .string _ | .strings _ _ => True

instance : DecidablePred Value.Writable
  | .scalar _ _ => inferInstanceAs (Decidable (_ ∈ _))
  | .array _ _ _ => inferInstanceAs (Decidable (_ ∈ _))
  | .string _ => inferInstanceAs (Decidable True)
  | .strings _ _ => inferInstanceAs (Decidable True)

def writtenKey (arch k : Bytes) : Bytes :=
  if ¬(arch ++ ascii "." <+: k) ∧ ¬(ascii "general." <+: k) ∧ ¬(ascii "adapter." <+: k) ∧
      ¬(ascii "tokenizer." <+: k) then arch ++ (ascii "." ++ k)
  else k

def kvBytes (k : Bytes) (v : Value) : Bytes := lengthPrefixed k ++ v.bytes

def ggufWriteKV (arch k : Bytes) (v : Value) : Except WriteError Bytes :=
  if v.Writable then .ok (kvBytes (writtenKey arch k) v)
  else .error (.improperType (writtenKey arch k))

/-- `ggufWriteTensorInfo` -/
def ggufWriteTensorInfo (t : Tensor) : Bytes :=
  lengthPrefixed t.name ++ (toLE 4 t.shape.length ++ (t.shape.flatMap (toLE 8) ++
    (toLE 4 t.kind ++ toLE 8 t.offset)))

/-! ## §2  The file -/

/-- The key-values in the order of `slices.Sorted(maps.Keys(kv))`. -/
def KV.sorted (kv : KV) : List (Bytes × Value) :=
  (kv.keys.sort fun a b => a ≤ b).filterMap fun k => (kv.lookup k).map fun v => (k, v)

def nextOffset (alignment s : ℕ) (t : Tensor) : ℕ :=
  let s := (s + t.size) % 2 ^ 64
  (s + (padding (toInt64 s) alignment % 2 ^ 64).toNat) % 2 ^ 64

def placed (alignment : ℕ) : ℕ → List Tensor → List Tensor
  | _, [] => []
  | s, t :: ts => { t with offset := s } :: placed alignment (nextOffset alignment s t) ts

/-- What was written: the bytes before the data, the tensors in order, and where their data
begins; the data of a tensor goes to `dataOffset` and its own offset. -/
structure Written where
  header : Bytes
  tensors : List Tensor
  dataOffset : ℤ

variable (block : Bytes → ℤ)

/-- `slices.SortStableFunc`, by block and then by name. -/
def sortTensors (ts : List Tensor) : List Tensor :=
  ts.insertionSort fun a b => block a.name < block b.name ∨
    (block a.name = block b.name ∧ a.name ≤ b.name)

def headerBytes (version : ℕ) (kvs : List Bytes) (ts : List Tensor) : Bytes :=
  toLE 4 magicLE ++ (toLE 4 version ++ ((toLE 8 ts.length ++ toLE 8 kvs.length) ++
    (kvs.flatten ++ ts.flatMap ggufWriteTensorInfo)))

/-- `WriteGGUF` -/
def writeFile (kv : KV) (ts : List Tensor) : Except WriteError Written := do
  if kv.architecture = [] then throw .architectureNotSet
  let kvs ← kv.sorted.mapM fun p => ggufWriteKV kv.architecture p.1 p.2
  let ts := sortTensors block ts
  if kv.alignment = 0 then throw .divide
  let ts := placed kv.alignment 0 ts
  let header := headerBytes 3 kvs ts
  return ⟨header, ts, header.length + padding header.length kv.alignment⟩

/-! ## §3  Values are read back -/

section Reads

variable {llm : ContainerGGUF} (hllm : llm.byteOrder = .littleEndian ∧ llm.version ≠ 1)
include hllm

theorem reads_readUint {w n : ℕ} (hn : n < 256 ^ w) : Reader.Reads (readUint llm w) (toLE w n) n := by
  have h := (Reader.reads_take (ε := Error) (π := Panic)
    (fun bs => if bs = [] then .eof else .unexpectedEOF) (length_toLE w n)).map llm.byteOrder.value
  rw [hllm.1] at h
  have hvalue : ByteOrder.littleEndian.value (toLE w n) = n := ofLE_toLE_of_lt hn
  rw [hvalue] at h
  unfold readUint
  rw [hllm.1]
  exact h

theorem reads_readGGUF (t : Scalar) (v : Fin t.bound) :
    Reader.Reads (readGGUF llm t) (toLE t.size v.val) v := by
  have h := (reads_readUint hllm (v.isLt.trans_le t.bound_le)).map t.ofBits
  rwa [Scalar.ofBits_val] at h

/-- A string that a running program holds. -/
theorem reads_string {s : Bytes} (hmax : llm.maxAlloc < 2 ^ 63) (hs : s.length ≤ llm.maxAlloc) :
    Reader.Reads (readGGUFString llm) (lengthPrefixed s) s := by
  unfold readGGUFString
  rw [if_neg hllm.2]
  have hlt : s.length < 2 ^ 63 := by omega
  have hlen : s.length < 256 ^ 8 := by
    omega
  refine (reads_readUint hllm hlen).bind ?_
  rw [toInt64_of_lt hlt, Int.toNat_natCast]
  have hfull : Reader.Reads (readFull s.length) s s := Reader.reads_take _ rfl
  split
  · unfold makeSlice
    rw [if_neg (by omega)]
    exact hfull
  · exact hfull

omit hllm in
theorem reads_newArray (hkeep : llm.maxArraySize < 0) (hmax : llm.maxAlloc < 2 ^ 63)
    {elemSize n : ℕ} (hpos : 0 < elemSize) (hn : n * elemSize ≤ llm.maxAlloc) :
    n < 256 ^ 8 ∧ (toInt64 n).toNat = n ∧ newArray llm elemSize (toInt64 n) = pure true := by
  have hlt : n < 2 ^ 63 := by
    have := Nat.le_mul_of_pos_right n hpos
    omega
  refine ⟨by omega, by rw [toInt64_of_lt hlt, Int.toNat_natCast], ?_⟩
  unfold newArray
  rw [if_pos (Or.inl hkeep), toInt64_of_lt hlt]
  unfold makeSlice
  rw [if_neg]
  · rfl
  · omega

theorem reads_array (hkeep : llm.maxArraySize < 0) (hmax : llm.maxAlloc < 2 ^ 63) (t : Scalar)
    {vs : List (Fin t.bound)} (hvs : vs.length * t.size ≤ llm.maxAlloc) :
    Reader.Reads (readGGUFArray llm)
      (toLE 4 t.tag ++ (toLE 8 vs.length ++ vs.flatMap fun v => toLE t.size v.val))
      (.array t vs.length (some vs)) := by
  have hsize : 0 < t.size := by cases t <;> decide
  obtain ⟨hlen, hnat, hnew⟩ := reads_newArray hkeep hmax hsize hvs
  have htag : t.tag < 256 ^ 4 := by cases t <;> decide
  refine (reads_readUint hllm htag).bind ?_
  refine (reads_readUint hllm hlen).bind ?_
  rw [scalarOf_tag]
  simp only
  rw [hnew, hnat, pure_bind]
  exact (Reader.Reads.times (fun v => toLE t.size v.val) vs fun v _ => reads_readGGUF hllm t v).map _

theorem reads_strings (hkeep : llm.maxArraySize < 0) (hmax : llm.maxAlloc < 2 ^ 63)
    {vs : List Bytes} (hvs : vs.length * stringHeader ≤ llm.maxAlloc)
    (hlength : ∀ s ∈ vs, s.length ≤ llm.maxAlloc) :
    Reader.Reads (readGGUFArray llm)
      (toLE 4 ggufTypeString ++ (toLE 8 vs.length ++ vs.flatMap lengthPrefixed))
      (.strings vs.length (some vs)) := by
  obtain ⟨hlen, hnat, hnew⟩ := reads_newArray hkeep hmax (by decide) hvs
  refine (reads_readUint hllm (n := ggufTypeString) (by decide)).bind ?_
  refine (reads_readUint hllm hlen).bind ?_
  rw [hnew, hnat, pure_bind]
  exact (Reader.Reads.times lengthPrefixed vs fun s hs => reads_string hllm hmax (hlength s hs)).map _

end Reads

def Value.Stored (maxAlloc : ℕ) : Value → Prop
  | .scalar _ _ => True
  | .string s => s.length ≤ maxAlloc
  | .array t n values => ∃ vs, values = some vs ∧ n = vs.length ∧ n * t.size ≤ maxAlloc
  | .strings n values => ∃ vs, values = some vs ∧ n = vs.length ∧ n * stringHeader ≤ maxAlloc ∧
      ∀ s ∈ vs, s.length ≤ maxAlloc

section Reads

variable {llm : ContainerGGUF} (hllm : llm.byteOrder = .littleEndian ∧ llm.version ≠ 1)
  (hkeep : llm.maxArraySize < 0) (hmax : llm.maxAlloc < 2 ^ 63)
include hllm hkeep hmax

theorem reads_value {v : Value} (hv : v.Stored llm.maxAlloc) :
    Reader.Reads (do let t ← readUint llm 4; readValue llm t) v.bytes v := by
  cases v with
  | scalar t v =>
    have htag : t.tag < 256 ^ 4 := by cases t <;> decide
    refine (reads_readUint hllm htag).bind ?_
    unfold readValue
    rw [scalarOf_tag]
    exact (reads_readGGUF hllm t v).map _
  | string s =>
    refine (reads_readUint hllm (n := ggufTypeString) (by decide)).bind ?_
    exact (reads_string hllm hmax hv).map _
  | array t n values =>
    obtain ⟨vs, rfl, rfl, hvs⟩ := hv
    refine (reads_readUint hllm (n := ggufTypeArray) (by decide)).bind ?_
    exact reads_array hllm hkeep hmax t hvs
  | strings n values =>
    obtain ⟨vs, rfl, rfl, hvs, hlength⟩ := hv
    refine (reads_readUint hllm (n := ggufTypeArray) (by decide)).bind ?_
    exact reads_strings hllm hkeep hmax hvs hlength

/-! ## §4  Key-values and tensors -/

theorem reads_kv (kv : KV) {k : Bytes} {v : Value} (hk : k.length ≤ llm.maxAlloc)
    (hv : v.Stored llm.maxAlloc) : Reader.Reads (readKV llm kv) (kvBytes k v) (kv.insert k v) := by
  have hall : readKV llm kv = (do
      let k ← readGGUFString llm
      let v ← (do let t ← readUint llm 4; readValue llm t)
      return kv.insert k v) := by
    unfold readKV
    simp only [bind_assoc]
  rw [hall]
  refine (reads_string hllm hmax hk).bind ?_
  exact (reads_value hllm hkeep hmax hv).map fun v => kv.insert k v

theorem reads_kvs (pairs : List (Bytes × Value)) (kv : KV)
    (h : ∀ p ∈ pairs, p.1.length ≤ llm.maxAlloc ∧ p.2.Stored llm.maxAlloc) :
    Reader.Reads (readKVs llm pairs.length kv) (pairs.flatMap fun p => kvBytes p.1 p.2)
      (pairs.foldl (fun kv p => kv.insert p.1 p.2) kv) := by
  induction pairs generalizing kv with
  | nil => exact Reader.reads_pure kv
  | cons p pairs ih =>
    obtain ⟨⟨hk, hv⟩, hpairs⟩ := List.forall_mem_cons.mp h
    exact (reads_kv hllm hkeep hmax kv hk hv).bind (ih _ hpairs)

omit hkeep in
theorem reads_tensor {t : Tensor} (hname : t.name.length ≤ llm.maxAlloc)
    (hdims : t.shape.length * 8 ≤ llm.maxAlloc) (hdims' : t.shape.length < 2 ^ 32)
    (hshape : ∀ n ∈ t.shape, n < 2 ^ 64) (hkind : t.kind < 2 ^ 32) (hoffset : t.offset < 2 ^ 64) :
    Reader.Reads (readTensor llm) (ggufWriteTensorInfo t) t := by
  have hwrap : ∀ {α : Type} {m : Read α} {bs : Bytes} {a : α} (what : String),
      Reader.Reads m bs a → Reader.Reads (wrap what m) bs a := by
    intro α m bs a what hm rest
    unfold wrap
    rw [hm rest]
  refine (hwrap _ (reads_string hllm hmax hname)).bind ?_
  refine (hwrap _ (reads_readUint hllm (by omega))).bind ?_
  have hmake : makeSlice llm.maxAlloc 8 t.shape.length = pure () := if_neg (by omega)
  rw [hmake, pure_bind]
  have hall := Reader.Reads.times (m := readUint llm 8) (toLE 8) t.shape fun n hn =>
    reads_readUint hllm (by have := hshape n hn; omega)
  refine (hwrap _ hall).bind ?_
  refine (hwrap _ (reads_readUint hllm (by omega))).bind ?_
  exact (hwrap _ (reads_readUint hllm (by omega))).map fun offset =>
    (⟨t.name, t.kind, offset, t.shape⟩ : Tensor)

end Reads

end Ollama.Ggml
