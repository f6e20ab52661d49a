import Ollama.Lib.Binary
import Mathlib.Data.Finmap
import Mathlib.Data.Finset.Sort

/-!
# Key-values and tensors of a GGUF file

The data of `fs/ggml`: value types and their tags, key-values, tensor types and sizes.
Machine integers are numbers below their bound; floating-point numbers are their bits.
-/

namespace Ollama.Ggml

open Lib.Binary

/-! ## §1  Values -/

/-- The value types of fixed size. -/
inductive Scalar
  | uint8 | int8 | uint16 | int16 | uint32 | int32 | float32 | bool | uint64 | int64 | float64
  deriving DecidableEq

namespace Scalar

/-- The `ggufType` constant. -/
def tag : Scalar → ℕ
  | uint8 => 0
  | int8 => 1
  | uint16 => 2
  | int16 => 3
  | uint32 => 4
  | int32 => 5
  | float32 => 6
  | bool => 7
  | uint64 => 10
  | int64 => 11
  | float64 => 12

/-- The bytes of a value. -/
def size : Scalar → ℕ
  | uint8 | int8 | bool => 1
  | uint16 | int16 => 2
  | uint32 | int32 | float32 => 4
  | uint64 | int64 | float64 => 8

def bound : Scalar → ℕ
  | bool => 2
  | t => 256 ^ t.size

theorem bound_pos (t : Scalar) : 0 < t.bound := by cases t <;> decide

/-- The value with these bits; every byte but zero is true. -/
def ofBits (t : Scalar) (n : ℕ) : Fin t.bound :=
  ⟨(if t = bool then min n 1 else n) % t.bound, Nat.mod_lt _ t.bound_pos⟩

theorem bound_le (t : Scalar) : t.bound ≤ 256 ^ t.size := by cases t <;> decide

theorem ofBits_val {t : Scalar} (v : Fin t.bound) : t.ofBits v.val = v := by
  have hv := v.isLt
  refine Fin.ext ?_
  show (if t = bool then min v.val 1 else v.val) % t.bound = v.val
  split
  · next h =>
    subst h
    have hle : v.val < 2 := hv
    rw [Nat.min_eq_left (by omega), Nat.mod_eq_of_lt hv]
  · exact Nat.mod_eq_of_lt hv

end Scalar

def ggufTypeString : ℕ := 8

def ggufTypeArray : ℕ := 9

/-- The scalar type with this tag. -/
def scalarOf : ℕ → Option Scalar
  | 0 => some .uint8
  | 1 => some .int8
  | 2 => some .uint16
  | 3 => some .int16
  | 4 => some .uint32
  | 5 => some .int32
  | 6 => some .float32
  | 7 => some .bool
  | 10 => some .uint64
  | 11 => some .int64
  | 12 => some .float64
  | _ => none

@[simp] theorem scalarOf_tag (t : Scalar) : scalarOf t.tag = some t := by cases t <;> rfl

inductive Value
  | scalar (t : Scalar) (v : Fin t.bound)
  | string (s : Bytes)
  | array (t : Scalar) (size : ℕ) (values : Option (List (Fin t.bound)))
  | strings (size : ℕ) (values : Option (List Bytes))
  deriving DecidableEq

/-! ## §2  Key-values -/

/-- A Go string of ASCII characters. -/
def ascii (s : String) : Bytes := s.toList.map fun c => Fin.ofNat 256 c.toNat

abbrev KV := Finmap fun _ : Bytes => Value

def architectureKey : Bytes := ascii "general.architecture"

def alignmentKey : Bytes := ascii "general.alignment"

def parameterCountKey : Bytes := ascii "general.parameter_count"

/-- `KV.Uint("general.alignment", 32)` -/
def KV.alignment (kv : KV) : ℕ :=
  match kv.lookup alignmentKey with
  | some (.scalar .uint32 v) => v.val
  | _ => 32

/-- `KV.String("general.architecture")` -/
def KV.architecture (kv : KV) : Bytes :=
  match kv.lookup architectureKey with
  | some (.string s) => s
  | _ => []

/-! ## §3  Tensors -/

@[ext] structure Tensor where
  name : Bytes
  kind : ℕ
  offset : ℕ
  shape : List ℕ
  deriving DecidableEq

/-- The tensor types with a size; `q4_2` is the 4 that `TypeSize` reads as `mxfp4`. -/
inductive TensorType
  | f32 | f16 | q4_0 | q4_1 | q4_2 | q5_0 | q5_1 | q8_0 | q8_1 | q2_K | q3_K | q4_K | q5_K
  | q6_K | q8_K | iq2_XXS | iq2_XS | iq3_XXS | iq1_S | iq4_NL | iq3_S | iq2_S | iq4_XS | i8
  | i16 | i32 | i64 | f64 | iq1_M | bf16 | mxfp4
  deriving DecidableEq

namespace TensorType

/-- The constant of a type. -/
def kind : TensorType → ℕ
  | f32 => 0
  | f16 => 1
  | q4_0 => 2
  | q4_1 => 3
  | q4_2 => 4
  | q5_0 => 6
  | q5_1 => 7
  | q8_0 => 8
  | q8_1 => 9
  | q2_K => 10
  | q3_K => 11
  | q4_K => 12
  | q5_K => 13
  | q6_K => 14
  | q8_K => 15
  | iq2_XXS => 16
  | iq2_XS => 17
  | iq3_XXS => 18
  | iq1_S => 19
  | iq4_NL => 20
  | iq3_S => 21
  | iq2_S => 22
  | iq4_XS => 23
  | i8 => 24
  | i16 => 25
  | i32 => 26
  | i64 => 27
  | f64 => 28
  | iq1_M => 29
  | bf16 => 30
  | mxfp4 => 39

def ofKind : ℕ → Option TensorType
  | 0 => some f32
  | 1 => some f16
  | 2 => some q4_0
  | 3 => some q4_1
  | 4 => some q4_2
  | 6 => some q5_0
  | 7 => some q5_1
  | 8 => some q8_0
  | 9 => some q8_1
  | 10 => some q2_K
  | 11 => some q3_K
  | 12 => some q4_K
  | 13 => some q5_K
  | 14 => some q6_K
  | 15 => some q8_K
  | 16 => some iq2_XXS
  | 17 => some iq2_XS
  | 18 => some iq3_XXS
  | 19 => some iq1_S
  | 20 => some iq4_NL
  | 21 => some iq3_S
  | 22 => some iq2_S
  | 23 => some iq4_XS
  | 24 => some i8
  | 25 => some i16
  | 26 => some i32
  | 27 => some i64
  | 28 => some f64
  | 29 => some iq1_M
  | 30 => some bf16
  | 39 => some mxfp4
  | _ => none

end TensorType

/-- `TensorType.BlockSize` -/
def blockSize (kind : ℕ) : ℕ :=
  match TensorType.ofKind kind with
  | some .f32 | some .f16 | some .i8 | some .i16 | some .i32 | some .i64 | some .f64
  | some .bf16 => 1
  | some .q4_0 | some .q4_1 | some .q5_0 | some .q5_1 | some .q8_0 | some .q8_1 | some .iq4_NL
  | some .q4_2 | some .mxfp4 => 32
  | _ => 256

/-- `TensorType.TypeSize` -/
def typeSize (kind : ℕ) : ℕ :=
  match TensorType.ofKind kind with
  | some .f32 => 4
  | some .f16 => 2
  | some .q4_0 => 2 + blockSize kind / 2
  | some .q4_1 => 2 + 2 + blockSize kind / 2
  | some .q5_0 => 2 + 4 + blockSize kind / 2
  | some .q5_1 => 2 + 2 + 4 + blockSize kind / 2
  | some .q8_0 => 2 + blockSize kind
  | some .q8_1 => 2 + 2 + blockSize kind
  | some .q2_K => blockSize kind / 16 + blockSize kind / 4 + 2 + 2
  | some .q3_K => blockSize kind / 8 + blockSize kind / 4 + 12 + 2
  | some .q4_K => 2 + 2 + 12 + blockSize kind / 2
  | some .q5_K => 2 + 2 + 12 + blockSize kind / 8 + blockSize kind / 2
  | some .q6_K => blockSize kind / 2 + blockSize kind / 4 + blockSize kind / 16 + 2
  | some .q8_K => 4 + blockSize kind + 2 * blockSize kind / 16
  | some .iq2_XXS => 2 + 2 * blockSize kind / 8
  | some .iq2_XS => 2 + 2 * blockSize kind / 8 + blockSize kind / 32
  | some .iq3_XXS => 2 + blockSize kind / 4 + blockSize kind / 8
  | some .iq1_S => 2 + blockSize kind / 8 + blockSize kind / 16
  | some .iq4_NL => 2 + blockSize kind / 2
  | some .iq3_S => 2 + blockSize kind / 4 + blockSize kind / 8 + blockSize kind / 32 + 4
  | some .iq2_S => 2 + blockSize kind / 4 + blockSize kind / 16
  | some .iq4_XS => 2 + 2 + blockSize kind / 2 + blockSize kind / 64
  | some .i8 => 1
  | some .i16 => 2
  | some .i32 => 4
  | some .i64 => 8
  | some .f64 => 8
  | some .iq1_M => blockSize kind / 8 + blockSize kind / 16 + blockSize kind / 32
  | some .bf16 => 2
  | some .q4_2 | some .mxfp4 => 1 + blockSize kind / 2
  | none => 0

namespace Tensor

/-- `Elements`, with the overflow of `uint64`. -/
def elements (t : Tensor) : ℕ := t.shape.foldl (fun count n => count * n % 2 ^ 64) 1

/-- `Size` -/
def size (t : Tensor) : ℕ := t.elements * typeSize t.kind % 2 ^ 64 / blockSize t.kind

end Tensor

end Ollama.Ggml
