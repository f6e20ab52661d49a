import Ollama.Ggml.Tensors

/-!
# Quantization: model of `server/quantization.go`

`quantize` with the types that `newType` chooses, and what a `quantizer` writes. The conversion of
data to floats and `ggml_quantize_chunk` are parameters with their documented sizes. The file type
that is put into the key-values is read by no function here.
-/

namespace Ollama.Server.Quantization

open List Lib.Binary Ggml

/-! ## §1  Types -/

/-- The file types that `ParseFileType` gives. -/
inductive FileType
  | F32 | F16 | Q8_0 | Q4_K_S | Q4_K_M | BF16
  deriving DecidableEq

def FileType.ToTensorType : FileType → TensorType
  | F32 => .f32
  | F16 => .f16
  | Q8_0 => .q8_0
  | Q4_K_S | Q4_K_M => .q4_K
  | BF16 => .bf16

def IsQuantized (kind : ℕ) : Prop :=
  kind ≠ TensorType.f32.kind ∧ kind ≠ TensorType.f16.kind ∧ kind ≠ TensorType.bf16.kind

instance : DecidablePred IsQuantized := fun _ => inferInstanceAs (Decidable (_ ∧ _))

def contains (name : Bytes) (sub : String) : Bool := decide (ascii sub <:+: name)

def useMoreBits (iLayer nLayers : ℕ) : Bool :=
  iLayer < nLayers / 8 || 7 * nLayers / 8 ≤ iLayer || (iLayer - nLayers / 8) % 3 = 2

structure QuantizeState where
  nAttnV : ℕ
  nFfnDown : ℕ
  iAttnV : ℕ
  iFfnDown : ℕ
  hasOutput : Bool

/-- The cases of `getTensorNewType`. -/
inductive Pattern
  | output | attnV | attnK | ffnDown | attnOutput | attnQkv | other
  deriving DecidableEq

def pattern (hasOutput : Bool) (name : Bytes) : Pattern :=
  if name = ascii "output.weight" ∨ name = ascii "output_norm.weight" ∨
      (!hasOutput ∧ name = ascii "token_embd.weight") then .output
  else if contains name "attn_v.weight" then .attnV
  else if contains name "attn_k.weight" then .attnK
  else if contains name "ffn_down" then .ffnDown
  else if contains name "attn_output.weight" then .attnOutput
  else if contains name "attn_qkv.weight" then .attnQkv
  else .other

/-- The type that the case of a name asks for. -/
def preferred (nExperts : ℕ) (qs : QuantizeState) (newType : TensorType) (nx : ℕ)
    (ftype : FileType) : Pattern → TensorType
  | .output =>
      if nx % blockSize newType.kind ≠ 0 then .q8_0
      else if newType ≠ .q8_0 then .q6_K
      else newType
  | .attnV =>
      let newType :=
        if ftype = .Q4_K_M ∧ useMoreBits qs.iAttnV qs.nAttnV then .q6_K
        else if ftype = .Q4_K_S ∧ qs.iAttnV < 4 then .q5_K
        else newType
      if nExperts = 8 then .q8_0 else newType
  | .attnK => if nExperts = 8 then .q8_0 else newType
  | .ffnDown =>
      if ftype = .Q4_K_M then
        if useMoreBits qs.iFfnDown qs.nFfnDown then .q6_K else newType
      else if ftype = .Q4_K_S ∧ qs.iFfnDown < qs.nFfnDown / 8 then .q5_K
      else newType
  | .attnOutput =>
      if nExperts = 8 ∧ (ftype = .Q4_K_S ∨ ftype = .Q4_K_M) then .q5_K else newType
  | .attnQkv => if ftype = .Q4_K_M then .q5_K else newType
  | .other => newType

def fallbackType : TensorType → TensorType
  | .q4_K => .q5_0
  | .q5_K => .q5_1
  | .q6_K => .q8_0
  | ty => ty

def fallback (nx : ℕ) (newType : TensorType) : TensorType :=
  if IsQuantized newType.kind ∧ nx % blockSize newType.kind ≠ 0 then
    let newType := fallbackType newType
    if nx % blockSize newType.kind ≠ 0 then .f16 else newType
  else newType

def getTensorNewType (nExperts : ℕ) (qs : QuantizeState) (newType : TensorType) (name : Bytes)
    (nx : ℕ) (ftype : FileType) : TensorType × QuantizeState :=
  let p := pattern qs.hasOutput name
  (fallback nx (preferred nExperts qs newType nx ftype p),
    match p with
    | .attnV => { qs with iAttnV := qs.iAttnV + 1 }
    | .ffnDown => { qs with iFfnDown := qs.iFfnDown + 1 }
    | _ => qs)

/-- What `newType` asks of a tensor before it chooses a type. -/
def quantizable (t : Tensor) : Bool :=
  decide (ascii "weight" <:+ t.name) && (!contains t.name "v." || contains t.name "_v.") &&
    2 ≤ t.shape.length &&
    !(["mm.", "_norm.weight", "ffn_gate_inp.weight", "ssm_conv1d.weight", "time_mix_first.weight",
      "time_mix_w1.weight", "time_mix_w2.weight", "time_mix_decay_w1.weight",
      "time_mix_decay_w2.weight", "time_mix_lerp_fused.weight", "attn_rel_b.weight",
      "per_layer_token_embd.weight"].any (contains t.name)) &&
    t.name ≠ ascii "position_embd.weight" && t.name ≠ ascii "token_types.weight"

def Tensor.nx (t : Tensor) : ℕ := t.shape.headD 0

/-- `newType`, with the kind of the type. -/
def newType (nExperts : ℕ) (ftype : FileType) (qs : QuantizeState) (t : Tensor) :
    ℕ × QuantizeState :=
  if quantizable t then
    let r := getTensorNewType nExperts qs ftype.ToTensorType t.name (Tensor.nx t) ftype
    (r.1.kind, r.2)
  else (t.kind, qs)

/-! ## §2  `quantize` -/

def dot : Byte := 46

def join (parts : List Bytes) : Bytes := [dot].intercalate parts

/-- The layer of a tensor and its name in the layer. -/
def layerOf (name : Bytes) : Bytes × Bytes :=
  let parts := name.splitOn dot
  let n :=
    match parts.findIdx? (fun s => s = ascii "blk" ∨ s = ascii "mm") with
    | some index => if index + 2 < parts.length then index + 2 else 1
    | none => 1
  (join (parts.take n), join (parts.drop n))

/-- `GroupLayers`; the last tensor with a layer and a name counts. -/
def groupLayers (ts : List Tensor) : Finmap fun _ : Bytes × Bytes => Tensor :=
  ts.foldl (fun layers t => layers.insert (layerOf t.name) t) ∅

def isAttnV (name : Bytes) : Bool :=
  contains name "attn_v.weight" || contains name "attn_qkv.weight" ||
    contains name "attn_kv_b.weight"

/-- The layers that hold a tensor which satisfies `p`. -/
def tensorsWhere (ts : List Tensor) (p : Bytes → Bool) : Finset (Bytes × Bytes) :=
  (groupLayers ts).keys.filter fun k => ((groupLayers ts).lookup k).any fun t => p t.name

def quantizeState (ts : List Tensor) : QuantizeState where
  nAttnV := (tensorsWhere ts isAttnV).card
  nFfnDown := (((groupLayers ts).keys.image Prod.fst).filter (ascii "blk." <+: ·)).card
  iAttnV := 0
  iFfnDown := 0
  hasOutput := (tensorsWhere ts fun name =>
    !isAttnV name && name = ascii "output.weight").Nonempty

def retype (t : Tensor) (kind : ℕ) : Tensor :=
  { name := t.name, shape := t.shape, kind := kind, offset := 0 }

def outputTensors (nExperts : ℕ) (ftype : FileType) : QuantizeState → List Tensor → List Tensor
  | _, [] => []
  | qs, t :: ts =>
      let r := newType nExperts ftype qs t
      retype t r.1 :: outputTensors nExperts ftype r.2 ts

/-- A model with `F32` and `F16` tensors whose data are in its file. -/
structure Model where
  file : Bytes
  /-- `Tensors().Offset` -/
  offset : ℕ
  kv : KV
  tensors : List Tensor
  float : ∀ t ∈ tensors, t.kind = TensorType.f32.kind ∨ t.kind = TensorType.f16.kind
  inFile : ∀ t ∈ tensors, offset + t.offset + t.size ≤ file.length

/-- `KV.Architecture` -/
def Architecture (kv : KV) : Bytes :=
  match kv.lookup architectureKey with
  | some (.string s) => s
  | _ => ascii "unknown"

/-- `max(1, kv.Uint("expert_count", 0))` -/
def Model.nExperts (m : Model) : ℕ :=
  match m.kv.lookup (Architecture m.kv ++ ascii ".expert_count") with
  | some (.scalar .uint32 v) => max 1 v.val
  | _ => 1

def Model.qs (m : Model) : QuantizeState := quantizeState m.tensors

def quantize (m : Model) (ftype : FileType) : List Tensor :=
  outputTensors m.nExperts ftype m.qs m.tensors

/-! ## §3  Writing -/

/-- The conversions outside the program: `n` floats of data of a kind, and the chunk of `nrows`
rows in the blocks of a kind. -/
structure Codec (F : Type) where
  f32s : ℕ → Bytes → ℕ → List F
  quantizeChunk : ℕ → List F → (nrows nPerRow : ℕ) → Bytes
  length_f32s : ∀ kind data n, (f32s kind data n).length = n
  length_chunk : ∀ kind f32s nrows nPerRow, blockSize kind ∣ nPerRow →
    (quantizeChunk kind f32s nrows nPerRow).length =
      typeSize kind * nPerRow / blockSize kind * nrows

/-- The longest slice that `make` gives. -/
def maxAlloc : ℕ := 2 ^ 48

variable {F : Type} (c : Codec F)

/-- `Quantize`; `none` when the buffer cannot be made or the floats are read beyond their end. -/
def Quantize (kind : ℕ) (f32s : List F) (shape : List ℕ) : Option Bytes :=
  let nPerRow := shape.headD 0
  let nrows := shape.getD 1 1
  let shape2 := shape.getD 2 1
  let matrix := nPerRow * nrows
  if f32s.length * 4 ≤ maxAlloc ∧ matrix * shape2 ≤ f32s.length then
    some ((range shape2).flatMap fun i03 =>
      c.quantizeChunk kind (f32s.drop (i03 * matrix)) nrows nPerRow)
  else none

/-- `quantizer.WriteTo`; `none` when it panics. -/
def writeTo (m : Model) (src dst : Tensor) : Option Bytes :=
  let data := (m.file.drop (m.offset + src.offset)).take src.size
  if src.kind = dst.kind then some data
  -- the address of the first byte is taken
  else if data = [] then none
  else Quantize c dst.kind (c.f32s src.kind data src.elements) src.shape

/-! ## §4  The types of a tensor -/

variable {nExperts nx : ℕ} {ftype : FileType} {qs : QuantizeState} {t : Tensor} {ty : TensorType}

def moreBits (ftype : FileType) (qs : QuantizeState) (i : ℕ) : Pattern → Bool
  | .attnV => ftype = .Q4_K_M && useMoreBits i qs.nAttnV || ftype = .Q4_K_S && i < 4
  | .ffnDown =>
      ftype = .Q4_K_M && useMoreBits i qs.nFfnDown || ftype = .Q4_K_S && i < qs.nFfnDown / 8
  | _ => false

/-- The kind of a tensor with `i` counted tensors of its case before it. -/
def kindAt (nExperts : ℕ) (ftype : FileType) (qs : QuantizeState) (t : Tensor) (i : ℕ) : ℕ :=
  (newType nExperts ftype { qs with iAttnV := i, iFfnDown := i } t).1

def Raised (nExperts : ℕ) (p : Pattern) : Prop :=
  p = .output ∨ nExperts = 8 ∧ (p = .attnV ∨ p = .attnK)

instance {p : Pattern} : Decidable (Raised nExperts p) := inferInstanceAs (Decidable (_ ∨ _))

abbrev FileType.Blocks (ftype : FileType) : Prop := IsQuantized ftype.ToTensorType.kind

def Blocked (ty : TensorType) : Prop := ty = .q4_K ∨ ty = .q5_K ∨ ty = .q6_K ∨ ty = .q8_0

instance : DecidablePred Blocked := fun _ => inferInstanceAs (Decidable (_ ∨ _))

theorem preferred_blocked {p : Pattern} (h : ftype.Blocks ∨ Raised nExperts p) :
    Blocked (preferred nExperts qs ftype.ToTensorType nx ftype p) := by
  have hbase (hp : ¬ Raised nExperts p) : Blocked ftype.ToTensorType := by
    have hblocks := h.resolve_right hp
    revert hblocks
    cases ftype <;> decide
  cases p with
  | output =>
    simp only [preferred]
    split_ifs with _ hq8
    · decide
    · decide
    · rw [not_not.mp hq8]
      decide
  | attnV =>
    simp only [preferred]
    split_ifs with hexperts
    · decide
    · decide
    · decide
    · exact hbase (by simp [Raised, hexperts])
  | attnK =>
    simp only [preferred]
    split_ifs with hexperts
    · decide
    · exact hbase (by simp [Raised, hexperts])
  | ffnDown =>
    simp only [preferred]
    split_ifs
    · decide
    · exact hbase (by simp [Raised])
    · decide
    · exact hbase (by simp [Raised])
  | attnOutput =>
    simp only [preferred]
    split_ifs
    · decide
    · exact hbase (by simp [Raised])
  | attnQkv =>
    simp only [preferred]
    split_ifs
    · decide
    · exact hbase (by simp [Raised])
  | other => exact hbase (by simp [Raised])

theorem preferred_float {p : Pattern} (h : ¬ (ftype.Blocks ∨ Raised nExperts p)) :
    preferred nExperts qs ftype.ToTensorType nx ftype p = ftype.ToTensorType := by
  obtain ⟨hblocks, hraised⟩ := not_or.mp h
  have hS : ftype ≠ .Q4_K_S := by
    rintro rfl
    exact hblocks (by decide)
  have hM : ftype ≠ .Q4_K_M := by
    rintro rfl
    exact hblocks (by decide)
  cases p <;> simp_all [preferred, Raised]

theorem fallback_float (h : ¬ IsQuantized ty.kind) : fallback nx ty = ty := by
  unfold fallback
  rw [if_neg fun h' => h h'.1]

/-- The blocks of the types that are asked for, and of those with smaller blocks. -/
theorem Blocked.sizes (h : Blocked ty) :
    32 ∣ blockSize ty.kind ∧ blockSize (fallbackType ty).kind = 32 ∧
      IsQuantized ty.kind ∧ IsQuantized (fallbackType ty).kind := by
  rcases h with rfl | rfl | rfl | rfl <;> decide

/-- A type in blocks becomes one in blocks exactly when the row is divisible by 32. -/
theorem fallback_blocked (h : Blocked ty) : fallback nx ty =
      if nx % 32 ≠ 0 then .f16 else if nx % blockSize ty.kind ≠ 0 then fallbackType ty else ty := by
  obtain ⟨h32, hsmall, hquantized, -⟩ := h.sizes
  have hdvd : nx % blockSize ty.kind = 0 → nx % 32 = 0 := fun hmod =>
    Nat.mod_eq_zero_of_dvd (h32.trans (Nat.dvd_of_mod_eq_zero hmod))
  simp only [fallback, hsmall]
  split_ifs <;> simp_all

/-- The row is divisible by the block size of the type that is taken. -/
theorem blockSize_fallback (h : IsQuantized ty.kind → Blocked ty) :
    blockSize (fallback nx ty).kind ∣ nx := by
  by_cases hty : IsQuantized ty.kind
  · obtain ⟨-, hsmall, -⟩ := (h hty).sizes
    rw [fallback_blocked (h hty)]
    split_ifs with h32 hmod
    · exact one_dvd nx
    · rw [hsmall]
      exact Nat.dvd_of_mod_eq_zero (not_not.mp h32)
    · exact Nat.dvd_of_mod_eq_zero (not_not.mp hmod)
  · have hone : blockSize ty.kind = 1 := by
      revert hty
      cases ty <;> decide
    rw [fallback_float hty, hone]
    exact one_dvd nx

theorem kindAt_of_quantizable (h : quantizable t) (i : ℕ) :
    kindAt nExperts ftype qs t i = (fallback (Tensor.nx t) (preferred nExperts
      { qs with iAttnV := i, iFfnDown := i } ftype.ToTensorType (Tensor.nx t) ftype
      (pattern qs.hasOutput t.name))).kind := by
  simp [kindAt, newType, h, getTensorNewType]

variable (nExperts ftype qs) in
/-- The kinds that a tensor can get. -/
theorem kindAt_cases (h : quantizable t) (i : ℕ) :
    let p := pattern qs.hasOutput t.name
    blockSize (kindAt nExperts ftype qs t i) ∣ Tensor.nx t ∧
      (ftype.Blocks ∨ Raised nExperts p → Tensor.nx t % 32 = 0 →
        IsQuantized (kindAt nExperts ftype qs t i)) ∧
      (ftype.Blocks ∨ Raised nExperts p → Tensor.nx t % 32 ≠ 0 →
        kindAt nExperts ftype qs t i = TensorType.f16.kind) ∧
      (¬ (ftype.Blocks ∨ Raised nExperts p) →
        kindAt nExperts ftype qs t i = ftype.ToTensorType.kind) := by
  intro p
  rw [kindAt_of_quantizable h]
  by_cases hblocks : ftype.Blocks ∨ Raised nExperts p
  · have hpreferred : Blocked (preferred nExperts { qs with iAttnV := i, iFfnDown := i }
      ftype.ToTensorType (Tensor.nx t) ftype p) := preferred_blocked hblocks
    refine ⟨blockSize_fallback fun _ => hpreferred, fun _ h32 => ?_, fun _ h32 => ?_,
      fun hfloat => absurd hblocks hfloat⟩
    · obtain ⟨-, -, hquantized, hsmall⟩ := hpreferred.sizes
      rw [fallback_blocked hpreferred, if_neg (by simpa using h32)]
      split_ifs
      · exact hsmall
      · exact hquantized
    · rw [fallback_blocked hpreferred, if_pos h32]
  · rw [preferred_float hblocks]
    have hfloat : ¬ IsQuantized ftype.ToTensorType.kind := fun h => hblocks (.inl h)
    exact ⟨blockSize_fallback fun h => absurd h hfloat, fun h => absurd h hblocks,
      fun h => absurd h hblocks, fun _ => by rw [fallback_float hfloat]⟩

def FileType.bigger (ftype : FileType) : TensorType := if ftype = .Q4_K_M then .q6_K else .q5_K

theorem preferred_attnV (i : ℕ) :
    preferred nExperts { qs with iAttnV := i, iFfnDown := i } ty nx ftype .attnV =
      if nExperts = 8 then .q8_0 else if moreBits ftype qs i .attnV then ftype.bigger else ty := by
  cases ftype <;> simp [preferred, moreBits, FileType.bigger]

theorem preferred_ffnDown (i : ℕ) :
    preferred nExperts { qs with iAttnV := i, iFfnDown := i } ty nx ftype .ffnDown =
      if moreBits ftype qs i .ffnDown then ftype.bigger else ty := by
  cases ftype <;> simp [preferred, moreBits, FileType.bigger]

theorem moreBits_ftype {p : Pattern} {i : ℕ} (h : moreBits ftype qs i p = true) :
    ftype.ToTensorType = .q4_K := by
  cases ftype with
  | Q4_K_S => rfl
  | Q4_K_M => rfl
  | _ => cases p <;> simp [moreBits] at h

variable (ftype) in
theorem fallback_bigger_ne (h : nx % 32 = 0) :
    (fallback nx ftype.bigger).kind ≠ (fallback nx .q4_K).kind := by
  have hbigger : ftype.bigger = .q5_K ∨ ftype.bigger = .q6_K := by
    cases ftype <;> decide
  have hmod : ¬ nx % 32 ≠ 0 := not_not.mpr h
  rw [fallback_blocked (.inl rfl), if_neg hmod,
    fallback_blocked (.inr (hbigger.imp_right .inl)), if_neg hmod]
  rcases hbigger with hty | hty <;> rw [hty]
  · split_ifs <;> decide
  · split_ifs <;> decide

/-- Types that differ in their bits stay different unless the row is not divisible by 32. -/
theorem fallback_bits_iff {p : Pattern} (i j : ℕ) :
    (fallback nx (if moreBits ftype qs i p then ftype.bigger else ftype.ToTensorType)).kind =
        (fallback nx (if moreBits ftype qs j p then ftype.bigger else ftype.ToTensorType)).kind ↔
      moreBits ftype qs i p = moreBits ftype qs j p ∨ nx % 32 ≠ 0 := by
  have hsome {b : TensorType} (hb : Blocked b) (h32 : nx % 32 ≠ 0) :
      fallback nx b = .f16 := by rw [fallback_blocked hb, if_pos h32]
  have hbigger : Blocked ftype.bigger := by cases ftype <;> decide
  cases hi : moreBits ftype qs i p <;> cases hj : moreBits ftype qs j p
  · simp
  · have hty := moreBits_ftype hj
    by_cases h32 : nx % 32 = 0
    · simpa [h32, hty] using (fallback_bigger_ne ftype h32).symm
    · simp [h32, hty, hsome hbigger h32, hsome (.inl rfl) h32]
  · have hty := moreBits_ftype hi
    by_cases h32 : nx % 32 = 0
    · simpa [h32, hty] using fallback_bigger_ne ftype h32
    · simp [h32, hty, hsome hbigger h32, hsome (.inl rfl) h32]
  · simp

/-- **The place of a tensor matters** only where the bits of its case differ. -/
theorem kindAt_eq_iff (h : quantizable t) (i j : ℕ) :
    let p := pattern qs.hasOutput t.name
    kindAt nExperts ftype qs t i = kindAt nExperts ftype qs t j ↔
      moreBits ftype qs i p = moreBits ftype qs j p ∨ Tensor.nx t % 32 ≠ 0 ∨
        p = .attnV ∧ nExperts = 8 := by
  intro p
  rw [kindAt_of_quantizable h, kindAt_of_quantizable h]
  change (fallback _ (preferred _ _ _ _ _ p)).kind = (fallback _ (preferred _ _ _ _ _ p)).kind ↔ _
  cases p with
  | attnV =>
    rw [preferred_attnV, preferred_attnV]
    by_cases hexperts : nExperts = 8
    · simp [hexperts]
    · simp [hexperts, fallback_bits_iff]
  | ffnDown =>
    rw [preferred_ffnDown, preferred_ffnDown, fallback_bits_iff]
    simp
  | _ => exact iff_of_true rfl (.inl rfl)

/-! ## §5  The order of the tensors -/

def ofCase (hasOutput : Bool) (p : Pattern) (t : Tensor) : Bool :=
  quantizable t && pattern hasOutput t.name = p

/-- The number of tensors of the case of `t`. -/
def index (qs : QuantizeState) (t : Tensor) (ts : List Tensor) : ℕ :=
  ts.countP (ofCase qs.hasOutput (pattern qs.hasOutput t.name))

variable (nExperts ftype qs) in
/-- The kind of a tensor is that at the numbers of tensors before it. -/
theorem mem_zip_counters (ts : List Tensor) (t o : Tensor) (i j : ℕ) :
    (t, o) ∈ ts.zip (outputTensors nExperts ftype { qs with iAttnV := i, iFfnDown := j } ts) ↔
      ∃ a b, ts = a ++ t :: b ∧ o = retype t (newType nExperts ftype
          { qs with iAttnV := i + a.countP (ofCase qs.hasOutput .attnV),
                    iFfnDown := j + a.countP (ofCase qs.hasOutput .ffnDown) } t).1 := by
  induction ts generalizing i j with
  | nil => simp
  | cons u ts ih =>
    have hstep : (newType nExperts ftype { qs with iAttnV := i, iFfnDown := j } u).2 =
        { qs with iAttnV := i + [u].countP (ofCase qs.hasOutput .attnV),
                  iFfnDown := j + [u].countP (ofCase qs.hasOutput .ffnDown) } := by
      by_cases hu : quantizable u
      · simp only [newType, hu, if_true, getTensorNewType, ofCase, countP_singleton, Bool.true_and]
        cases pattern qs.hasOutput u.name <;> simp
      · simp [newType, hu, ofCase]
    have hcount (q : Tensor → Bool) (a : List Tensor) :
        (u :: a).countP q = [u].countP q + a.countP q := by
      rw [← singleton_append, countP_append]
    rw [outputTensors, zip_cons_cons, mem_cons, hstep, ih]
    constructor
    · rintro (heq | ⟨a, b, rfl, rfl⟩)
      · obtain ⟨rfl, rfl⟩ := Prod.mk.inj heq
        exact ⟨[], ts, rfl, by simp⟩
      · exact ⟨u :: a, b, rfl, by simp only [hcount _ a, Nat.add_assoc]⟩
    rintro ⟨a, b, hab, rfl⟩
    cases a with
    | nil =>
      obtain ⟨rfl, rfl⟩ := cons.inj hab
      exact .inl (by simp)
    | cons v a =>
      obtain ⟨rfl, rfl⟩ := cons.inj hab
      exact .inr ⟨a, b, rfl, by simp only [hcount _ a, Nat.add_assoc]⟩

/-- Only the counter of its own case matters to a tensor. -/
theorem newType_counters (i j : ℕ) :
    (newType nExperts ftype { qs with iAttnV := i, iFfnDown := j } t).1 =
      kindAt nExperts ftype qs t (if pattern qs.hasOutput t.name = .ffnDown then j else i) := by
  by_cases h : quantizable t
  · simp only [kindAt, newType, h, if_true, getTensorNewType]
    cases pattern qs.hasOutput t.name <;> rfl
  · simp [kindAt, newType, h]

/-- The kind of a tensor is that at its index among the tensors of its case. -/
theorem mem_zip_outputTensors {ts : List Tensor} {o : Tensor} (hattn : qs.iAttnV = 0)
    (hffn : qs.iFfnDown = 0) : (t, o) ∈ ts.zip (outputTensors nExperts ftype qs ts) ↔
      ∃ a b, ts = a ++ t :: b ∧ o = retype t (kindAt nExperts ftype qs t (index qs t a)) := by
  have hkind (a : List Tensor) : (newType nExperts ftype { qs with
      iAttnV := qs.iAttnV + a.countP (ofCase qs.hasOutput .attnV),
      iFfnDown := qs.iFfnDown + a.countP (ofCase qs.hasOutput .ffnDown) } t).1 =
      kindAt nExperts ftype qs t (index qs t a) := by
    rw [newType_counters, hattn, hffn, Nat.zero_add, Nat.zero_add, index]
    by_cases h : quantizable t
    · simp only [kindAt_of_quantizable h]
      cases pattern qs.hasOutput t.name <;> rfl
    · simp [kindAt, newType, h]
  simpa only [hkind] using mem_zip_counters nExperts ftype qs ts t o qs.iAttnV qs.iFfnDown

/-! The state built up does not depend on the order. -/

theorem lookup_groupLayers (ts : List Tensor) (k : Bytes × Bytes) :
    (groupLayers ts).lookup k = ts.reverse.find? fun t => layerOf t.name = k := by
  induction ts using List.reverseRecOn with
  | nil => rfl
  | append_singleton ts t ih =>
    have hsnoc : groupLayers (ts ++ [t]) = (groupLayers ts).insert (layerOf t.name) t := by
      rw [groupLayers, foldl_append]
      rfl
    rw [hsnoc, reverse_append, reverse_singleton, singleton_append, find?_cons]
    by_cases hk : layerOf t.name = k
    · simp [hk]
    · rw [Finmap.lookup_insert_of_ne _ (Ne.symm hk)]
      simpa [hk] using ih

theorem mem_keys_groupLayers {ts : List Tensor} {k : Bytes × Bytes} :
    k ∈ (groupLayers ts).keys ↔ ∃ t ∈ ts, layerOf t.name = k := by
  rw [Finmap.mem_keys, Finmap.mem_iff, lookup_groupLayers]
  simp [← Option.isSome_iff_exists]

/-- A name is made of its layer and what follows it, unless it has no dot. -/
theorem layerOf_cases (name : Bytes) : name = (layerOf name).1 ++ dot :: (layerOf name).2 ∨
      name = (layerOf name).1 ∧ (layerOf name).2 = [] ∧ dot ∉ name := by
  obtain ⟨n, hn, hlayer⟩ : ∃ n, (n = 1 ∨ 1 < n ∧ n < (name.splitOn dot).length) ∧
      layerOf name = (join ((name.splitOn dot).take n), join ((name.splitOn dot).drop n)) := by
    refine ⟨_, ?_, rfl⟩
    split
    · split_ifs with hlt
      · exact .inr ⟨Nat.le_add_left 2 _, hlt⟩
      · exact .inl rfl
    · exact .inl rfl
  have hjoin : join (name.splitOn dot) = name := intercalate_splitOn dot
  rw [hlayer]
  by_cases hdrop : (name.splitOn dot).drop n = []
  · refine .inr ⟨?_, by rw [hdrop]; rfl, fun hdot => ?_⟩
    · rw [take_of_length_le (drop_eq_nil_iff.mp hdrop), hjoin]
    obtain ⟨l, l', rfl⟩ := append_of_mem hdot
    have hle := drop_eq_nil_iff.mp hdrop
    have hl := length_pos_iff.mpr (splitOn_ne_nil dot l)
    have hl' := length_pos_iff.mpr (splitOn_ne_nil dot l')
    rw [splitOn_append_cons_self, length_append] at hle hn
    omega
  · refine .inl ?_
    have happend (l l' : List Bytes) (hl : l ≠ []) (hl' : l' ≠ []) :
        join (l ++ l') = join l ++ dot :: join l' := by
      induction l with
      | nil => exact absurd rfl hl
      | cons x l ih =>
        cases l with
        | nil => simp [join, intercalate_cons_of_ne_nil hl']
        | cons y l => simpa [join] using ih (cons_ne_nil y l)
    have hne : (name.splitOn dot).take n ≠ [] := by
      rw [ne_eq, take_eq_nil_iff, not_or]
      exact ⟨by omega, splitOn_ne_nil dot name⟩
    rw [← happend _ _ hne hdrop, take_append_drop, hjoin]

/-- Tensors with one place in the layers have names that agree on what holds only of names with
something after a dot. -/
theorem layerOf_congr {p : Bytes → Bool} {n n' : Bytes} (h : layerOf n = layerOf n')
    (hp : ∀ l, dot ∉ l → p l = false ∧ p (l ++ [dot]) = false) : p n = p n' := by
  rcases layerOf_cases n with hn | ⟨hn, hnil, hdot⟩ <;>
    rcases layerOf_cases n' with hn' | ⟨hn', hnil', hdot'⟩
  · rw [hn, hn', h]
  · rw [(hp n' hdot').1, hn, h, hnil', ← hn', (hp n' hdot').2]
  · rw [(hp n hdot).1, hn', ← h, hnil, ← hn, (hp n hdot).2]
  · rw [hn, hn', h]

theorem contains_dot (sub : String) (hdot : dot ∈ ascii sub)
    (hlast : (ascii sub).getLast? ≠ some dot) {l : Bytes} (hl : dot ∉ l) :
    contains l sub = false ∧ contains (l ++ [dot]) sub = false := by
  have hinfix : ¬ ascii sub <:+: l := fun h => hl (h.subset hdot)
  refine ⟨decide_eq_false hinfix, decide_eq_false fun h => ?_⟩
  rcases infix_concat_iff.mp h with hsuffix | h
  · rcases suffix_concat_iff.mp hsuffix with hnil | ⟨s, hs, -⟩
    · rw [hnil] at hdot
      cases hdot
    · exact hlast (by rw [hs, getLast?_concat])
  · exact hinfix h

theorem mem_tensorsWhere {ts : List Tensor} {p : Bytes → Bool}
    (hp : ∀ l, dot ∉ l → p l = false ∧ p (l ++ [dot]) = false) {k : Bytes × Bytes} :
    k ∈ tensorsWhere ts p ↔ ∃ t ∈ ts, layerOf t.name = k ∧ p t.name = true := by
  rw [tensorsWhere, Finset.mem_filter, mem_keys_groupLayers, lookup_groupLayers]
  constructor
  · rintro ⟨-, h⟩
    obtain ⟨t, ht, hpt⟩ := (Option.any_eq_true _ _).mp h
    exact ⟨t, mem_reverse.mp (mem_of_find?_eq_some ht), by simpa using find?_some ht, hpt⟩
  rintro ⟨t, ht, hk, hpt⟩
  refine ⟨⟨t, ht, hk⟩, (Option.any_eq_true _ _).mpr ?_⟩
  obtain ⟨u, hu⟩ := Option.isSome_iff_exists.mp
    (find?_isSome.mpr (⟨t, mem_reverse.mpr ht, decide_eq_true hk⟩ :
      ∃ t ∈ ts.reverse, decide (layerOf t.name = k) = true))
  have huk : layerOf u.name = k := by simpa using find?_some hu
  exact ⟨u, hu, layerOf_congr (huk.trans hk.symm) hp ▸ hpt⟩

theorem isAttnV_dot {l : Bytes} (hl : dot ∉ l) :
    isAttnV l = false ∧ isAttnV (l ++ [dot]) = false := by
  simp only [isAttnV, Bool.or_eq_false_iff]
  have hv := contains_dot "attn_v.weight" (by decide) (by decide) hl
  have hqkv := contains_dot "attn_qkv.weight" (by decide) (by decide) hl
  have hkvb := contains_dot "attn_kv_b.weight" (by decide) (by decide) hl
  exact ⟨⟨⟨hv.1, hqkv.1⟩, hkvb.1⟩, ⟨hv.2, hqkv.2⟩, hkvb.2⟩

/-- **The state built up does not depend on the order.** -/
theorem quantizeState_perm {ts ts' : List Tensor} (h : ts.Perm ts') :
    quantizeState ts = quantizeState ts' := by
  have houtput (l : Bytes) (hl : dot ∉ l) : (!isAttnV l && l = ascii "output.weight") = false ∧
        (!isAttnV (l ++ [dot]) && l ++ [dot] = ascii "output.weight") = false := by
    have hne : l ≠ ascii "output.weight" := by
      rintro rfl
      exact hl (by decide)
    have hne' : l ++ [dot] ≠ ascii "output.weight" := by
      intro heq
      have hlast := congrArg getLast? heq
      rw [getLast?_concat] at hlast
      exact absurd hlast (by decide)
    simp [hne, hne']
  have hwhere {p : Bytes → Bool} (hp : ∀ l, dot ∉ l → p l = false ∧ p (l ++ [dot]) = false) :
      tensorsWhere ts p = tensorsWhere ts' p := by
    ext k
    simp only [mem_tensorsWhere hp, h.mem_iff]
  have hkeys : (groupLayers ts).keys = (groupLayers ts').keys := by
    ext k
    simp only [mem_keys_groupLayers, h.mem_iff]
  rw [quantizeState, quantizeState, hkeys, hwhere fun _ => isAttnV_dot, hwhere houtput]

theorem exists_split_countP {α : Type} (q : α → Bool) (l : List α) {i : ℕ} (hi : i ≤ l.countP q) :
    ∃ x y, l = x ++ y ∧ x.countP q = i := by
  induction l generalizing i with
  | nil => exact ⟨[], [], rfl, (Nat.le_zero.mp hi).symm⟩
  | cons u l ih =>
    by_cases hzero : i = 0
    · exact ⟨[], u :: l, rfl, hzero.symm⟩
    obtain ⟨x, y, rfl, hx⟩ := ih (i := i - [u].countP q) (by
      rw [← singleton_append, countP_append] at hi
      omega)
    refine ⟨u :: x, y, rfl, ?_⟩
    have hle : [u].countP q ≤ 1 := countP_le_length
    rw [← singleton_append, countP_append]
    omega

variable (nExperts ftype qs) in
/-- **The order does not matter** exactly when every tensor has one kind at all indices of its
case. -/
theorem order_iff (ts : List Tensor) (hattn : qs.iAttnV = 0) (hffn : qs.iFfnDown = 0) :
    (∀ ts' : List Tensor, ts'.Perm ts → ∀ t o o' : Tensor,
        (t, o) ∈ ts.zip (outputTensors nExperts ftype qs ts) →
        (t, o') ∈ ts'.zip (outputTensors nExperts ftype qs ts') → o.kind = o'.kind) ↔
      ∀ t ∈ ts, quantizable t = true → ∀ i < index qs t ts, ∀ j < index qs t ts,
        kindAt nExperts ftype qs t i = kindAt nExperts ftype qs t j := by
  have hcount {t : Tensor} (a b : List Tensor) (hq : quantizable t) :
      index qs t (a ++ t :: b) = index qs t a + (index qs t b + 1) := by
    rw [index, countP_append, countP_cons_of_pos (by simp [ofCase, hq])]
    rfl
  constructor
  · intro h t ht hq
    obtain ⟨a, b, rfl⟩ := append_of_mem ht
    -- the tensor can be put at every index
    have hplace (i : ℕ) (hi : i < index qs t (a ++ t :: b)) :
        kindAt nExperts ftype qs t (index qs t a) = kindAt nExperts ftype qs t i := by
      obtain ⟨x, y, hxy, hx⟩ := exists_split_countP (ofCase qs.hasOutput
        (pattern qs.hasOutput t.name)) (a ++ b) (i := i) (by
          rw [hcount a b hq] at hi
          rw [countP_append]
          exact Nat.le_of_lt_succ hi)
      have hperm : (x ++ t :: y).Perm (a ++ t :: b) :=
        perm_middle.trans (((Perm.of_eq hxy).symm.cons t).trans perm_middle.symm)
      have hkind := h _ hperm t _ _ ((mem_zip_outputTensors hattn hffn).mpr ⟨a, b, rfl, rfl⟩)
        ((mem_zip_outputTensors hattn hffn).mpr ⟨x, y, rfl, rfl⟩)
      rw [← hx]
      exact hkind
    exact fun i hi j hj => (hplace i hi).symm.trans (hplace j hj)
  · intro h ts' hperm t o o' ho ho'
    obtain ⟨a, b, hts, rfl⟩ := (mem_zip_outputTensors hattn hffn).mp ho
    obtain ⟨a', b', hts', rfl⟩ := (mem_zip_outputTensors hattn hffn).mp ho'
    by_cases hq : quantizable t
    · have hindex : index qs t ts' = index qs t ts := hperm.countP_eq _
      refine h t (hts ▸ mem_append_right _ mem_cons_self) hq _ ?_ _ ?_
      · rw [hts, hcount a b hq]
        omega
      · rw [← hindex, hts', hcount a' b' hq]
        omega
    · simp [retype, kindAt, newType, hq]

/-! ## §6  The bytes of a tensor -/

/-- The elements that `Elements` counts are those of the first three dimensions, there is one, and
the floats fit in a slice. -/
def Tensor.Whole (t : Tensor) : Prop :=
  0 < t.elements ∧ t.elements * 4 ≤ maxAlloc ∧
    Tensor.nx t * t.shape.getD 1 1 * t.shape.getD 2 1 = t.elements

theorem typeSize_bounds (ty : TensorType) : 0 < typeSize ty.kind ∧ typeSize ty.kind ≤ 1024 ∧
    0 < blockSize ty.kind ∧ blockSize ty.kind ∣ 2 ^ 64 := by
  cases ty <;> decide

theorem dvd_elements {d : ℕ} (hd : d ∣ 2 ^ 64) (hnx : d ∣ Tensor.nx t) (hne : t.shape ≠ []) :
    d ∣ t.elements := by
  have hfold (ns : List ℕ) (count : ℕ) (h : d ∣ count) :
      d ∣ ns.foldl (fun count n => count * n % 2 ^ 64) count := by
    induction ns generalizing count with
    | nil => exact h
    | cons n ns ih => exact ih _ ((Nat.dvd_mod_iff hd).mpr (h.mul_right n))
  unfold Tensor.elements
  unfold Tensor.nx at hnx
  cases hshape : t.shape with
  | nil => exact absurd hshape hne
  | cons n ns =>
    rw [hshape, headD_cons] at hnx
    exact hfold ns _ ((Nat.dvd_mod_iff hd).mpr (hnx.mul_left 1))

theorem quantizable_shape (h : quantizable t) : t.shape ≠ [] := by
  rintro hnil
  simp [quantizable, hnil] at h

variable {F : Type} {c : Codec F} {m : Model}

/-- **The bytes of a re-typed tensor are those announced** exactly when the tensor is whole. -/
theorem writeTo_announced_iff (ht : t ∈ m.tensors) (hne : t.shape ≠ [])
    (hty : ty.kind ≠ t.kind) (hdvd : blockSize ty.kind ∣ Tensor.nx t) :
    (∃ data, writeTo c m t (retype t ty.kind) = some data ∧
      data.length = (retype t ty.kind).size) ↔ Tensor.Whole t := by
  obtain ⟨htype, hle, hblock, hpow⟩ := typeSize_bounds ty
  obtain ⟨q, hq⟩ := hdvd
  obtain ⟨e, he⟩ := dvd_elements hpow ⟨q, hq⟩ hne
  have hdata : ((m.file.drop (m.offset + t.offset)).take t.size).length = t.size := by
    have hin := m.inFile t ht
    rw [length_take, length_drop]
    omega
  have hsize (hE : t.elements * 4 ≤ maxAlloc) : t.size = 0 ↔ t.elements = 0 := by
    unfold maxAlloc at hE
    unfold Tensor.size
    rcases m.float t ht with h | h
    · rw [h, show typeSize TensorType.f32.kind = 4 from rfl,
        show blockSize TensorType.f32.kind = 1 from rfl]
      omega
    · rw [h, show typeSize TensorType.f16.kind = 2 from rfl,
        show blockSize TensorType.f16.kind = 1 from rfl]
      omega
  have hosize (hE : t.elements * 4 ≤ maxAlloc) : (retype t ty.kind).size =
      e * typeSize ty.kind := by
    have hlt : t.elements * typeSize ty.kind < 2 ^ 64 := by
      unfold maxAlloc at hE
      calc t.elements * typeSize ty.kind ≤ 2 ^ 46 * 1024 := Nat.mul_le_mul (by omega) hle
        _ < 2 ^ 64 := by decide
    show t.elements * typeSize ty.kind % 2 ^ 64 / blockSize ty.kind = _
    rw [Nat.mod_eq_of_lt hlt, he, Nat.mul_assoc, Nat.mul_div_cancel_left _ hblock]
  -- the elements of the matrices that are converted
  have hmatrix : Tensor.nx t * t.shape.getD 1 1 * t.shape.getD 2 1 =
      blockSize ty.kind * (q * t.shape.getD 1 1 * t.shape.getD 2 1) := by
    rw [hq, Nat.mul_assoc, Nat.mul_assoc, Nat.mul_assoc q]
  have hlength (f32s : List F) : ((range (t.shape.getD 2 1)).flatMap fun i03 =>
      c.quantizeChunk ty.kind (f32s.drop (i03 * (Tensor.nx t * t.shape.getD 1 1)))
        (t.shape.getD 1 1) (Tensor.nx t)).length =
      q * t.shape.getD 1 1 * t.shape.getD 2 1 * typeSize ty.kind := by
    have hrow : typeSize ty.kind * Tensor.nx t / blockSize ty.kind = typeSize ty.kind * q := by
      rw [hq, Nat.mul_left_comm, Nat.mul_div_cancel_left _ hblock]
    simp only [length_flatMap, c.length_chunk _ _ _ _ ⟨q, hq⟩, hrow, map_const', length_range,
      sum_replicate_nat]
    ring
  have hwrite : writeTo c m t (retype t ty.kind) =
      if t.size = 0 then none
      else if t.elements * 4 ≤ maxAlloc ∧
          Tensor.nx t * t.shape.getD 1 1 * t.shape.getD 2 1 ≤ t.elements then
        some ((range (t.shape.getD 2 1)).flatMap fun i03 => c.quantizeChunk ty.kind
          ((c.f32s t.kind ((m.file.drop (m.offset + t.offset)).take t.size) t.elements).drop
            (i03 * (Tensor.nx t * t.shape.getD 1 1))) (t.shape.getD 1 1) (Tensor.nx t))
      else none := by
    simp only [writeTo, retype, if_neg hty.symm, ← length_eq_zero_iff, hdata, Quantize,
      c.length_f32s, Tensor.nx]
    congr
  rw [hwrite]
  constructor
  · rintro ⟨data, hsome, hlen⟩
    split_ifs at hsome with hzero hfits
    rw [hosize hfits.1, ← Option.some.inj hsome, hlength] at hlen
    refine ⟨Nat.pos_of_ne_zero fun h => hzero ((hsize hfits.1).mpr h), hfits.1, ?_⟩
    rw [hmatrix, Nat.eq_of_mul_eq_mul_right htype hlen, ← he]
  · rintro ⟨hpos, hE, hP⟩
    rw [if_neg fun h => hpos.ne' ((hsize hE).mp h), if_pos ⟨hE, hP.le⟩]
    refine ⟨_, rfl, ?_⟩
    rw [hmatrix, he] at hP
    rw [hlength, hosize hE, Nat.eq_of_mul_eq_mul_left hblock hP]

/-! ## §7  Valid and stable types -/

def Retyped (m : Model) (ftype : FileType) (t : Tensor) : Prop :=
  quantizable t = true ∧
    if ftype.Blocks ∨ Raised m.nExperts (pattern m.qs.hasOutput t.name) then
      Tensor.nx t % 32 = 0 ∨ t.kind ≠ TensorType.f16.kind
    else t.kind ≠ ftype.ToTensorType.kind

theorem kindAt_ne_iff (ht : t ∈ m.tensors) (i : ℕ) :
    kindAt m.nExperts ftype m.qs t i ≠ t.kind ↔ Retyped m ftype t := by
  unfold Retyped
  by_cases hq : quantizable t
  · obtain ⟨-, hblocks, hf16, hfloat⟩ := kindAt_cases m.nExperts ftype m.qs hq i
    have hkind (h : IsQuantized (kindAt m.nExperts ftype m.qs t i)) :
        kindAt m.nExperts ftype m.qs t i ≠ t.kind := by
      rcases m.float t ht with ht | ht
      · exact ht ▸ h.1
      · exact ht ▸ h.2.1
    simp only [hq, true_and]
    split_ifs with hcase
    · by_cases h32 : Tensor.nx t % 32 = 0
      · exact iff_of_true (hkind (hblocks hcase h32)) (.inl h32)
      · rw [hf16 hcase h32, or_iff_right h32, ne_comm]
    · rw [hfloat hcase, ne_comm]
  · simp [kindAt, newType, hq]

/-- What is asked of the tensors that `quantize` builds. -/
structure Valid (c : Codec F) (m : Model) (ftype : FileType) : Prop where
  named : (quantize m ftype).map (fun o => (o.name, o.shape)) =
    m.tensors.map fun t => (t.name, t.shape)
  unchanged : ∀ p ∈ m.tensors.zip (quantize m ftype), p.2.kind = p.1.kind →
    writeTo c m p.1 p.2 = some ((m.file.drop (m.offset + p.1.offset)).take p.1.size)
  aligned : ∀ p ∈ m.tensors.zip (quantize m ftype), p.2.kind ≠ p.1.kind →
    blockSize p.2.kind ∣ Tensor.nx p.1
  announced : ∀ p ∈ m.tensors.zip (quantize m ftype), p.2.kind ≠ p.1.kind →
    ∃ data, writeTo c m p.1 p.2 = some data ∧ data.length = p.2.size
  float : ¬ ftype.Blocks → ∀ p ∈ m.tensors.zip (quantize m ftype), p.2.kind ≠ p.1.kind →
    ¬ IsQuantized p.2.kind
  stable : ∀ m' : Model, m'.kv = m.kv → m'.tensors.Perm m.tensors → ∀ t o o' : Tensor,
    (t, o) ∈ m.tensors.zip (quantize m ftype) → (t, o') ∈ m'.tensors.zip (quantize m' ftype) →
    o.kind = o'.kind

structure Regular (m : Model) (ftype : FileType) : Prop where
  whole : ∀ t ∈ m.tensors, Retyped m ftype t → Tensor.Whole t
  unraised : ¬ ftype.Blocks → ∀ t ∈ m.tensors, quantizable t = true →
    Raised m.nExperts (pattern m.qs.hasOutput t.name) →
    Tensor.nx t % 32 ≠ 0
  uniform : ∀ t ∈ m.tensors, quantizable t = true →
    let p := pattern m.qs.hasOutput t.name
    let count := index m.qs t m.tensors
    (∀ i < count, ∀ j < count, moreBits ftype m.qs i p = moreBits ftype m.qs j p) ∨
    Tensor.nx t % 32 ≠ 0 ∨ p = .attnV ∧ m.nExperts = 8

theorem map_outputTensors (ts : List Tensor) :
    (outputTensors nExperts ftype qs ts).map (fun o => (o.name, o.shape)) =
      ts.map fun t => (t.name, t.shape) := by
  induction ts generalizing qs with
  | nil => rfl
  | cons t ts ih => rw [outputTensors, map_cons, map_cons, ih, retype]

/-- A type that is not in blocks stays so unless it is raised. -/
theorem retyped_unraised (h : quantizable t = true) (hfloat : ¬ ftype.Blocks)
    (hun : Raised nExperts (pattern qs.hasOutput t.name) → Tensor.nx t % 32 ≠ 0) (i : ℕ) :
    ¬ IsQuantized (kindAt nExperts ftype qs t i) := by
  obtain ⟨-, -, hf16, hkeep⟩ := kindAt_cases nExperts ftype qs h i
  by_cases hraised : Raised nExperts (pattern qs.hasOutput t.name)
  · rw [hf16 (.inr hraised) (hun hraised)]
    decide
  · rw [hkeep (not_or.mpr ⟨hfloat, hraised⟩)]
    exact hfloat

/-- **Types are valid and stable** exactly when every re-typed tensor is whole, a float target
meets no tensor that is raised, and the bits of a case do not change with the index. -/
theorem quantize_valid_iff (c : Codec F) (m : Model) (ftype : FileType) :
    Valid c m ftype ↔ Regular m ftype := by
  have hout {t : Tensor} (ht : t ∈ m.tensors) : ∃ i,
      (t, retype t (kindAt m.nExperts ftype m.qs t i)) ∈ m.tensors.zip (quantize m ftype) := by
    obtain ⟨a, b, hts⟩ := append_of_mem ht
    exact ⟨_, (mem_zip_outputTensors rfl rfl).mpr ⟨a, b, hts, rfl⟩⟩
  have hzip {p : Tensor × Tensor} (hp : p ∈ m.tensors.zip (quantize m ftype)) :
      p.1 ∈ m.tensors ∧ ∃ i, p.2 = retype p.1 (kindAt m.nExperts ftype m.qs p.1 i) := by
    obtain ⟨a, b, hts, ho⟩ := (mem_zip_outputTensors rfl rfl).mp hp
    exact ⟨hts ▸ mem_append_right _ mem_cons_self, _, ho⟩
  have hannounced {t : Tensor} (ht : t ∈ m.tensors) {i : ℕ}
      (hne : kindAt m.nExperts ftype m.qs t i ≠ t.kind) :
      (∃ data, writeTo c m t (retype t (kindAt m.nExperts ftype m.qs t i)) =
          some data ∧ data.length = (retype t (kindAt m.nExperts ftype m.qs t i)).size) ↔
        Tensor.Whole t := by
    have hq := ((kindAt_ne_iff ht i).mp hne).1
    have hdvd := (kindAt_cases m.nExperts ftype m.qs hq i).1
    rw [kindAt_of_quantizable hq] at hne hdvd ⊢
    exact writeTo_announced_iff ht (quantizable_shape hq) hne hdvd
  constructor
  · intro h
    refine ⟨fun t ht hre => ?_, fun hfloat t ht hq hraised h32 => ?_, fun t ht hq => ?_⟩
    · obtain ⟨i, hi⟩ := hout ht
      have hne := (kindAt_ne_iff ht i).mpr hre
      exact (hannounced ht hne).mp (h.announced _ hi hne)
    · obtain ⟨i, hi⟩ := hout ht
      have hquant := (kindAt_cases m.nExperts ftype m.qs hq i).2.1 (.inr hraised) h32
      have hne := (kindAt_ne_iff ht i).mpr
        (⟨hq, by rw [if_pos (.inr hraised)]; exact .inl h32⟩ : Retyped m ftype t)
      exact h.float hfloat _ hi hne hquant
    · intro p count
      have hall := (order_iff m.nExperts ftype m.qs m.tensors rfl rfl).mp
        fun ts' hperm t o o' ho ho' =>
          let m' : Model := { m with
            tensors := ts'
            float := fun t ht => m.float t (hperm.mem_iff.mp ht)
            inFile := fun t ht => m.inFile t (hperm.mem_iff.mp ht) }
          have hqs : m'.qs = m.qs := quantizeState_perm hperm
          h.stable m' rfl hperm t o o' ho (by rwa [quantize, hqs])
      by_cases hexempt : Tensor.nx t % 32 ≠ 0 ∨ p = .attnV ∧ m.nExperts = 8
      · exact .inr hexempt
      · exact .inl fun i hi j hj =>
          ((kindAt_eq_iff hq i j).mp (hall t ht hq i hi j hj)).resolve_right hexempt
  · intro h
    refine ⟨map_outputTensors _, fun p hp heq => ?_, fun p hp hne => ?_, fun p hp hne => ?_,
      fun hfloat p hp hne => ?_, fun m' hkv hperm t o o' ho ho' => ?_⟩
    · rw [writeTo, if_pos heq.symm]
    · obtain ⟨ht, i, ho⟩ := hzip hp
      rw [ho] at hne ⊢
      exact (kindAt_cases _ _ _ ((kindAt_ne_iff ht i).mp hne).1 i).1
    · obtain ⟨ht, i, ho⟩ := hzip hp
      rw [ho] at hne ⊢
      exact (hannounced ht hne).mpr (h.whole _ ht ((kindAt_ne_iff ht i).mp hne))
    · obtain ⟨ht, i, ho⟩ := hzip hp
      rw [ho] at hne ⊢
      have hq := ((kindAt_ne_iff ht i).mp hne).1
      exact retyped_unraised hq hfloat (h.unraised hfloat _ ht hq) i
    have hall := (order_iff m.nExperts ftype m.qs m.tensors rfl rfl).mpr
      fun t ht hq i hi j hj => (kindAt_eq_iff hq i j).mpr
        ((h.uniform t ht hq).imp_left fun hbits => hbits i hi j hj)
    have hexperts : m'.nExperts = m.nExperts := by rw [Model.nExperts, hkv, Model.nExperts]
    have hqs : m'.qs = m.qs := quantizeState_perm hperm
    rw [quantize, hexperts, hqs] at ho'
    exact hall m'.tensors hperm t o o' ho ho'

def outputWeight : Tensor :=
  { name := ascii "output.weight", kind := 0, offset := 0, shape := [256, 2] }

def oneOutput : Model where
  file := replicate 2048 0
  offset := 0
  kv := ∅
  tensors := [outputWeight]
  float := by simp [outputWeight, TensorType.kind]
  inFile := by
    simp only [mem_singleton, forall_eq, length_replicate]
    decide

def zeros : Codec ℕ where
  f32s _ _ n := replicate n 0
  quantizeChunk kind _ nrows nPerRow :=
    replicate (typeSize kind * nPerRow / blockSize kind * nrows) 0
  length_f32s _ _ _ := length_replicate
  length_chunk _ _ _ _ _ := length_replicate

/-- With the target `F16`, the output tensor is quantized to `Q6_K`. -/
theorem output_quantized : ¬ Valid zeros oneOutput .F16 := by
  intro h
  have hmem : (outputWeight, retype outputWeight TensorType.q6_K.kind) ∈
      oneOutput.tensors.zip (quantize oneOutput .F16) := by
    exact mem_cons_self
  exact h.float (by decide) _ hmem (by decide) (by decide)

end Ollama.Server.Quantization
