import Ollama.Gguf.File
import Ollama.Ggml.RoundTrip

/-!
# The two GGUF readers

What `fs/ggml` decodes, `fs/gguf` reads.
-/

namespace Ollama.Gguf

open Lib Lib.Binary Reader

/-! ## §1  Values -/

section Follows

variable {llm : Ggml.ContainerGGUF} (hllm : llm.byteOrder = .littleEndian ∧ llm.version ≠ 1)
include hllm

theorem follows_readUint (w : ℕ) : Follows (readUint w) (Ggml.readUint llm w) := by
  unfold readUint Ggml.readUint
  rw [hllm.1]
  exact (follows_take _ _ w).bind fun bs => follows_pure _

theorem follows_read (t : Ggml.Scalar) : Follows (read t) (Ggml.readGGUF llm t) :=
  (follows_readUint hllm t.size).bind fun _ => follows_pure _

omit hllm in
/-- A slice that the one makes, the other makes. -/
theorem makeSlice_ok {maxAlloc size : ℕ} {n : ℤ} {bs rest : Bytes} {u : Unit}
    (h : Ggml.makeSlice maxAlloc size n bs = .ok u rest) :
    0 ≤ n ∧ rest = bs ∧ makeSlice maxAlloc size n.toNat = pure () := by
  unfold Ggml.makeSlice at h
  split at h
  · cases h
  rename_i hsize
  cases h
  push Not at hsize
  obtain ⟨hn, hle⟩ := hsize
  obtain ⟨m, rfl⟩ := Int.eq_ofNat_of_zero_le hn
  refine ⟨hn, rfl, if_neg (not_lt.mpr ?_)⟩
  exact_mod_cast hle

omit hllm in
theorem toNat_toInt64 {n : ℕ} (hn : n < 2 ^ 64) (h : 0 ≤ toInt64 n) :
    (toInt64 n).toNat = n ∧ n < 2 ^ 63 := by
  have hlt : n < 2 ^ 63 := by
    by_contra hge
    have := (toInt64_neg hn).mpr (by omega)
    omega
  rw [toInt64_of_lt hlt, Int.toNat_natCast]
  exact ⟨rfl, hlt⟩

omit hllm in
theorem readFull_ok {n : ℕ} {bs taken rest : Bytes} (h : Ggml.readFull n bs = .ok taken rest) :
    bs = taken ++ rest ∧ taken.length = n := by
  unfold Ggml.readFull take at h
  split at h
  · next hle =>
    cases h
    exact ⟨(List.take_append_drop n bs).symm, List.length_take_of_le hle⟩
  · cases h

omit hllm in
theorem readUint_lt {w n : ℕ} {bs rest : Bytes} (h : Ggml.readUint llm w bs = .ok n rest) :
    n < 256 ^ w := by
  obtain ⟨taken, mid, htake, hok⟩ := bind_eq_ok.mp h
  cases hok
  have hlt := llm.byteOrder.value_lt taken
  rwa [(readFull_ok htake).2] at hlt

variable (hbts : Ggml.scratchLen ≤ llm.maxAlloc)
include hbts

theorem follows_readString : Follows (readString llm.maxAlloc) (Ggml.readGGUFString llm) := by
  intro bs s rest hok
  unfold Ggml.readGGUFString at hok
  rw [if_neg hllm.2] at hok
  obtain ⟨n, mid, hn, hok⟩ := bind_eq_ok.mp hok
  have hbound : n < 2 ^ 64 := lt_of_lt_of_eq (readUint_lt hn) (by norm_num)
  have hfull : Follows (readFull (toInt64 n).toNat) (Ggml.readFull (toInt64 n).toNat) :=
    follows_take _ _ _
  unfold readString
  rw [bind_ok (follows_readUint hllm 8 bs n mid hn)]
  split at hok
  · -- a string longer than the scratch buffer
    obtain ⟨u, mid', hmake, hread⟩ := bind_eq_ok.mp hok
    obtain ⟨hpos, rfl, hmake'⟩ := makeSlice_ok hmake
    obtain ⟨hnat, hlt⟩ := toNat_toInt64 hbound hpos
    rw [hnat] at hmake' hfull hread
    rw [if_neg (by omega), hmake', pure_bind]
    split
    · exact hfull _ _ _ hread
    · exact hfull _ _ _ hread
  · next hshort =>
    split at hok
    · cases hok
    rename_i hneg
    obtain ⟨hnat, hlt⟩ := toNat_toInt64 hbound (not_lt.mp hneg)
    rw [hnat] at hfull hok
    have hmake : makeSlice llm.maxAlloc 1 n = pure () := if_neg (by omega)
    rw [if_neg (by omega), hmake, pure_bind]
    split
    · exact hfull _ _ _ hok
    · exact hfull _ _ _ hok

variable (hkeep : llm.maxArraySize < 0)
include hkeep

omit hllm hbts in
theorem newArray_ok {elemSize : ℕ} {n : ℤ} {bs rest : Bytes} {keep : Bool}
    (h : Ggml.newArray llm elemSize n bs = .ok keep rest) :
    0 ≤ n ∧ rest = bs ∧ keep = true ∧ makeSlice llm.maxAlloc elemSize n.toNat = pure () := by
  unfold Ggml.newArray at h
  rw [if_pos (Or.inl hkeep)] at h
  obtain ⟨u, mid, hmake, hok⟩ := bind_eq_ok.mp h
  obtain ⟨hpos, rfl, hmake'⟩ := makeSlice_ok hmake
  cases hok
  exact ⟨hpos, rfl, rfl, hmake'⟩

theorem follows_readArray : Follows (readArray llm.maxAlloc) (Ggml.readGGUFArray llm) := by
  refine (follows_readUint hllm 4).bind fun t => ?_
  intro bs v rest hok
  obtain ⟨n, mid, hn, hok⟩ := bind_eq_ok.mp hok
  have hbound : n < 2 ^ 64 := lt_of_lt_of_eq (readUint_lt hn) (by norm_num)
  rw [bind_ok (follows_readUint hllm 8 bs n mid hn)]
  cases hscalar : Ggml.scalarOf t with
  | some t =>
    rw [hscalar] at hok
    obtain ⟨keep, mid', hnew, hok⟩ := bind_eq_ok.mp hok
    obtain ⟨hpos, rfl, rfl, hmake⟩ := newArray_ok hkeep hnew
    obtain ⟨hnat, -⟩ := toNat_toInt64 hbound hpos
    rw [hnat] at hmake hok
    have hdata : Follows (readArrayData llm.maxAlloc t n) (Ggml.readGGUFArrayData llm t n true) := by
      unfold readArrayData
      rw [hmake, pure_bind]
      exact ((follows_read hllm t).times n).bind fun vs => follows_pure _
    exact hdata _ _ _ hok
  | none =>
    rw [hscalar] at hok
    simp only at hok ⊢
    split at hok
    · next hstring =>
      rw [if_pos hstring]
      obtain ⟨keep, mid', hnew, hok⟩ := bind_eq_ok.mp hok
      obtain ⟨hpos, rfl, rfl, hmake⟩ := newArray_ok hkeep hnew
      obtain ⟨hnat, -⟩ := toNat_toInt64 hbound hpos
      rw [hnat] at hmake hok
      have hdata : Follows (readArrayString llm.maxAlloc n)
          (Ggml.readGGUFStringsData llm n true) := by
        unfold readArrayString
        rw [hmake, pure_bind]
        exact ((follows_readString hllm hbts).times n).bind fun vs => follows_pure _
      exact hdata _ _ _ hok
    · cases hok

theorem follows_readValue (t : ℕ) : Follows (readValue llm.maxAlloc t) (Ggml.readValue llm t) := by
  unfold readValue Ggml.readValue
  cases Ggml.scalarOf t with
  | some t => exact (follows_read hllm t).bind fun v => follows_pure _
  | none =>
    simp only
    split
    · exact (follows_readString hllm hbts).bind fun s => follows_pure _
    · split
      · exact follows_readArray hllm hbts hkeep
      · exact fun _ _ _ h => nomatch h

/-! ## §2  Key-values and tensors -/

omit hkeep in
theorem follows_readTensor : Follows (readTensor llm.maxAlloc) (Ggml.readTensor llm) := by
  have hwrap : ∀ {α : Type} {m' : Read α} {m : Ggml.Read α} (what : String),
      Follows m' m → Follows m' (Ggml.wrap what m) := by
    intro α m' m what h bs a rest hok
    refine h bs a rest ?_
    unfold Ggml.wrap at hok
    split at hok
    · cases hok
    · exact hok
  have hmake : ∀ dims : ℕ, Follows (makeSlice llm.maxAlloc 8 dims)
      (Ggml.makeSlice llm.maxAlloc 8 dims) := by
    intro dims bs u rest hok
    obtain ⟨-, rfl, hmake⟩ := makeSlice_ok hok
    rw [Int.toNat_natCast] at hmake
    rw [hmake]
    rfl
  refine (hwrap _ (follows_readString hllm hbts)).bind fun name => ?_
  refine (hwrap _ (follows_readUint hllm 4)).bind fun dims => ?_
  refine (hmake dims).bind fun _ => ?_
  refine (hwrap _ ((follows_readUint hllm 8).times dims)).bind fun shape => ?_
  refine (hwrap _ (follows_readUint hllm 4)).bind fun kind => ?_
  exact (hwrap _ (follows_readUint hllm 8)).bind fun offset => follows_pure _

omit hllm hbts hkeep in
theorem rest_ok {α : Type} {fn : Read α} {n : ℕ} {as : List α} {bs bs' : Bytes}
    (h : fn.times n bs = .ok as bs') : rest fn n bs = .ok (as, true) bs' := by
  induction n generalizing bs as with
  | zero =>
    cases h
    rfl
  | succ n ih =>
    obtain ⟨a, mid, ha, hok⟩ := bind_eq_ok.mp h
    obtain ⟨later, mid', hlater, hok⟩ := bind_eq_ok.mp hok
    cases hok
    unfold rest
    rw [ha]
    exact bind_ok (ih hlater)

/-- The map that is decoded has the key-values that are read, in their order. -/
theorem times_readKeyValue {n : ℕ} {kv kv' : Ggml.KV} {bs bs' : Bytes}
    (h : Ggml.readKVs llm n kv bs = .ok kv' bs') :
    ∃ keyValues, (readKeyValue llm.maxAlloc).times n bs = .ok keyValues bs' ∧
      kv' = keyValues.foldl (fun kv p => kv.insert p.key p.value) kv := by
  induction n generalizing kv bs with
  | zero =>
    cases h
    exact ⟨[], rfl, rfl⟩
  | succ n ih =>
    obtain ⟨kv₁, mid, hfirst, hlater⟩ := bind_eq_ok.mp h
    obtain ⟨k, mid₁, hk, hfirst⟩ := bind_eq_ok.mp hfirst
    obtain ⟨t, mid₂, ht, hfirst⟩ := bind_eq_ok.mp hfirst
    obtain ⟨v, mid₃, hv, hfirst⟩ := bind_eq_ok.mp hfirst
    cases hfirst
    obtain ⟨keyValues, htimes, hkv⟩ := ih hlater
    have hkeyValue : readKeyValue llm.maxAlloc bs = .ok ⟨k, v⟩ mid := by
      unfold readKeyValue
      rw [bind_ok (follows_readString hllm hbts _ _ _ hk),
        bind_ok (follows_readUint hllm 4 _ _ _ ht),
        bind_ok (follows_readValue hllm hbts hkeep t _ _ _ hv)]
      rfl
    refine ⟨⟨k, v⟩ :: keyValues, ?_, hkv⟩
    show (readKeyValue llm.maxAlloc >>= fun a => _) bs = _
    rw [bind_ok hkeyValue, bind_ok htimes]
    rfl

/-- A key-value that was written is read. -/
theorem reads_readKeyValue (hmax : llm.maxAlloc < 2 ^ 63) {k : Bytes} {v : Ggml.Value}
    (hk : k.length ≤ llm.maxAlloc) (hv : v.Stored llm.maxAlloc) :
    Reads (readKeyValue llm.maxAlloc) (Ggml.kvBytes k v) ⟨k, v⟩ := by
  have hall : readKeyValue llm.maxAlloc = (do
      let key ← readString llm.maxAlloc
      let value ← (do let t ← readUint 4; readValue llm.maxAlloc t)
      return ⟨key, value⟩) := by
    unfold readKeyValue
    simp only [bind_assoc]
  rw [hall]
  have hvalue : Follows (do let t ← readUint 4; readValue llm.maxAlloc t)
      (do let t ← Ggml.readUint llm 4; Ggml.readValue llm t) :=
    (follows_readUint hllm 4).bind fun t => follows_readValue hllm hbts hkeep t
  refine ((follows_readString hllm hbts).reads (Ggml.reads_string hllm hmax hk)).bind ?_
  exact (hvalue.reads (Ggml.reads_value hllm hkeep hmax hv)).map fun v => (⟨k, v⟩ : KeyValue)

end Follows

/-! ## §3  Sizes -/

theorem kind_of_ofKind {kind : ℕ} {type : Ggml.TensorType}
    (h : Ggml.TensorType.ofKind kind = some type) : kind = type.kind := by
  unfold Ggml.TensorType.ofKind at h
  split at h <;> first | cases h; rfl | cases h

theorem sizes_eq {kind : ℕ} (h4 : kind ≠ 4) (h39 : kind ≠ 39) :
    blockSize kind = Ggml.blockSize kind ∧ typeSize kind = Ggml.typeSize kind := by
  have hkind : Ggml.TensorType.ofKind kind ≠ some .q4_2 ∧
      Ggml.TensorType.ofKind kind ≠ some .mxfp4 :=
    ⟨fun h => h4 (kind_of_ofKind h), fun h => h39 (kind_of_ofKind h)⟩
  unfold typeSize Ggml.typeSize blockSize Ggml.blockSize
  generalize Ggml.TensorType.ofKind kind = type at hkind
  rcases type with _ | type
  · exact ⟨rfl, rfl⟩
  · cases type <;> first | exact ⟨rfl, rfl⟩ | exact absurd rfl hkind.1 | exact absurd rfl hkind.2

theorem blockSize_pow (kind : ℕ) : ∃ k < 53, Ggml.blockSize kind = 2 ^ k := by
  unfold Ggml.blockSize
  split <;> first | exact ⟨0, by decide, rfl⟩ | exact ⟨5, by decide, rfl⟩ | exact ⟨8, by decide, rfl⟩

theorem typeSize_lt (kind : ℕ) : Ggml.typeSize kind < 2 ^ 53 := by
  unfold Ggml.typeSize Ggml.blockSize
  generalize Ggml.TensorType.ofKind kind = type
  rcases type with _ | type
  · decide
  · cases type <;> decide

/-- The numbers of values: one is the other as a signed number. -/
theorem numValues_eq (t : Ggml.Tensor) : numValues t.shape = (t.elements : ℤ).bmod (2 ^ 64) := by
  have hfold : ∀ (shape : List ℕ) (items : ℤ) (count : ℕ), items = (count : ℤ).bmod (2 ^ 64) →
      shape.foldl (fun (numItems : ℤ) (dim : ℕ) =>
        (numItems * (dim : ℤ).bmod (2 ^ 64)).bmod (2 ^ 64)) items =
        ((shape.foldl (fun count n => count * n % 2 ^ 64) count : ℕ) : ℤ).bmod (2 ^ 64) := by
    intro shape
    induction shape with
    | nil => exact fun _ _ h => h
    | cons dim shape ih =>
      intro items count h
      refine ih _ _ ?_
      simp only
      rw [h, Int.bmod_mul_bmod, Int.mul_bmod_bmod]
      push_cast
      exact (Int.emod_bmod _ _).symm
  exact hfold t.shape 1 1 rfl

/-- Below 2^53 the bytes are counted alike. -/
theorem numBytes_eq {t : Ggml.Tensor} (h4 : t.kind ≠ 4) (h39 : t.kind ≠ 39)
    (hsmall : t.elements * Ggml.typeSize t.kind < 2 ^ 53) : numBytes t = t.size := by
  obtain ⟨hblock, htype⟩ := sizes_eq h4 h39
  obtain ⟨k, hk, hpow⟩ := blockSize_pow t.kind
  unfold numBytes Ggml.Tensor.size
  rw [hblock, htype, hpow, numValues_eq, Nat.mod_eq_of_lt (by omega)]
  rcases Nat.eq_zero_or_pos (Ggml.typeSize t.kind) with hzero | hpos
  · rw [hzero, Nat.mul_zero, Nat.zero_div]
    exact Double.toInt_mul_zero _ _
  have hn : t.elements < 2 ^ 53 := lt_of_le_of_lt (Nat.le_mul_of_pos_right _ hpos) hsmall
  have hvalues : (t.elements : ℤ).bmod (2 ^ 64) = t.elements :=
    Int.bmod_eq_of_le (by omega) (by omega)
  rw [hvalues]
  exact Double.toInt_mul_div hn (typeSize_lt t.kind) hk hsmall

/-! ## §4  Files -/

/-- What both readers report: the same key-values but for the number of elements, the same
tensors, their bytes below 2^53 but for the kinds of MXFP4, and where the data begins when the
alignment is 32. -/
structure Agree (f : File) (g : Ggml.Gguf) : Prop where
  decoded : g.kv = (f.keyValues.foldl (fun kv p => kv.insert p.key p.value) ∅ : Ggml.KV).insert
    Ggml.parameterCountKey (.scalar .uint64 (Ggml.Scalar.uint64.ofBits g.parameters))
  lookup : (f.keyValues.map KeyValue.key).Nodup → ∀ k, k ≠ Ggml.parameterCountKey →
    g.kv.lookup k = keyValue f.keyValues k
  tensors : f.tensors = g.tensors
  bytes : ∀ t ∈ g.tensors, t.kind ≠ 4 → t.kind ≠ 39 →
    t.elements * Ggml.typeSize t.kind < 2 ^ 53 → numBytes t = t.size
  dataStart : (f.keyValues.map KeyValue.key).Nodup → (∀ v, g.kv.lookup Ggml.alignmentKey = some v →
      v = .scalar .uint32 (Ggml.Scalar.uint32.ofBits 32)) → f.offset = g.tensorOffset

theorem lookup_insert_all {keyValues : List KeyValue} (h : (keyValues.map KeyValue.key).Nodup)
    (k : Bytes) : (keyValues.foldl (fun kv p => kv.insert p.key p.value) ∅ : Ggml.KV).lookup k =
      keyValue keyValues k := by
  have hpairs : (keyValues.foldl (fun kv p => kv.insert p.key p.value) ∅ : Ggml.KV) =
      (keyValues.map fun p => (p.key, p.value)).foldl (fun kv p => kv.insert p.1 p.2) ∅ := by
    rw [List.foldl_map]
  have hkeys : (keyValues.map fun p => (p.key, p.value)).map Prod.fst =
      keyValues.map KeyValue.key := by
    rw [List.map_map]
    rfl
  rw [hpairs, Ggml.lookup_foldl_insert (by rwa [hkeys]), List.find?_map]
  unfold keyValue
  have hcomp : ((fun p : Bytes × Ggml.Value => decide (p.1 = k)) ∘ fun p : KeyValue =>
      (p.key, p.value)) = fun p => decide (p.key = k) := rfl
  rw [hcomp]
  cases keyValues.find? fun p => decide (p.key = k) with
  | none => rfl
  | some p => rfl

/-- An alignment of 32 is read as that by both. -/
theorem alignment_eq {keyValues : List KeyValue} (h : (keyValues.map KeyValue.key).Nodup)
    {count : Ggml.Value}
    (halign : ∀ v, ((keyValues.foldl (fun kv p => kv.insert p.key p.value) ∅ : Ggml.KV).insert
      Ggml.parameterCountKey count).lookup Ggml.alignmentKey = some v →
        v = .scalar .uint32 (Ggml.Scalar.uint32.ofBits 32)) :
    alignment keyValues = 32 ∧
      Ggml.KV.alignment ((keyValues.foldl (fun kv p => kv.insert p.key p.value) ∅ : Ggml.KV).insert
        Ggml.parameterCountKey count) = 32 := by
  have hlookup : ((keyValues.foldl (fun kv p => kv.insert p.key p.value) ∅ : Ggml.KV).insert
      Ggml.parameterCountKey count).lookup Ggml.alignmentKey =
        keyValue keyValues Ggml.alignmentKey := by
    rw [Finmap.lookup_insert_of_ne _ (by decide), lookup_insert_all h]
  unfold alignment Ggml.KV.alignment
  rw [hlookup] at halign ⊢
  cases hv : keyValue keyValues Ggml.alignmentKey with
  | none => exact ⟨rfl, rfl⟩
  | some v =>
    obtain rfl := halign v hv
    exact ⟨rfl, rfl⟩

theorem ggufPadding_ok {offset align padding : ℤ} {bs rest : Bytes}
    (h : Ggml.ggufPadding offset align bs = .ok padding rest) :
    padding = Ggml.padding offset align ∧ rest = bs := by
  unfold Ggml.ggufPadding at h
  split at h
  · cases h
  · cases h
    exact ⟨rfl, rfl⟩

theorem seek_ok {pos n m : ℤ} {what : String} {bs rest : Bytes}
    (h : Ggml.wrap what (Ggml.seek pos n) bs = .ok m rest) : rest = bs := by
  unfold Ggml.wrap Ggml.seek at h
  split at h
  · cases h
  · split at h
    · cases h
    · cases h
      rfl

/-- Skipping the data takes no bytes of what is read. -/
theorem seekTensors_rest {alignment : ℕ} (ts : List Ggml.Tensor) (pos : ℤ) {pos' : ℤ}
    (bs : Bytes) {rest : Bytes} (h : Ggml.seekTensors alignment ts pos bs = .ok pos' rest) :
    rest = bs := by
  induction ts generalizing pos bs with
  | nil =>
    cases h
    rfl
  | cons t ts ih =>
    obtain ⟨padding, bs₁, hpadding, h⟩ := bind_eq_ok.mp h
    obtain ⟨pos₁, bs₂, hfirst, h⟩ := bind_eq_ok.mp h
    obtain ⟨pos₂, bs₃, hsecond, h⟩ := bind_eq_ok.mp h
    rw [ih _ _ h, seek_ok hsecond, seek_ok hfirst, (ggufPadding_ok hpadding).2]

variable {maxAlloc version : ℕ} {body tail : Bytes} {g : Ggml.Gguf}

/-- What `fs/ggml` decodes, of version 2 or later, `fs/gguf` reads to its end. -/
theorem openAll_of_decode (hbts : Ggml.scratchLen ≤ maxAlloc) (hversion : 2 ≤ version)
    (hlt : version < 2 ^ 32)
    (hok : Ggml.decode (-1) maxAlloc (Ggml.ascii "GGUF" ++ (toLE 4 version ++ body)) = .ok g tail) :
    ∃ f, openAll maxAlloc (Ggml.ascii "GGUF" ++ (toLE 4 version ++ body)) = .ok f tail ∧
      (∃ mid, (readKeyValue maxAlloc).times (ofLE ((body.drop 8).take 8)) (body.drop 16) =
        .ok f.keyValues mid) ∧ Agree f g := by
  generalize hfile : Ggml.ascii "GGUF" ++ (toLE 4 version ++ body) = file at hok ⊢
  have hmagic : Ggml.readFull 4 file = .ok (Ggml.ascii "GGUF") (toLE 4 version ++ body) := by
    rw [← hfile]
    exact take_append _ (by decide)
  have hbound : version < 256 ^ 4 := lt_of_lt_of_eq hlt (by norm_num)
  unfold Ggml.decode at hok
  rw [bind_ok hmagic, if_pos (by decide)] at hok
  unfold Ggml.decodeContainer at hok
  have hv : Ggml.readUint ⟨.littleEndian, 0, -1, maxAlloc⟩ 4 (toLE 4 version ++ body) =
      .ok version body := Ggml.reads_readUint ⟨rfl, Nat.zero_ne_one⟩ hbound body
  rw [bind_ok hv, if_neg (by omega)] at hok
  obtain ⟨counts, mid, hcounts, hok⟩ := bind_eq_ok.mp hok
  obtain ⟨hbody, hlen⟩ := readFull_ok hcounts
  have hnumTensor : readUint 8 body = .ok (ofLE (counts.take 8)) (counts.drop 8 ++ mid) := by
    have hsplit : counts ++ mid = counts.take 8 ++ (counts.drop 8 ++ mid) := by
      rw [← List.append_assoc, List.take_append_drop]
    rw [hbody, hsplit]
    exact bind_ok (take_append _ (by rw [List.length_take]; omega))
  have hnumKV : readUint 8 (counts.drop 8 ++ mid) = .ok (ofLE (counts.drop 8)) mid :=
    bind_ok (take_append _ (by rw [List.length_drop]; omega))
  obtain ⟨kv, mid₁, hkv, hok⟩ := bind_eq_ok.mp hok
  obtain ⟨ts, mid₂, hts, hok⟩ := bind_eq_ok.mp hok
  obtain ⟨offset, mid₃, hoffset, hok⟩ := bind_eq_ok.mp hok
  obtain ⟨padding, mid₄, hpadding, hok⟩ := bind_eq_ok.mp hok
  obtain ⟨position, mid₅, hseek, hok⟩ := bind_eq_ok.mp hok
  cases hok
  cases hoffset
  have hpad := ggufPadding_ok hpadding
  obtain ⟨rfl, rfl⟩ := hpad
  obtain rfl := seekTensors_rest _ _ _ hseek
  let llm : Ggml.ContainerGGUF := ⟨.littleEndian, version, -1, maxAlloc⟩
  have hllm : llm.byteOrder = .littleEndian ∧ llm.version ≠ 1 := ⟨rfl, by
    show version ≠ 1
    omega⟩
  have hkeep : llm.maxArraySize < 0 := show (-1 : ℤ) < 0 by decide
  let llm₀ : Ggml.ContainerGGUF := ⟨.littleEndian, 0, -1, maxAlloc⟩
  have hllm₀ : llm₀.byteOrder = .littleEndian ∧ llm₀.version ≠ 1 := ⟨rfl, Nat.zero_ne_one⟩
  have hversion' : readUint 4 (toLE 4 version ++ body) = .ok version body :=
    follows_readUint hllm₀ 4 _ _ _ hv
  obtain ⟨keyValues, hkeyValues, rfl⟩ := times_readKeyValue hllm hbts hkeep hkv
  have htensors := rest_ok ((follows_readTensor hllm hbts).times _ _ _ _ hts)
  refine ⟨⟨version, keyValues, ts, (file.length - tail.length : ℤ) +
    Ggml.padding (file.length - tail.length : ℤ) (alignment keyValues)⟩, ?_, ?_, ?_⟩
  · have hmagic' : readFull 4 file = .ok (Ggml.ascii "GGUF") (toLE 4 version ++ body) :=
      follows_take _ _ 4 _ _ _ hmagic
    unfold openAll
    rw [bind_ok hmagic', if_neg (by decide), bind_ok hversion', if_neg (by omega)]
    unfold readBody
    rw [bind_ok hnumTensor, bind_ok hnumKV]
    exact (bind_ok (rest_ok hkeyValues)).trans ((bind_ok htensors).trans rfl)
  · refine ⟨mid₁, ?_⟩
    have hcount : (body.drop 8).take 8 = counts.drop 8 := by
      rw [hbody, List.drop_append_of_le_length (by omega),
        List.take_left' (by rw [List.length_drop]; omega)]
    have hmid : body.drop 16 = mid := by
      rw [hbody, List.drop_left' hlen]
    rw [hcount, hmid]
    exact hkeyValues
  · refine ⟨rfl, fun hnodup k hk => ?_, rfl, fun t _ h4 h39 hsmall => numBytes_eq h4 h39 hsmall,
      fun hnodup halign => ?_⟩
    · rw [← lookup_insert_all hnodup k]
      exact Finmap.lookup_insert_of_ne _ hk
    · obtain ⟨hleft, hright⟩ := alignment_eq hnodup halign
      rw [hleft, hright]
      rfl

/-- The bytes before the data. -/
def header (version : ℕ) (pairs : List (Bytes × Ggml.Value)) (ts : List Ggml.Tensor) : Bytes :=
  Ggml.headerBytes version (pairs.map fun p => Ggml.kvBytes p.1 p.2) ts

/-- A file that is well formed: its key-values and tensors as they are in memory, distinct
keys, no alignment of 0, and an end below 2^63. -/
structure WellFormed (maxAlloc version : ℕ) (pairs : List (Bytes × Ggml.Value))
    (ts : List Ggml.Tensor) : Prop where
  stored : ∀ p ∈ pairs, p.1.length ≤ maxAlloc ∧ p.2.Stored maxAlloc
  distinct : (pairs.map Prod.fst).Nodup
  tensors : ∀ t ∈ ts, t.Stored maxAlloc ∧ t.offset < 2 ^ 64
  alignment : 0 < Ggml.KV.alignment (Ggml.decodedKV pairs ts)
  ends : Ggml.roundUp (Ggml.KV.alignment (Ggml.decodedKV pairs ts))
    (header version pairs ts).length + Ggml.dataSize (Ggml.KV.alignment (Ggml.decodedKV pairs ts)) ts < 2 ^ 63

variable {pairs : List (Bytes × Ggml.Value)} {ts : List Ggml.Tensor}

/-- Both readers accept a file that is well formed, and agree. -/
theorem WellFormed.agree (hbts : Ggml.scratchLen ≤ maxAlloc) (hmax : maxAlloc < 2 ^ 63)
    (hversion : 2 ≤ version) (hlt : version < 2 ^ 32) (h : WellFormed maxAlloc version pairs ts)
    (tail : Bytes) :
    ∃ g f, Ggml.decode (-1) maxAlloc (header version pairs ts ++ tail) = .ok g tail ∧
      openAll maxAlloc (header version pairs ts ++ tail) = .ok f tail ∧
      f.keyValues = pairs.map (fun p => ⟨p.1, p.2⟩) ∧ f.tensors = ts ∧ Agree f g := by
  have hcounts := Ggml.counts_le version pairs ts
  have hround := Ggml.le_roundUp (Ggml.KV.alignment (Ggml.decodedKV pairs ts))
    (header version pairs ts).length
  have hends := h.ends
  change ts.length + pairs.length ≤ (header version pairs ts).length at hcounts
  obtain ⟨pos, hdecode⟩ := Ggml.decode_headerBytes version hmax hlt (by omega) h.stored h.tensors
    h.alignment h.ends ⟨by omega, by omega⟩ tail
  have hmagic : toLE 4 Ggml.magicLE = Ggml.ascii "GGUF" := by decide
  have hfile : header version pairs ts ++ tail =
      Ggml.ascii "GGUF" ++ (toLE 4 version ++ (toLE 8 ts.length ++ (toLE 8 pairs.length ++
        ((pairs.flatMap fun p => Ggml.kvBytes p.1 p.2) ++
          (ts.flatMap Ggml.ggufWriteTensorInfo ++ tail))))) := by
    unfold header Ggml.headerBytes
    rw [hmagic, List.length_map, ← List.flatMap_def]
    simp only [List.append_assoc]
  change Ggml.decode (-1) maxAlloc (header version pairs ts ++ tail) = _ at hdecode
  rw [hfile] at hdecode ⊢
  obtain ⟨f, hopen, ⟨mid, hkeyValues⟩, hagree⟩ := openAll_of_decode hbts hversion hlt hdecode
  refine ⟨_, f, hdecode, hopen, ?_, hagree.tensors, hagree⟩
  let llm : Ggml.ContainerGGUF := ⟨.littleEndian, version, -1, maxAlloc⟩
  have hllm : llm.byteOrder = .littleEndian ∧ llm.version ≠ 1 := ⟨rfl, by
    show version ≠ 1
    omega⟩
  have hread : Reads ((readKeyValue maxAlloc).times pairs.length)
      (pairs.flatMap fun p => Ggml.kvBytes p.1 p.2) (pairs.map fun p => ⟨p.1, p.2⟩) := by
    have hall : Reads ((readKeyValue maxAlloc).times (pairs.map fun p => (⟨p.1, p.2⟩ : KeyValue)).length)
        ((pairs.map fun p => (⟨p.1, p.2⟩ : KeyValue)).flatMap fun p => Ggml.kvBytes p.key p.value)
        (pairs.map fun p => ⟨p.1, p.2⟩) := by
      refine Reads.times _ _ fun p hp => ?_
      obtain ⟨q, hq, rfl⟩ := List.mem_map.mp hp
      exact reads_readKeyValue hllm hbts (show (-1 : ℤ) < 0 by decide) hmax (h.stored q hq).1
        (h.stored q hq).2
    rwa [List.length_map, List.flatMap_map] at hall
  have hcount : ofLE (toLE 8 pairs.length) = pairs.length := ofLE_toLE_of_lt (by omega)
  have hdrop : ∀ a b c : Bytes, a.length = 8 → b.length = 8 →
      ((a ++ (b ++ c)).drop 8).take 8 = b ∧ (a ++ (b ++ c)).drop 16 = c := by
    intro a b c ha hb
    refine ⟨by rw [List.drop_left' ha, List.take_left' hb], ?_⟩
    rw [← List.append_assoc, List.drop_left' (by rw [List.length_append, ha, hb])]
  obtain ⟨htake, hlater⟩ := hdrop (toLE 8 ts.length) (toLE 8 pairs.length)
    ((pairs.flatMap fun p => Ggml.kvBytes p.1 p.2) ++ (ts.flatMap Ggml.ggufWriteTensorInfo ++ tail))
    (length_toLE _ _) (length_toLE _ _)
  rw [htake, hlater, hcount, hread] at hkeyValues
  injection hkeyValues with hkeys
  exact hkeys.symm

/-- `fs/ggml` decodes only files that begin with the magic, in one of the two byte orders. -/
theorem magic_of_decode {maxArraySize : ℤ} {file : Bytes}
    (h : Ggml.decode maxArraySize maxAlloc file = .ok g tail) :
    file.take 4 = Ggml.ascii "GGUF" ∨ file.take 4 = Ggml.ascii "FUGG" := by
  obtain ⟨magic, mid, hmagic, hok⟩ := bind_eq_ok.mp h
  obtain ⟨rfl, hlen⟩ := readFull_ok hmagic
  have hbytes : toLE 4 (ofLE magic) = magic := by
    rw [← hlen]
    exact toLE_ofLE magic
  rw [List.take_left' hlen]
  split at hok
  · next hle =>
    rw [hle] at hbytes
    exact Or.inl (hbytes.symm.trans (by decide))
  split at hok
  · next hbe =>
    rw [hbe] at hbytes
    exact Or.inr (hbytes.symm.trans (by decide))
  · cases hok

variable (maxAlloc) in
/-- **Two readers.** A file that is well formed is read by both, and both report the same; the
same holds of every file of version 2 or later that `fs/ggml` decodes. -/
theorem readers_agree (hbts : Ggml.scratchLen ≤ maxAlloc) (hmax : maxAlloc < 2 ^ 63) :
    (∀ version pairs ts tail, 2 ≤ version → version < 2 ^ 32 → WellFormed maxAlloc version pairs ts →
      ∃ g f, Ggml.decode (-1) maxAlloc (header version pairs ts ++ tail) = .ok g tail ∧
        openAll maxAlloc (header version pairs ts ++ tail) = .ok f tail ∧
        f.keyValues = pairs.map (fun p => ⟨p.1, p.2⟩) ∧ f.tensors = ts ∧ Agree f g) ∧
    (∀ version body g tail, 2 ≤ version → version < 2 ^ 32 →
      Ggml.decode (-1) maxAlloc (Ggml.ascii "GGUF" ++ (toLE 4 version ++ body)) = .ok g tail →
        ∃ f, openAll maxAlloc (Ggml.ascii "GGUF" ++ (toLE 4 version ++ body)) = .ok f tail ∧
          Agree f g) ∧
    ∀ file g tail, Ggml.decode (-1) maxAlloc file = .ok g tail →
      file.take 4 = Ggml.ascii "GGUF" ∨ file.take 4 = Ggml.ascii "FUGG" := by
  refine ⟨fun version pairs ts tail hversion hlt h => h.agree hbts hmax hversion hlt tail,
    fun version body g tail hversion hlt hok => ?_, fun file g tail => magic_of_decode⟩
  obtain ⟨f, hopen, -, hagree⟩ := openAll_of_decode hbts hversion hlt hok
  exact ⟨f, hopen, hagree⟩

/-- Only the architecture. -/
def architecturePair : List (Bytes × Ggml.Value) :=
  [(Ggml.architectureKey, .string (Ggml.ascii "a"))]

theorem wellFormed_architecturePair : WellFormed (2 ^ 48) 3 architecturePair [Ggml.fourFloats] := by
  refine ⟨fun p hp => ?_, by decide, fun t ht => ?_, by decide +kernel, by decide +kernel⟩
  · obtain rfl := List.mem_singleton.mp hp
    exact ⟨by decide, show (Ggml.ascii "a").length ≤ 2 ^ 48 by decide⟩
  · obtain rfl := List.mem_singleton.mp ht
    exact ⟨⟨by decide, by decide, by decide, by decide, by decide⟩, by decide⟩

theorem readers_agree_fourFloats : ∃ g f,
    Ggml.decode (-1) (2 ^ 48) (header 3 architecturePair [Ggml.fourFloats]) = .ok g [] ∧
      openAll (2 ^ 48) (header 3 architecturePair [Ggml.fourFloats]) = .ok f [] ∧ Agree f g := by
  obtain ⟨g, f, hdecode, hopen, -, -, hagree⟩ := (readers_agree (2 ^ 48) (by decide)
    (by decide)).1 3 _ _ [] (by decide) (by decide) wellFormed_architecturePair
  exact ⟨g, f, hdecode, hopen, hagree⟩

/-- Only `fs/ggml` reports the number of elements. -/
theorem parameter_count_decoded : ¬ ∀ version pairs ts tail,
    (version = 2 ∨ version = 3) → WellFormed (2 ^ 48) version pairs ts → ∀ g f,
      Ggml.decode (-1) (2 ^ 48) (header version pairs ts ++ tail) = .ok g tail →
      openAll (2 ^ 48) (header version pairs ts ++ tail) = .ok f tail →
        ∀ k, g.kv.lookup k = keyValue f.keyValues k := by
  intro hall
  obtain ⟨g, f, hdecode, hopen, hkeys, -, hagree⟩ := wellFormed_architecturePair.agree
    (by decide) (by decide) (by decide) (by decide) []
  have hlookup := hall 3 _ _ [] (Or.inr rfl) wellFormed_architecturePair g f hdecode hopen
    Ggml.parameterCountKey
  rw [hagree.decoded, Finmap.lookup_insert, hkeys] at hlookup
  cases hlookup

end Ollama.Gguf
