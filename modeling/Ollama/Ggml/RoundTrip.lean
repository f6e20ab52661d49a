import Ollama.Ggml.Write

/-!
# What is written is read back
-/

namespace Ollama.Ggml

open Lib.Binary List Finmap Reader

/-! ## §1  Padding -/

/-- The next multiple of `a`. -/
def roundUp (a n : ℕ) : ℕ := n + (a - n % a) % a

variable {a n s : ℕ} {t : Tensor} {ts : List Tensor}

theorem padding_cast (ha : 0 < a) (n : ℕ) : padding n a = ((a - n % a) % a : ℕ) := by
  have hlt := Nat.mod_lt n ha
  have hmod : ∀ m : ℕ, (m : ℤ).tmod a = (m % a : ℕ) := fun m => by
    rfl
  unfold padding
  rw [hmod, ← Nat.cast_sub (by omega), hmod]

theorem add_padding (ha : 0 < a) (n : ℕ) : (n : ℤ) + padding n a = roundUp a n := by
  rw [padding_cast ha]
  exact (Nat.cast_add _ _).symm

theorem dvd_roundUp (ha : 0 < a) (n : ℕ) : a ∣ roundUp a n := by
  have hlt := Nat.mod_lt n ha
  have hdiv := Nat.div_add_mod n a
  unfold roundUp
  rcases Nat.eq_zero_or_pos (n % a) with h | h
  · rw [h, Nat.sub_zero, Nat.mod_self, Nat.add_zero]
    exact Nat.dvd_of_mod_eq_zero h
  · rw [Nat.mod_eq_of_lt (by omega : a - n % a < a)]
    refine ⟨n / a + 1, ?_⟩
    rw [Nat.mul_succ]
    omega

theorem le_roundUp (a n : ℕ) : n ≤ roundUp a n := Nat.le_add_right _ _

theorem roundUp_add (h : a ∣ s) (n : ℕ) : roundUp a (s + n) = s + roundUp a n := by
  obtain ⟨k, rfl⟩ := h
  unfold roundUp
  rw [Nat.mul_add_mod]
  omega

/-! ## §2  Where the data goes -/

/-- The bytes of the data section, padding included. -/
def dataSize (a : ℕ) (ts : List Tensor) : ℕ := (ts.map fun t => roundUp a t.size).sum

theorem nextOffset_eq (ha : 0 < a) (hs : a ∣ s) (hlt : s + roundUp a t.size < 2 ^ 63) :
    nextOffset a s t = s + roundUp a t.size := by
  have hle := le_roundUp a t.size
  have hmod : (s + t.size) % 2 ^ 64 = s + t.size := Nat.mod_eq_of_lt (by omega)
  have hpad : padding (s + t.size : ℕ) a = (roundUp a t.size - t.size : ℕ) := by
    have h := add_padding ha (s + t.size)
    rw [roundUp_add hs] at h
    omega
  unfold nextOffset
  simp only
  rw [hmod, toInt64_of_lt (by omega), hpad]
  omega

/-- The offsets are multiples of the alignment, and each tensor's data ends before the next
one's begins. -/
structure Placed (a s : ℕ) (ts placed : List Tensor) : Prop where
  same : placed.map (fun t => (t.name, t.kind, t.shape)) = ts.map fun t => (t.name, t.kind, t.shape)
  aligned : ∀ t ∈ placed, a ∣ t.offset
  begins : ∀ t ∈ placed, s ≤ t.offset
  ends : ∀ t ∈ placed, t.offset + roundUp a t.size ≤ s + dataSize a ts
  apart : placed.Pairwise fun t t' => t.offset + t.size ≤ t'.offset

theorem placed_spec (ha : 0 < a) (hs : a ∣ s) (hlt : s + dataSize a ts < 2 ^ 63) :
    Placed a s ts (placed a s ts) := by
  induction ts generalizing s with
  | nil => exact ⟨rfl, nofun, nofun, nofun, .nil⟩
  | cons t ts ih =>
    have hsum : dataSize a (t :: ts) = roundUp a t.size + dataSize a ts := sum_cons
    have hnext := nextOffset_eq (t := t) ha hs (by omega)
    have hdvd : a ∣ s + roundUp a t.size := Nat.dvd_add hs (dvd_roundUp ha _)
    have hlater := ih hdvd (by omega)
    have hle := le_roundUp a t.size
    unfold placed
    rw [hnext]
    refine ⟨?_, ?_, ?_, ?_, ?_⟩
    · rw [map_cons, map_cons, hlater.same]
    · exact forall_mem_cons.mpr ⟨hs, hlater.aligned⟩
    · refine forall_mem_cons.mpr ⟨Nat.le_refl s, fun t' ht' => ?_⟩
      have := hlater.begins t' ht'
      omega
    · refine forall_mem_cons.mpr ⟨?_, fun t' ht' => ?_⟩
      · show s + roundUp a t.size ≤ _
        omega
      · have := hlater.ends t' ht'
        omega
    · refine pairwise_cons.mpr ⟨fun t' ht' => ?_, hlater.apart⟩
      have := hlater.begins t' ht'
      show s + t.size ≤ t'.offset
      omega

theorem seek_ok {pos : ℕ} {n : ℤ} {m : ℕ} (h : (pos : ℤ) + n = m) (hm : m < 2 ^ 63) :
    seek pos n = pure (m : ℤ) := by
  unfold seek
  rw [h, if_neg (by omega)]

/-- The data can be skipped when it ends below 2^63. -/
theorem seekTensors_ok (ha : 0 < a) (ts : List Tensor) (pos : ℕ) (hlt : roundUp a pos + dataSize a ts < 2 ^ 63)
    (bs : Bytes) : ∃ pos', seekTensors a ts pos bs = .ok pos' bs := by
  induction ts generalizing pos with
  | nil => exact ⟨pos, rfl⟩
  | cons t ts ih =>
    have hsum : dataSize a (t :: ts) = roundUp a t.size + dataSize a ts := sum_cons
    have hle := le_roundUp a t.size
    have hpadding : ggufPadding pos a = pure (padding pos a) := if_neg (by omega)
    have hfirst := seek_ok (add_padding ha pos) (by omega)
    have hsecond : seek (roundUp a pos : ℕ) (toInt64 t.size) =
        pure ((roundUp a pos + t.size : ℕ) : ℤ) := by
      refine seek_ok ?_ (by omega)
      rw [toInt64_of_lt (by omega)]
      rfl
    have hlater := ih (roundUp a pos + t.size) (by
      rw [roundUp_add (dvd_roundUp ha pos)]
      omega)
    obtain ⟨pos', hpos'⟩ := hlater
    refine ⟨pos', ?_⟩
    unfold seekTensors
    rw [hpadding, pure_bind, hfirst]
    show (do
      let pos ← wrap "failed to seek to tensor" (seek (roundUp a pos : ℕ) (toInt64 t.size))
      seekTensors a ts pos : Read ℤ) bs = _
    rw [hsecond]
    exact hpos'

/-! ## §3  Decoding what is written -/

structure Tensor.Stored (maxAlloc : ℕ) (t : Tensor) : Prop where
  name : t.name.length ≤ maxAlloc
  dims : t.shape.length * 8 ≤ maxAlloc
  fewDims : t.shape.length < 2 ^ 32
  shape : ∀ n ∈ t.shape, n < 2 ^ 64
  kind : t.kind < 2 ^ 32

def countElements (ts : List Tensor) : ℕ := ts.foldl (fun n t => (n + t.elements) % 2 ^ 64) 0

def decodedKV (pairs : List (Bytes × Value)) (ts : List Tensor) : KV :=
  (pairs.foldl (fun kv p => kv.insert p.1 p.2) ∅ : KV).insert parameterCountKey
    (.scalar .uint64 (Scalar.uint64.ofBits (countElements ts)))

variable {maxAlloc version : ℕ} {pairs : List (Bytes × Value)}

variable (version) in
/-- The bytes of a file before its data are read as the key-values and tensors they are made
of. -/
theorem decode_headerBytes (hmax : maxAlloc < 2 ^ 63) (hversion : version < 2 ^ 32)
    (hversion' : version ≠ 1)
    (hpairs : ∀ p ∈ pairs, p.1.length ≤ maxAlloc ∧ p.2.Stored maxAlloc)
    (hts : ∀ t ∈ ts, t.Stored maxAlloc ∧ t.offset < 2 ^ 64)
    (ha : 0 < KV.alignment (decodedKV pairs ts))
    (hlt : roundUp (KV.alignment (decodedKV pairs ts))
      (headerBytes version (pairs.map fun p => kvBytes p.1 p.2) ts).length +
        dataSize (KV.alignment (decodedKV pairs ts)) ts < 2 ^ 63)
    (hcounts : ts.length < 2 ^ 64 ∧ pairs.length < 2 ^ 64) (tail : Bytes) :
    ∃ pos, decode (-1) maxAlloc
      (headerBytes version (pairs.map fun p => kvBytes p.1 p.2) ts ++ tail) =
        .ok ⟨decodedKV pairs ts, ts, countElements ts, roundUp (KV.alignment (decodedKV pairs ts))
          (headerBytes version (pairs.map fun p => kvBytes p.1 p.2) ts).length, pos⟩ tail := by
  generalize hheader : headerBytes version (pairs.map fun p => kvBytes p.1 p.2) ts = header at *
  obtain ⟨pos, hseek⟩ := seekTensors_ok ha ts header.length hlt tail
  refine ⟨pos, ?_⟩
  -- what is read before the data
  let llm : ContainerGGUF := ⟨.littleEndian, version, -1, maxAlloc⟩
  have hllm : llm.byteOrder = .littleEndian ∧ llm.version ≠ 1 := ⟨rfl, hversion'⟩
  have hmagic : Reads (readFull 4) (toLE 4 magicLE) (toLE 4 magicLE) :=
    reads_take _ (length_toLE 4 magicLE)
  have hreadVersion : Reads (readUint ⟨.littleEndian, 0, -1, maxAlloc⟩ 4) (toLE 4 version)
      version := reads_readUint ⟨rfl, Nat.zero_ne_one⟩ (by omega)
  have hreadCounts : Reads (readFull 16) (toLE 8 ts.length ++ toLE 8 pairs.length)
      (toLE 8 ts.length ++ toLE 8 pairs.length) :=
    reads_take _ (by rw [length_append, length_toLE, length_toLE])
  have htake : (toLE 8 ts.length ++ toLE 8 pairs.length).take 8 = toLE 8 ts.length :=
    take_left' (length_toLE 8 ts.length)
  have hdrop : (toLE 8 ts.length ++ toLE 8 pairs.length).drop 8 = toLE 8 pairs.length :=
    drop_left' (length_toLE 8 ts.length)
  have hkvs := reads_kvs hllm (show (-1 : ℤ) < 0 by decide) hmax pairs ∅ hpairs
  have htensors := Reads.times (m := readTensor llm) ggufWriteTensorInfo ts fun t ht =>
    reads_tensor hllm hmax (hts t ht).1.name (hts t ht).1.dims (hts t ht).1.fewDims
      (hts t ht).1.shape (hts t ht).1.kind (hts t ht).2
  have hall : header ++ tail = toLE 4 magicLE ++ (toLE 4 version ++
      ((toLE 8 ts.length ++ toLE 8 pairs.length) ++
        ((pairs.flatMap fun p => kvBytes p.1 p.2) ++ (ts.flatMap ggufWriteTensorInfo ++ tail)))) := by
    rw [← hheader]
    unfold headerBytes
    rw [length_map, ← flatMap_def]
    simp only [append_assoc]
  unfold decode
  rw [hall, bind_ok (hmagic _)]
  have hisMagic : ofLE (toLE 4 magicLE) = magicLE := by decide
  rw [if_pos hisMagic]
  unfold decodeContainer
  rw [bind_ok (hreadVersion _)]
  simp only [if_neg hversion']
  rw [bind_ok (hreadCounts _), htake, hdrop]
  have hnum : ∀ n, n < 2 ^ 64 → ByteOrder.littleEndian.value (toLE 8 n) = n := fun n hn =>
    ofLE_toLE_of_lt (by omega)
  rw [hnum _ hcounts.1, hnum _ hcounts.2]
  unfold decodeBody
  rw [bind_ok (hkvs _), bind_ok (htensors _)]
  have hlen : ((header ++ tail).length : ℤ) - tail.length = header.length := by
    rw [length_append]
    omega
  rw [hall] at hlen
  show (ggufPadding (_ - tail.length : ℤ) (KV.alignment (decodedKV pairs ts)) tail).andThen _ = _
  rw [hlen]
  have hpadding : ggufPadding header.length (KV.alignment (decodedKV pairs ts)) =
      pure (padding header.length (KV.alignment (decodedKV pairs ts))) := if_neg (by omega)
  rw [hpadding]
  show (seekTensors (KV.alignment (decodedKV pairs ts)) ts header.length tail).andThen _ = _
  rw [hseek]
  rw [add_padding ha]
  rfl

/-! ## §4  The key-values -/

variable {kv : KV} {k k' : Bytes} {v : Value}

theorem mem_sorted : (k, v) ∈ kv.sorted ↔ kv.lookup k = some v := by
  unfold KV.sorted
  rw [mem_filterMap]
  constructor
  · rintro ⟨k', -, h⟩
    obtain ⟨v', hv', heq⟩ := Option.map_eq_some_iff.mp h
    cases heq
    exact hv'
  · intro h
    refine ⟨k, ?_, by rw [h]; rfl⟩
    rw [Finset.mem_sort]
    exact mem_keys.mpr (mem_of_lookup_eq_some h)

theorem sorted_keys : kv.sorted.map Prod.fst = kv.keys.sort fun a b => a ≤ b := by
  have hall : ∀ k ∈ kv.keys.sort fun a b => a ≤ b, ∃ v, kv.lookup k = some v := by
    intro k hk
    rw [Finset.mem_sort] at hk
    exact mem_iff.mp (mem_keys.mp hk)
  unfold KV.sorted
  generalize (kv.keys.sort fun a b => a ≤ b) = keys at hall
  induction keys with
  | nil => rfl
  | cons k keys ih =>
    obtain ⟨⟨v, hv⟩, hkeys⟩ := forall_mem_cons.mp hall
    rw [filterMap_cons_some (b := (k, v)) (by rw [hv]; rfl), map_cons, ih hkeys]

theorem lookup_foldl_insert {pairs : List (Bytes × Value)} (hnodup : (pairs.map Prod.fst).Nodup)
    (kv : KV) : (pairs.foldl (fun kv p => kv.insert p.1 p.2) kv).lookup k =
      match pairs.find? fun p => p.1 = k with
      | some p => some p.2
      | none => kv.lookup k := by
  induction pairs generalizing kv with
  | nil => rfl
  | cons p pairs ih =>
    rw [map_cons, nodup_cons] at hnodup
    rw [foldl_cons, ih hnodup.2]
    by_cases hp : p.1 = k
    · have hnone : (pairs.find? fun p => p.1 = k) = none := by
        refine find?_eq_none.mpr fun q hq hqk => hnodup.1 ?_
        rw [hp, ← of_decide_eq_true hqk]
        exact mem_map_of_mem hq
      have hsome : ((p :: pairs).find? fun p => p.1 = k) = some p :=
        find?_cons_of_pos (p := fun q : Bytes × Value => decide (q.1 = k)) (decide_eq_true hp)
      rw [hnone, hsome]
      rw [← hp, lookup_insert]
    · have hskip : ((p :: pairs).find? fun p => p.1 = k) = pairs.find? fun p => p.1 = k :=
        find?_cons_of_neg (p := fun q : Bytes × Value => decide (q.1 = k)) (by simpa using hp)
      rw [hskip]
      cases pairs.find? fun p => p.1 = k with
      | some q => rfl
      | none => exact lookup_insert_of_ne _ (Ne.symm hp)

/-- What is decoded of the key-values: the values under the keys that were written, the
number of elements, and nothing else. -/
structure ReadBack (kv kv' : KV) (elements : ℕ) : Prop where
  count : kv'.lookup parameterCountKey = some (.scalar .uint64 (Scalar.uint64.ofBits elements))
  value : ∀ k v, kv.lookup k = some v → writtenKey kv.architecture k ≠ parameterCountKey →
    kv'.lookup (writtenKey kv.architecture k) = some v
  only : ∀ k' ∈ kv', k' = parameterCountKey ∨ ∃ k ∈ kv, writtenKey kv.architecture k = k'

def writtenPairs (kv : KV) : List (Bytes × Value) :=
  kv.sorted.map fun p => (writtenKey kv.architecture p.1, p.2)

theorem mem_writtenPairs : (k', v) ∈ writtenPairs kv ↔
    ∃ k, kv.lookup k = some v ∧ writtenKey kv.architecture k = k' := by
  unfold writtenPairs
  rw [mem_map]
  constructor
  · rintro ⟨⟨k, v'⟩, hmem, heq⟩
    cases heq
    exact ⟨k, mem_sorted.mp hmem, rfl⟩
  · rintro ⟨k, hk, rfl⟩
    exact ⟨(k, v), mem_sorted.mpr hk, rfl⟩

def KeysDistinct (kv : KV) : Prop :=
  ∀ k ∈ kv, ∀ k' ∈ kv, writtenKey kv.architecture k = writtenKey kv.architecture k' → k = k'

theorem writtenPairs_nodup (h : KeysDistinct kv) : ((writtenPairs kv).map Prod.fst).Nodup := by
  have hmap : (writtenPairs kv).map Prod.fst =
      (kv.keys.sort fun a b => a ≤ b).map (writtenKey kv.architecture) := by
    rw [← sorted_keys]
    unfold writtenPairs
    rw [map_map, map_map]
    rfl
  rw [hmap]
  refine (nodup_map_iff_inj_on (Finset.sort_nodup _ _)).mpr fun k hk k' hk' heq => ?_
  rw [Finset.mem_sort] at hk hk'
  exact h k (mem_keys.mp hk) k' (mem_keys.mp hk') heq

/-- The decoded map without the number of elements. -/
theorem lookup_written (h : KeysDistinct kv) :
    ((writtenPairs kv).foldl (fun kv p => kv.insert p.1 p.2) (∅ : KV)).lookup k' = some v ↔
      ∃ k, kv.lookup k = some v ∧ writtenKey kv.architecture k = k' := by
  have hnodup := writtenPairs_nodup h
  rw [lookup_foldl_insert hnodup, ← mem_writtenPairs]
  cases hfind : (writtenPairs kv).find? fun p => p.1 = k' with
  | none =>
    have hnot := find?_eq_none.mp hfind
    refine ⟨fun hnone => ?_, fun hmem => absurd (decide_eq_true rfl) (hnot _ hmem)⟩
    cases hnone
  | some p =>
    have hp : p.1 = k' := by
      have := find?_some (p := fun q : Bytes × Value => decide (q.1 = k')) hfind
      exact of_decide_eq_true this
    have hmem := mem_of_find?_eq_some hfind
    constructor
    · intro heq
      cases heq
      rw [← hp]
      exact hmem
    · intro hmem'
      have heq := inj_on_of_nodup_map hnodup hmem hmem' hp
      rw [heq]

theorem readBack (h : KeysDistinct kv) (ts : List Tensor) :
    ReadBack kv (decodedKV (writtenPairs kv) ts) (countElements ts) := by
  unfold decodedKV
  refine ⟨lookup_insert _, fun k v hk hne => ?_, fun k' hk' => ?_⟩
  · rw [lookup_insert_of_ne _ hne]
    exact (lookup_written h).mpr ⟨k, hk, rfl⟩
  rcases mem_insert.mp hk' with heq | hmem
  · exact Or.inl heq
  · obtain ⟨v, hv⟩ := mem_iff.mp hmem
    obtain ⟨k, hk, heq⟩ := (lookup_written h).mp hv
    exact Or.inr ⟨k, mem_of_lookup_eq_some hk, heq⟩

/-- The alignment survives: a key that is written as `general.alignment` is that key, with a
positive number. -/
def AlignmentKept (kv : KV) : Prop :=
  ∀ k ∈ kv, writtenKey kv.architecture k = alignmentKey →
    ∃ v : Fin Scalar.uint32.bound, 0 < v.val ∧ kv.lookup alignmentKey = some (.scalar .uint32 v)

theorem alignment_decoded (hdistinct : KeysDistinct kv) (halign : AlignmentKept kv)
    (ts : List Tensor) : KV.alignment (decodedKV (writtenPairs kv) ts) = kv.alignment ∧
      0 < kv.alignment := by
  have hself : writtenKey kv.architecture alignmentKey = alignmentKey := by
    refine if_neg fun h => h.2.1 ?_
    decide
  have hdecoded : (decodedKV (writtenPairs kv) ts).lookup alignmentKey =
      ((writtenPairs kv).foldl (fun kv p => kv.insert p.1 p.2) (∅ : KV)).lookup alignmentKey :=
    lookup_insert_of_ne _ (by decide)
  have hlookup : (decodedKV (writtenPairs kv) ts).lookup alignmentKey = kv.lookup alignmentKey := by
    rw [hdecoded]
    cases hkv : kv.lookup alignmentKey with
    | some v => exact (lookup_written hdistinct).mpr ⟨_, hkv, hself⟩
    | none =>
      by_contra hne
      obtain ⟨v, hv⟩ := Option.ne_none_iff_exists'.mp hne
      obtain ⟨k, hk, hkey⟩ := (lookup_written hdistinct).mp hv
      obtain ⟨u, -, hu⟩ := halign k (mem_of_lookup_eq_some hk) hkey
      rw [hkv] at hu
      cases hu
  refine ⟨?_, ?_⟩
  · unfold KV.alignment
    rw [hlookup]
  by_cases hmem : alignmentKey ∈ kv
  · obtain ⟨u, hpos, hu⟩ := halign _ hmem hself
    unfold KV.alignment
    rw [hu]
    exact hpos
  · unfold KV.alignment
    rw [lookup_eq_none.mpr hmem]
    decide

/-! ## §5  What is written is read back -/

theorem foldl_elements (ts : List Tensor) (n : ℕ) (hn : n < 2 ^ 64) :
    ts.foldl (fun n t => (n + t.elements) % 2 ^ 64) n =
      (n + (ts.map Tensor.elements).sum) % 2 ^ 64 := by
  induction ts generalizing n with
  | nil => exact (Nat.mod_eq_of_lt hn).symm
  | cons t ts ih =>
    rw [foldl_cons, ih _ (Nat.mod_lt _ (by norm_num)), map_cons, sum_cons,
      Nat.mod_add_mod, Nat.add_assoc]

theorem countElements_eq (ts : List Tensor) :
    countElements ts = (ts.map Tensor.elements).sum % 2 ^ 64 := by
  unfold countElements
  rw [foldl_elements ts 0 (by norm_num), Nat.zero_add]

theorem elements_placed (a s : ℕ) (ts : List Tensor) :
    (placed a s ts).map Tensor.elements = ts.map Tensor.elements := by
  induction ts generalizing s with
  | nil => rfl
  | cons t ts ih =>
    show t.elements :: (placed a _ ts).map Tensor.elements = t.elements :: _
    rw [ih]

theorem mapM_ok {α β : Type} {f : α → Except WriteError β} {g : α → β} {l : List α}
    (h : ∀ x ∈ l, f x = .ok (g x)) : l.mapM f = .ok (l.map g) := by
  induction l with
  | nil => rfl
  | cons x l ih =>
    obtain ⟨hx, hl⟩ := forall_mem_cons.mp h
    rw [mapM_cons, hx, ih hl]
    rfl

theorem of_mapM_ok {α β : Type} {f : α → Except WriteError β} {l : List α} {ys : List β}
    (h : l.mapM f = .ok ys) : ∀ x ∈ l, ∃ y, f x = .ok y := by
  induction l generalizing ys with
  | nil => exact nofun
  | cons x l ih =>
    rw [mapM_cons] at h
    cases hx : f x with
    | error e =>
      rw [hx] at h
      cases h
    | ok y =>
      rw [hx] at h
      cases hl : l.mapM f with
      | error e =>
        have herror : (Except.ok y >>= fun y => l.mapM f >>= fun ys => pure (y :: ys)) =
            Except.error e := by
          rw [hl]
          rfl
        rw [herror] at h
        cases h
      | ok ys => exact forall_mem_cons.mpr ⟨⟨y, hx⟩, ih hl⟩

theorem length_le_flatten {α : Type} {l : List α} {f : α → Bytes} (h : ∀ x ∈ l, 0 < (f x).length) :
    l.length ≤ (l.flatMap f).length := by
  induction l with
  | nil => exact Nat.le_refl 0
  | cons x l ih =>
    obtain ⟨hx, hl⟩ := forall_mem_cons.mp h
    have := ih hl
    rw [length_cons, flatMap_cons, length_append]
    omega

variable (block : Bytes → ℤ)

/-- The file of a map whose values can all be written. -/
theorem writeFile_ok (harch : kv.architecture ≠ []) (ha : 0 < kv.alignment)
    (hvalues : ∀ k v, kv.lookup k = some v → v.Writable) (ts : List Tensor) :
    writeFile block kv ts = .ok ⟨headerBytes 3 ((writtenPairs kv).map fun p => kvBytes p.1 p.2)
          (placed kv.alignment 0 (sortTensors block ts)),
        placed kv.alignment 0 (sortTensors block ts),
        roundUp kv.alignment (headerBytes 3 ((writtenPairs kv).map fun p => kvBytes p.1 p.2)
          (placed kv.alignment 0 (sortTensors block ts))).length⟩ := by
  have hkvs : kv.sorted.mapM (fun p => ggufWriteKV kv.architecture p.1 p.2) =
      .ok (kv.sorted.map fun p => kvBytes (writtenKey kv.architecture p.1) p.2) :=
    mapM_ok fun p hp => if_pos (hvalues p.1 p.2 (mem_sorted.mp hp))
  unfold writeFile
  rw [if_neg harch, hkvs, ← add_padding ha]
  unfold writtenPairs
  rw [map_map]
  show (if kv.alignment = 0 then _ else _) = _
  rw [if_neg (by omega)]
  rfl

/-- Values, keys and tensors as a running program holds them, and a map that `WriteGGUF`
takes. -/
structure Writes (maxAlloc : ℕ) (kv : KV) (ts : List Tensor) : Prop where
  architecture : kv.architecture ≠ []
  writable : ∀ k v, kv.lookup k = some v → v.Writable
  stored : ∀ k v, kv.lookup k = some v → v.Stored maxAlloc ∧
    (writtenKey kv.architecture k).length ≤ maxAlloc
  distinct : KeysDistinct kv
  alignment : AlignmentKept kv
  tensors : ∀ t ∈ ts, t.Stored maxAlloc

/-- There are not more key-values and tensors than bytes. -/
theorem counts_le (version : ℕ) (pairs : List (Bytes × Value)) (ts : List Tensor) :
    ts.length + pairs.length ≤
      (headerBytes version (pairs.map fun p => kvBytes p.1 p.2) ts).length := by
  have hpairs := length_le_flatten (l := pairs) (f := fun p => kvBytes p.1 p.2) fun p _ => by
    unfold kvBytes lengthPrefixed
    simp only [length_append, length_toLE]
    omega
  have htensors := length_le_flatten (l := ts) (f := ggufWriteTensorInfo) fun t _ => by
    unfold ggufWriteTensorInfo lengthPrefixed
    simp only [length_append, length_toLE]
    omega
  unfold headerBytes
  rw [← flatMap_def]
  simp only [length_append, length_toLE]
  omega

theorem Writes.decode (hmax : maxAlloc < 2 ^ 63) (h : Writes maxAlloc kv ts) {w : Written}
    (hw : writeFile block kv ts = .ok w)
    (hlt : w.dataOffset + dataSize kv.alignment ts < 2 ^ 63) (tail : Bytes) :
    ∃ g, Ggml.decode (-1) maxAlloc (w.header ++ tail) = .ok g tail ∧
      ReadBack kv g.kv ((ts.map Tensor.elements).sum % 2 ^ 64) ∧ g.tensors = w.tensors ∧
      g.tensorOffset = w.dataOffset ∧
      Placed kv.alignment 0 (sortTensors block ts) w.tensors ∧
      (kv.alignment : ℤ) ∣ w.dataOffset := by
  obtain ⟨halign, ha⟩ := alignment_decoded h.distinct h.alignment
    (placed kv.alignment 0 (sortTensors block ts))
  rw [writeFile_ok block h.architecture ha h.writable] at hw
  cases hw
  have hperm : (sortTensors block ts).Perm ts := perm_insertionSort _ ts
  have hsize : dataSize kv.alignment (sortTensors block ts) = dataSize kv.alignment ts :=
    (hperm.map _).sum_eq
  have hcount : countElements (placed kv.alignment 0 (sortTensors block ts)) =
      (ts.map Tensor.elements).sum % 2 ^ 64 := by
    rw [countElements_eq, elements_placed, (hperm.map _).sum_eq]
  simp only at hlt ⊢
  have hplaced : Placed kv.alignment 0 (sortTensors block ts)
      (placed kv.alignment 0 (sortTensors block ts)) :=
    placed_spec ha (Nat.dvd_zero kv.alignment) (by omega)
  generalize placed kv.alignment 0 (sortTensors block ts) = us at *
  have hus : ∀ t ∈ us, t.Stored maxAlloc ∧ t.offset < 2 ^ 64 := by
    intro t ht
    have hends := hplaced.ends t ht
    have hmem : (t.name, t.kind, t.shape) ∈ us.map fun t => (t.name, t.kind, t.shape) :=
      mem_map_of_mem ht
    rw [hplaced.same] at hmem
    obtain ⟨t₀, ht₀, heq⟩ := mem_map.mp hmem
    have hstored := h.tensors t₀ (hperm.mem_iff.mp ht₀)
    obtain ⟨hname, hkind, hshape⟩ : t₀.name = t.name ∧ t₀.kind = t.kind ∧ t₀.shape = t.shape := by
      simpa using heq
    refine ⟨⟨?_, ?_, ?_, ?_, ?_⟩, by omega⟩
    · rw [← hname]
      exact hstored.name
    · rw [← hshape]
      exact hstored.dims
    · rw [← hshape]
      exact hstored.fewDims
    · rw [← hshape]
      exact hstored.shape
    · rw [← hkind]
      exact hstored.kind
  have hsizes : dataSize kv.alignment us = dataSize kv.alignment ts := by
    have hmap : ∀ l : List Tensor, l.map (fun t => roundUp kv.alignment t.size) =
        (l.map fun t => (t.name, t.kind, t.shape)).map fun q =>
          roundUp kv.alignment (Tensor.size ⟨q.1, q.2.1, 0, q.2.2⟩) := fun l => by
      rw [map_map]
      rfl
    rw [← hsize]
    unfold dataSize
    rw [hmap, hplaced.same, ← hmap]
  have hpairs : ∀ p ∈ writtenPairs kv, p.1.length ≤ maxAlloc ∧ p.2.Stored maxAlloc := by
    intro p hp
    obtain ⟨k, hk, hkey⟩ := mem_writtenPairs.mp hp
    obtain ⟨hv, hlen⟩ := h.stored k _ hk
    rw [hkey] at hlen
    exact ⟨hlen, hv⟩
  have hcounts := counts_le 3 (writtenPairs kv) us
  have hheader := le_roundUp kv.alignment
    (headerBytes 3 ((writtenPairs kv).map fun p => kvBytes p.1 p.2) us).length
  obtain ⟨pos, hpos⟩ := decode_headerBytes 3 hmax (by omega) (by omega) hpairs hus
    (by rwa [halign]) (by rw [halign, hsizes]; omega) ⟨by omega, by omega⟩ tail
  refine ⟨_, hpos, ?_, rfl, ?_, hplaced, ?_⟩
  · rw [← hcount]
    exact readBack h.distinct us
  · rw [halign]
  · exact Int.natCast_dvd_natCast.mpr (dvd_roundUp ha _)

/-! ## §6  What is decoded can be written -/

/-- A file with alignment 0 is not decoded. -/
theorem alignment_of_decode {maxArraySize : ℤ} {file rest : Bytes} {g : Gguf}
    (h : decode maxArraySize maxAlloc file = .ok g rest) : g.kv.alignment ≠ 0 := by
  have hbody : ∀ (llm : ContainerGGUF) (stop n m : ℕ) (bs : Bytes),
      decodeBody llm stop n m bs = .ok g rest → g.kv.alignment ≠ 0 := by
    intro llm stop n m bs hok
    obtain ⟨kv, bs₁, -, hok⟩ := bind_eq_ok.mp hok
    obtain ⟨ts, bs₂, -, hok⟩ := bind_eq_ok.mp hok
    obtain ⟨offset, bs₃, -, hok⟩ := bind_eq_ok.mp hok
    obtain ⟨padding, bs₄, hpadding, hok⟩ := bind_eq_ok.mp hok
    obtain ⟨position, bs₅, -, hok⟩ := bind_eq_ok.mp hok
    cases hok
    intro hzero
    unfold ggufPadding at hpadding
    rw [if_pos (Int.natCast_eq_zero.mpr hzero)] at hpadding
    cases hpadding
  have hcontainer : ∀ (order : ByteOrder) (stop : ℕ) (bs : Bytes),
      decodeContainer order maxArraySize maxAlloc stop bs = .ok g rest → g.kv.alignment ≠ 0 := by
    intro order stop bs hok
    obtain ⟨version, bs₁, -, hok⟩ := bind_eq_ok.mp hok
    obtain ⟨counts, bs₂, -, hok⟩ := bind_eq_ok.mp hok
    exact hbody _ _ _ _ _ hok
  obtain ⟨magic, bs, -, hok⟩ := bind_eq_ok.mp h
  split at hok
  · exact hcontainer _ _ _ hok
  · split at hok
    · exact hcontainer _ _ _ hok
    · cases hok

theorem writeFile_ok_iff (ha : kv.alignment ≠ 0) (ts : List Tensor) :
    (∃ w, writeFile block kv ts = .ok w) ↔
      kv.architecture ≠ [] ∧ ∀ k v, kv.lookup k = some v → v.Writable := by
  constructor
  · rintro ⟨w, hw⟩
    unfold writeFile at hw
    by_cases harch : kv.architecture = []
    · rw [if_pos harch] at hw
      cases hw
    rw [if_neg harch] at hw
    refine ⟨harch, fun k v hk => ?_⟩
    cases hkvs : kv.sorted.mapM fun p => ggufWriteKV kv.architecture p.1 p.2 with
    | error e =>
      rw [hkvs] at hw
      cases hw
    | ok kvs =>
      obtain ⟨bytes, hbytes⟩ := of_mapM_ok hkvs (k, v) (mem_sorted.mpr hk)
      by_contra hnot
      rw [ggufWriteKV, if_neg hnot] at hbytes
      cases hbytes
  · rintro ⟨harch, hvalues⟩
    exact ⟨_, writeFile_ok block harch (Nat.pos_of_ne_zero ha) hvalues ts⟩

/-- **GGUF, written and read.** A map that can be written, with its tensors, is decoded with the
same values under the keys that were written and the number of elements; the tensors come in
their sorted order with data that is aligned and apart. A decoded map can be written if and
only if its architecture is set and `ggufWriteKV` has a case for every value. -/
theorem write_decode (hmax : maxAlloc < 2 ^ 63) :
    (∀ kv ts, Writes maxAlloc kv ts → ∃ w, writeFile block kv ts = .ok w ∧
      (sortTensors block ts).Perm ts ∧
      (w.dataOffset + dataSize kv.alignment ts < 2 ^ 63 → ∀ tail, ∃ g,
        decode (-1) maxAlloc (w.header ++ tail) = .ok g tail ∧
        ReadBack kv g.kv ((ts.map Tensor.elements).sum % 2 ^ 64) ∧
        g.tensors.map (fun t => (t.name, t.kind, t.shape)) =
          (sortTensors block ts).map (fun t => (t.name, t.kind, t.shape)) ∧
        g.tensors = w.tensors ∧ g.tensorOffset = w.dataOffset ∧
        (w.header.length : ℤ) ≤ g.tensorOffset ∧
        (∀ t ∈ g.tensors, (kv.alignment : ℤ) ∣ g.tensorOffset + t.offset) ∧
        g.tensors.Pairwise fun t t' => t.offset + t.size ≤ t'.offset)) ∧
    ∀ file g rest, decode (-1) maxAlloc file = .ok g rest → ∀ ts,
      ((∃ w, writeFile block g.kv ts = .ok w) ↔
        g.kv.architecture ≠ [] ∧ ∀ k v, g.kv.lookup k = some v → v.Writable) := by
  refine ⟨fun kv ts h => ?_, fun file g rest hok ts =>
    writeFile_ok_iff block (alignment_of_decode hok) ts⟩
  have ha := (alignment_decoded h.distinct h.alignment ts).2
  have hw := writeFile_ok block h.architecture ha h.writable ts
  refine ⟨_, hw, perm_insertionSort _ ts, fun hlt tail => ?_⟩
  obtain ⟨g, hok, hback, htensors, hoffset, hplaced, hdvd⟩ := h.decode block hmax hw hlt tail
  refine ⟨g, hok, hback, ?_, htensors, hoffset, ?_, fun t ht => ?_, ?_⟩
  · rw [htensors]
    exact hplaced.same
  · rw [hoffset]
    exact Int.ofNat_le.mpr (le_roundUp _ _)
  · rw [htensors] at ht
    rw [hoffset]
    exact Int.dvd_add hdvd (Int.natCast_dvd_natCast.mpr (hplaced.aligned t ht))
  · rw [htensors]
    exact hplaced.apart

/-- Only the architecture, `a`. -/
def onlyArchitecture : KV := singleton architectureKey (.string (ascii "a"))

/-- Four floating-point numbers. -/
def fourFloats : Tensor := ⟨ascii "t", 0, 0, [4]⟩

theorem writes_fourFloats : Writes (2 ^ 48) onlyArchitecture [fourFloats] := by
  have honly : ∀ k v, onlyArchitecture.lookup k = some v →
      k = architectureKey ∧ v = .string (ascii "a") := by
    intro k v hk
    have hmem := mem_of_lookup_eq_some hk
    have heq : k = architectureKey := (mem_singleton _ _ _).mp hmem
    subst heq
    have hval := hk.symm.trans (lookup_singleton_eq)
    cases hval
    exact ⟨rfl, rfl⟩
  have hkey : ∀ k ∈ onlyArchitecture, k = architectureKey := fun k hk =>
    (mem_singleton _ _ _).mp hk
  refine ⟨by decide +kernel, fun k v hk => ?_, fun k v hk => ?_, fun k hk k' hk' _ => ?_,
    fun k hk heq => ?_, fun t ht => ?_⟩
  · obtain ⟨rfl, rfl⟩ := honly k v hk
    trivial
  · obtain ⟨rfl, rfl⟩ := honly k v hk
    exact ⟨show (ascii "a").length ≤ 2 ^ 48 by decide, by decide +kernel⟩
  · rw [hkey k hk, hkey k' hk']
  · rw [hkey k hk] at heq
    exact absurd heq (by decide +kernel)
  · obtain rfl := mem_singleton.mp ht
    exact ⟨by decide, by decide, by decide, by decide, by decide⟩

theorem writtenPairs_onlyArchitecture :
    writtenPairs onlyArchitecture = [(architectureKey, .string (ascii "a"))] := by
  unfold writtenPairs KV.sorted onlyArchitecture
  rw [keys_singleton, Finset.sort_singleton]
  decide +kernel

theorem write_decode_fourFloats : ∃ w g, writeFile (fun _ => 0) onlyArchitecture [fourFloats] =
      .ok w ∧ decode (-1) (2 ^ 48) w.header = .ok g [] ∧ g.tensors = w.tensors ∧
        (g.kv.lookup parameterCountKey = some (.scalar .uint64 (Scalar.uint64.ofBits 4))) := by
  obtain ⟨w, hw, -, hdecode⟩ := (write_decode (fun _ => 0) (by decide)).1 _ _ writes_fourFloats
  have hoffset : w.dataOffset = 128 := by
    rw [writeFile_ok _ writes_fourFloats.architecture (by decide +kernel)
      writes_fourFloats.writable, writtenPairs_onlyArchitecture] at hw
    cases hw
    decide +kernel
  have hsize : dataSize onlyArchitecture.alignment [fourFloats] = 32 := by decide +kernel
  obtain ⟨g, hok, hback, -, htensors, -⟩ := hdecode (by rw [hoffset, hsize]; decide) []
  rw [append_nil] at hok
  exact ⟨w, g, hw, hok, htensors, hback.count⟩

def bytePairs : List (Bytes × Value) :=
  [(architectureKey, .string (ascii "a")), (ascii "a.x", .scalar .uint8 (Scalar.uint8.ofBits 5))]

/-- A decoded map with a number of one byte is not written. -/
theorem decoded_byte_not_written :
    ¬ ∀ file g rest, decode (-1) (2 ^ 48) file = .ok g rest → g.kv.architecture ≠ [] →
      ∀ block ts, ∃ w, writeFile block g.kv ts = .ok w := by
  intro hall
  have hok : decode (-1) (2 ^ 48) (headerBytes 3 (bytePairs.map fun p => kvBytes p.1 p.2) []) =
      .ok ⟨decodedKV bytePairs [], [], 0, 96, 81⟩ [] := by
    decide +kernel
  have hwritten := hall _ _ _ hok (by decide +kernel) (fun _ => 0) []
  rw [writeFile_ok_iff _ (by decide +kernel)] at hwritten
  have hbyte := hwritten.2 (ascii "a.x") (.scalar .uint8 (Scalar.uint8.ofBits 5))
    (by decide +kernel)
  exact absurd hbyte (by decide)

end Ollama.Ggml
