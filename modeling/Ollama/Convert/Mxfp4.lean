import Ollama.Ggml.Tensors
import Ollama.Lib.Chunks
import Ollama.Lib.Dense

/-!
# MXFP4: model of `convert/convert_gptoss.go`

`mxfp4.WriteTo`, `mxfp4.slice` and what `Tensors` makes of a pair of blocks and scales. A byte is
a `BitVec 8`; slices are as in the comment `gate_up_exps[:, 0::2, ...]`.
-/

namespace Ollama.Convert.Mxfp4

open List Lib Dense.Tensor

abbrev Byte := BitVec 8

/-! ## §1  The two layouts -/

def low (b : Byte) : Byte := b &&& 0x0F#8

def high (b : Byte) : Byte := b >>> 4

/-- Element `k` of a block in the layout of the source: two elements a byte, in order. -/
def hfElement (block : List Byte) (k : ℕ) : Byte :=
  if k % 2 = 0 then low (block.getD (k / 2) 0) else high (block.getD (k / 2) 0)

/-- Element `k` of a block in the layout of GGML: the second half in the high nibbles. -/
def ggmlElement (block : List Byte) (k : ℕ) : Byte :=
  if k < 16 then low (block.getD k 0) else high (block.getD (k - 16) 0)

theorem mask_low : ∀ (i : ℕ) (h : i < 8), (0x0F#8)[i] = decide (i < 4) := by decide

theorem mask_high : ∀ (i : ℕ) (h : i < 8), (0xF0#8)[i] = decide (4 ≤ i) := by decide

theorem low_low (a b : Byte) : low ((a &&& 0x0F#8) ||| (b <<< 4)) = low a := by
  ext i hi
  simp only [low, BitVec.getElem_and, BitVec.getElem_or, BitVec.getElem_shiftLeft, mask_low i hi]
  grind

theorem high_low (a b : Byte) : high ((a &&& 0x0F#8) ||| (b <<< 4)) = low b := by
  ext i hi
  simp [low, high, mask_low i hi]
  grind [mask_low]

theorem low_high (a b : Byte) : low ((a >>> 4) ||| (b &&& 0xF0#8)) = high a := by
  ext i hi
  simp [low, high, mask_low i hi, mask_high i hi]
  grind

theorem high_high (a b : Byte) : high ((a >>> 4) ||| (b &&& 0xF0#8)) = high b := by
  ext i hi
  simp [high]
  grind [mask_high]

/-! ## §2  Repacking -/

/-- `tmp` after the inner loop over a block. -/
def repackBlock (bts : List Byte) : List Byte :=
  (range 8).flatMap fun j =>
    let a := bts.getD j 0
    let b := bts.getD (j + 8) 0
    [(a &&& 0x0F#8) ||| (b <<< 4), (a >>> 4) ||| (b &&& 0xF0#8)]

def repackFrom : ℕ → List Byte → Option (List Byte)
  | 0, _ => some []
  | n + 1, bts =>
      if bts.length < 16 then none
      else (repackFrom n (bts.drop 16)).map (repackBlock (bts.take 16) ++ ·)

def repack (bts : List Byte) : Option (List Byte) := repackFrom ((bts.length + 15) / 16) bts

theorem length_repackBlock (bts : List Byte) : (repackBlock bts).length = 16 := by
  simp [repackBlock, length_flatMap]

theorem getD_repackBlock (bts : List Byte) {j : ℕ} (hj : j < 8) :
    (repackBlock bts).getD (j * 2) 0 = (bts.getD j 0 &&& 0x0F#8) ||| (bts.getD (j + 8) 0 <<< 4) ∧
    (repackBlock bts).getD (j * 2 + 1) 0 =
      (bts.getD j 0 >>> 4) ||| (bts.getD (j + 8) 0 &&& 0xF0#8) := by
  have hget {s : ℕ} (hs : s < 2) := @Dense.getElem?_flatMap_range Byte (fun j =>
    [(bts.getD j 0 &&& 0x0F#8) ||| (bts.getD (j + 8) 0 <<< 4),
      (bts.getD j 0 >>> 4) ||| (bts.getD (j + 8) 0 &&& 0xF0#8)]) 2 8 j s (fun _ => rfl) hj hs
  constructor
  · rw [getD_eq_getElem?_getD, show j * 2 = j * 2 + 0 from rfl, repackBlock, hget (by omega)]
    rfl
  · rw [getD_eq_getElem?_getD, repackBlock, hget (by omega)]
    rfl

/-- **The permutation of nibbles** is the change of layout. -/
theorem repackBlock_element (bts : List Byte) {k : ℕ} (hk : k < 32) :
    ggmlElement (repackBlock bts) k = hfElement bts k := by
  unfold ggmlElement hfElement
  rcases Nat.lt_or_ge k 16 with hlt | hge
  · obtain ⟨heven, hodd⟩ := getD_repackBlock bts (show k / 2 < 8 by omega)
    rw [if_pos hlt]
    rcases Nat.mod_two_eq_zero_or_one k with h | h
    · rw [if_pos h, show k = k / 2 * 2 by omega, heven, low_low]
      simp
    · rw [if_neg (by omega), show k = k / 2 * 2 + 1 by omega, hodd, low_high]
      congr 2
      omega
  · obtain ⟨heven, hodd⟩ := getD_repackBlock bts (show (k - 16) / 2 < 8 by omega)
    have hbyte : (k - 16) / 2 + 8 = k / 2 := by omega
    rw [if_neg (by omega)]
    rcases Nat.mod_two_eq_zero_or_one k with h | h
    · rw [if_pos h, show k - 16 = (k - 16) / 2 * 2 by omega, heven, high_low, hbyte]
    · rw [if_neg (by omega), show k - 16 = (k - 16) / 2 * 2 + 1 by omega, hodd, high_high, hbyte]

theorem repackFrom_spec (n : ℕ) {bts : List Byte} (h : bts.length = n * 16) :
    ∃ out, repackFrom n bts = some out ∧ out.length = n * 16 ∧ ∀ q < n,
      (out.drop (q * 16)).take 16 = repackBlock ((bts.drop (q * 16)).take 16) := by
  induction n generalizing bts with
  | zero => exact ⟨[], rfl, rfl, nofun⟩
  | succ n ih =>
    obtain ⟨out, hout, hlen, hblock⟩ := ih (show (bts.drop 16).length = n * 16 by simp; omega)
    have hfirst := length_repackBlock (bts.take 16)
    refine ⟨repackBlock (bts.take 16) ++ out, ?_, by simp [hfirst, hlen]; omega, fun q hq => ?_⟩
    · rw [repackFrom, if_neg (by omega), hout]
      rfl
    cases q with
    | zero => rw [Nat.zero_mul, drop_zero, drop_zero, take_append_of_le_length hfirst.ge,
        take_of_length_le hfirst.le]
    | succ q =>
      rw [show (q + 1) * 16 = 16 + q * 16 by omega, ← drop_drop, ← drop_drop,
        ← hblock q (by omega), drop_append_of_le_length hfirst.ge, drop_of_length_le hfirst.le]
      rfl

/-! ## §3  `WriteTo` -/

structure Source where
  shape : List ℕ
  data : List Byte
  size : data.length = shape.prod

structure Slice where
  dim : ℕ
  start : ℕ
  stop : ℕ
  step : ℕ

/-- `mxfp4` -/
structure MXFP4 where
  slices : Option Slice
  blocks : Source
  scales : Source

def MXFP4.slice (m : MXFP4) (dim start stop step : ℕ) : MXFP4 :=
  { m with slices := some ⟨dim, start, stop, step⟩ }

/-- The scales get an axis of length one and come before the blocks along it. -/
def MXFP4.writeTo (m : MXFP4) : Option (List Byte) := do
  let bts ← repack m.blocks.data
  let blocks ← new m.blocks.shape bts
  let scalesDims := m.scales.shape ++ replicate (m.blocks.shape.length - m.scales.shape.length) 1
  let scales ← new scalesDims m.scales.data
  let out ← concat 3 scales blocks
  match m.slices with
  | none => some out.backing
  | some s => some (out.slice s.dim s.start s.stop s.step).backing

/-! ## §4  `Tensors` -/

abbrev Name := List Char

def contains (name sub : Name) : Bool := (index name sub).isSome

/-- `strings.Replace(name, old, new, 1)` -/
def replaceFirst (name old new : Name) : Name :=
  match cut name old with
  | some (b, a) => b ++ (new ++ a)
  | none => name

structure OutTensor where
  name : Name
  kind : ℕ
  shape : List ℕ
  writerTo : MXFP4

/-- What the loop over the pairs of blocks and scales adds for one of them. -/
def Tensors (name : Name) (m : MXFP4) : List OutTensor :=
  let dims := fun i => m.blocks.shape.getD i 0
  let half := [dims 0, dims 1 / 2, dims 2 * dims 3 * 2]
  if contains name "ffn_down_exps".toList then
    [⟨name ++ ".weight".toList, Ggml.TensorType.mxfp4.kind,
      [dims 0, dims 1, dims 2 * dims 3 * 2], m⟩]
  else if contains name "ffn_gate_up_exps".toList then
    [⟨replaceFirst name "gate_up".toList "gate".toList ++ ".weight".toList,
        Ggml.TensorType.mxfp4.kind, half, m.slice 1 0 (dims 1) 2⟩,
      ⟨replaceFirst name "gate_up".toList "up".toList ++ ".weight".toList,
        Ggml.TensorType.mxfp4.kind, half, m.slice 1 1 (dims 1) 2⟩]
  else []

def OutTensor.announced (t : OutTensor) : ℕ :=
  t.shape.prod * Ggml.typeSize t.kind / Ggml.blockSize t.kind

/-! ## §5  What is written -/

variable {E R C rows start step : ℕ} {row : ℕ → ℕ} {m : MXFP4} {out : List Byte}

variable (R C m) in
/-- For every expert, row `i` of the output and column, the scale and the elements of row `row i`
of the source, and nothing else. -/
structure Written (E rows : ℕ) (row : ℕ → ℕ) (out : List Byte) : Prop where
  length : out.length = E * (rows * (C * 17))
  scale : ∀ e < E, ∀ i < rows, ∀ c < C, out[e * (rows * (C * 17)) + (i * (C * 17) + c * 17)]? =
    m.scales.data[e * (R * C) + (row i * C + c)]?
  element : ∀ e < E, ∀ i < rows, ∀ c < C, ∀ k < 32,
    ggmlElement (out.drop (e * (rows * (C * 17)) + (i * (C * 17) + c * 17) + 1)) k =
      hfElement (m.blocks.data.drop ((e * (R * C) + (row i * C + c)) * 16)) k

/-- The element of a block depends on the bytes of the block only. -/
theorem ggmlElement_congr {x y : List Byte} (h : ∀ j < 16, x.getD j 0 = y.getD j 0) {k : ℕ}
    (hk : k < 32) : ggmlElement x k = ggmlElement y k := by
  unfold ggmlElement
  split
  · rw [h k ‹_›]
  · rw [h _ (by omega)]

theorem hfElement_take (x : List Byte) {k : ℕ} (hk : k < 32) :
    hfElement (x.take 16) k = hfElement x k := by
  unfold hfElement
  simp only [getD_eq_getElem?_getD, getElem?_take_of_lt (show k / 2 < 16 by omega)]

/-- The row of a source is one of its rows. -/
theorem place_lt {e r c : ℕ} (he : e < E) (hr : r < R) (hc : c < C) :
    e * (R * C) + (r * C + c) < E * (R * C) := by
  have hrow : r * C + c < R * C := by
    calc r * C + c < (r + 1) * C := by rw [Nat.succ_mul]; omega
      _ ≤ R * C := Nat.mul_le_mul_right C hr
  calc e * (R * C) + (r * C + c) < (e + 1) * (R * C) := by rw [Nat.succ_mul]; omega
    _ ≤ E * (R * C) := Nat.mul_le_mul_right _ he

section

variable (hscales : m.scales.shape = [E, R, C])
include hscales

section

variable (hblocks : m.blocks.shape = [E, R, C, 16])
include hblocks

/-- The bytes of a tensor whose rows are rows of the joined one. -/
theorem written_backing
    {bts : List Byte}
    (hbts : repack m.blocks.data = some bts) {t : Dense.Tensor Byte}
    (hdims : t.dims = [E, rows, C, 17]) (hrow : ∀ i < rows, row i < R)
    (hget : ∀ e i c k, t.get [e, i, c, k] =
      if k < 1 then m.scales.data.getD (e * (R * C) + (row i * C + c) + k) 0
      else bts.getD ((e * (R * C) + (row i * C + c)) * 16 + (k - 1)) 0) :
    Written R C m E rows row t.backing := by
  have hsize : m.blocks.data.length = E * (R * C) * 16 := by
    rw [m.blocks.size, hblocks]
    simp [Nat.mul_assoc]
  have hscale : m.scales.data.length = E * (R * C) := by
    rw [m.scales.size, hscales]
    simp
  obtain ⟨out, hout, hlen, hblock⟩ := repackFrom_spec (E * (R * C)) hsize
  obtain rfl : bts = out := by
    rw [repack, hsize, show (E * (R * C) * 16 + 15) / 16 = E * (R * C) by omega, hout] at hbts
    exact (Option.some.inj hbts).symm
  have hat : ∀ e < E, ∀ i < rows, ∀ c < C, ∀ k < 17,
      t.backing[e * (rows * (C * 17)) + (i * (C * 17) + (c * 17 + k))]? =
        some (t.get [e, i, c, k]) := by
    intro e he i hi c hc k hk
    have := t.getElem?_backing (show Forall₂ (· < ·) [e, i, c, k] t.dims by
      rw [hdims]
      simp [he, hi, hc, hk])
    rw [hdims] at this
    simpa [Dense.offset] using this
  refine ⟨?_, fun e he i hi c hc => ?_, fun e he i hi c hc k hk => ?_⟩
  · rw [t.length_backing, hdims]
    simp
  · have hplace := place_lt he (hrow i hi) hc
    have := hat e he i hi c hc 0 (by omega)
    rw [Nat.add_zero] at this
    rw [this, hget, if_pos Nat.zero_lt_one, Nat.add_zero, getD_eq_getElem?_getD,
      getElem?_eq_getElem (by omega)]
    rfl
  · have hplace := place_lt he (hrow i hi) hc
    generalize hs : e * (R * C) + (row i * C + c) = s at hplace
    rw [← hfElement_take _ hk, ← repackBlock_element _ hk, ← hblock s hplace]
    refine ggmlElement_congr (fun j hj => ?_) hk
    have hbyte := hat e he i hi c hc (j + 1) (by omega)
    rw [getD_eq_getElem?_getD, getElem?_drop, getD_eq_getElem?_getD, getElem?_take_of_lt hj,
      getElem?_drop, show e * (rows * (C * 17)) + (i * (C * 17) + c * 17) + 1 + j =
        e * (rows * (C * 17)) + (i * (C * 17) + (c * 17 + (j + 1))) by omega, hbyte, hget,
      if_neg (by omega), hs, Nat.add_sub_cancel, getD_eq_getElem?_getD]
    rfl

theorem length_data
    :
    m.scales.data.length = E * (R * C) ∧ m.blocks.data.length = E * (R * C) * 16 := by
  rw [m.scales.size, m.blocks.size, hscales, hblocks]
  simp [Nat.mul_assoc]

/-- The joined tensor, of which `WriteTo` writes all or a slice. -/
theorem exists_joined
    :
    ∃ (joined : Dense.Tensor Byte) (bts : List Byte), repack m.blocks.data = some bts ∧
      joined.dims = [E, R, C, 17] ∧
      (∀ e r c k, joined.get [e, r, c, k] =
        if k < 1 then m.scales.data.getD (e * (R * C) + (r * C + c) + k) 0
        else bts.getD ((e * (R * C) + (r * C + c)) * 16 + (k - 1)) 0) ∧
      MXFP4.writeTo { m with slices := none } = some joined.backing ∧
      ∀ start step, (m.slice 1 start R step).writeTo =
        some (joined.slice 1 start R step).backing := by
  obtain ⟨hscale, hsize⟩ := length_data hscales hblocks
  obtain ⟨bts, hbts, hlen, -⟩ := repackFrom_spec (E * (R * C)) hsize
  have hbts' : repack m.blocks.data = some bts := by
    rw [repack, hsize, show (E * (R * C) * 16 + 15) / 16 = E * (R * C) by omega, hbts]
  have hnew : new [E, R, C, 16] bts = some ⟨[E, R, C, 16], fun ix =>
      bts.getD (Dense.offset [E, R, C, 16] ix) 0⟩ := by
    rw [new, if_pos (by simp [hlen, Nat.mul_assoc])]
    rfl
  have hnew' : new [E, R, C, 1] m.scales.data = some ⟨[E, R, C, 1], fun ix =>
      m.scales.data.getD (Dense.offset [E, R, C, 1] ix) 0⟩ := by
    rw [new, if_pos (by simp [hscale])]
    rfl
  have hjoin {a b : List ℕ → Byte} : concat 3 ⟨[E, R, C, 1], a⟩ ⟨[E, R, C, 16], b⟩ =
      some ⟨[E, R, C, 17], fun ix =>
        if ix.getD 3 0 < 1 then a ix else b (ix.set 3 (ix.getD 3 0 - 1))⟩ := by
    simp [Dense.Tensor.concat]
  refine ⟨⟨[E, R, C, 17], fun ix => if ix.getD 3 0 < 1
      then m.scales.data.getD (Dense.offset [E, R, C, 1] ix) 0
      else bts.getD (Dense.offset [E, R, C, 16] (ix.set 3 (ix.getD 3 0 - 1))) 0⟩,
    bts, hbts', rfl, fun e r c k => ?_, ?_, fun start step => ?_⟩
  rotate_left
  · simp [MXFP4.writeTo, hbts', hblocks, hscales, hnew, hnew', hjoin]
  · simp [MXFP4.writeTo, MXFP4.slice, hbts', hblocks, hscales, hnew, hnew', hjoin]
  · show (if k < 1 then m.scales.data.getD (Dense.offset [E, R, C, 1] [e, r, c, k]) 0
      else bts.getD (Dense.offset [E, R, C, 16] [e, r, c, k - 1]) 0) = _
    simp only [Dense.offset, prod_cons, prod_nil]
    congr 2 <;> ring

theorem writeTo_whole
    :
    ∃ out, MXFP4.writeTo { m with slices := none } = some out ∧ Written R C m E R id out := by
  obtain ⟨joined, bts, hbts, hdims, hget, hwhole, -⟩ := exists_joined hscales hblocks
  exact ⟨_, hwhole, written_backing hscales hblocks hbts hdims (fun i hi => hi) hget⟩

theorem writeTo_slice
    (hrow : ∀ i < rows, start + i * step < R)
    (hrows : (R - start + (step - 1)) / step = rows) :
    ∃ out, (m.slice 1 start R step).writeTo = some out ∧
      Written R C m E rows (fun i => start + i * step) out := by
  obtain ⟨joined, bts, hbts, hdims, hget, -, hslice⟩ := exists_joined hscales hblocks
  refine ⟨_, hslice start step, written_backing hscales hblocks hbts ?_ hrow
    fun e i c k => hget e (start + i * step) c k⟩
  simp [slice, hdims, hrows]

end

end

/-! ## §6  Announced sizes -/

variable (m E R C) in
/-- What a conversion of blocks and scales has to keep. -/
structure Preserved (name : Name) : Prop where
  whole : ∃ out, MXFP4.writeTo { m with slices := none } = some out ∧ Written R C m E R id out
  gateUp : ∃ gate up, (m.slice 1 0 R 2).writeTo = some gate ∧ (m.slice 1 1 R 2).writeTo = some up ∧
    Written R C m E ((R + 1) / 2) (fun i => 0 + i * 2) gate ∧
    Written R C m E (R / 2) (fun i => 1 + i * 2) up
  rows : ((range ((R + 1) / 2)).map (fun i => 0 + i * 2) ++
    (range (R / 2)).map (fun i => 1 + i * 2)).Perm (range R)
  announced : ∀ t ∈ Tensors name m, ∃ out, t.writerTo.writeTo = some out ∧ t.announced = out.length

/-- The even and the odd rows are the rows. -/
theorem rows_perm (R : ℕ) : ((range ((R + 1) / 2)).map (fun i => 0 + i * 2) ++
    (range (R / 2)).map (fun i => 1 + i * 2)).Perm (range R) := by
  refine (perm_ext_iff_of_nodup ?_ nodup_range).mpr fun r => ?_
  · refine nodup_append.mpr ⟨nodup_range.map fun a b h => ?_, nodup_range.map fun a b h => ?_, ?_⟩
    · simpa using h
    · simpa using h
    · simp only [mem_map]
      rintro a ⟨i, -, rfl⟩ b ⟨j, -, rfl⟩
      omega
  · simp only [mem_append, mem_map, mem_range]
    constructor
    · rintro (⟨i, hi, rfl⟩ | ⟨i, hi, rfl⟩) <;> omega
    · intro hr
      rcases Nat.mod_two_eq_zero_or_one r with h | h
      · exact Or.inl ⟨r / 2, by omega, by omega⟩
      · exact Or.inr ⟨r / 2, by omega, by omega⟩

theorem announced_eq (name : Name) (E rows C : ℕ) (w : MXFP4) :
    OutTensor.announced ⟨name, Ggml.TensorType.mxfp4.kind, [E, rows, C * 16 * 2], w⟩ =
      E * (rows * (C * 17)) := by
  have hsize : Ggml.typeSize Ggml.TensorType.mxfp4.kind = 17 := rfl
  have hblock : Ggml.blockSize Ggml.TensorType.mxfp4.kind = 32 := rfl
  simp only [OutTensor.announced, prod_cons, prod_nil, hsize, hblock]
  rw [show E * (rows * (C * 16 * 2 * 1)) * 17 = E * (rows * (C * 17)) * 32 by ring]
  exact Nat.mul_div_cancel _ (by decide)

/-- Only a gate of an odd number of rows is not as long as announced. -/
theorem announced_iff (name : Name) (hscales : m.scales.shape = [E, R, C])
    (hblocks : m.blocks.shape = [E, R, C, 16]) (hslices : m.slices = none) :
    (∀ t ∈ Tensors name m, ∃ out, t.writerTo.writeTo = some out ∧ t.announced = out.length) ↔
      (contains name "ffn_down_exps".toList = true ∨
        contains name "ffn_gate_up_exps".toList = false ∨ R % 2 = 0 ∨ E * C = 0) := by
  obtain ⟨whole, hwhole, hwritten⟩ := writeTo_whole hscales hblocks
  obtain ⟨gate, hgate, hgateRows⟩ := @writeTo_slice E R C ((R + 1) / 2) 0 2 m hscales hblocks
    (fun i hi => by omega) (by omega)
  obtain ⟨up, hup, hupRows⟩ := @writeTo_slice E R C (R / 2) 1 2 m hscales hblocks
    (fun i hi => by omega) (by omega)
  have hm : { m with slices := none } = m := by rw [← hslices]
  rw [hm] at hwhole
  unfold Tensors
  simp only [hblocks]
  by_cases hdown : contains name "ffn_down_exps".toList = true
  · rw [if_pos hdown]
    exact iff_of_true (forall_mem_singleton.mpr
      ⟨whole, hwhole, (announced_eq _ E R C m).trans hwritten.length.symm⟩) (Or.inl hdown)
  rw [if_neg hdown]
  by_cases hsplit : contains name "ffn_gate_up_exps".toList = true
  · rw [if_pos hsplit]
    simp only [forall_mem_cons, getD_cons_zero, getD_cons_succ, announced_eq, hgate, hup, hdown,
      hsplit, Option.some.injEq, exists_eq_left', hgateRows.length, hupRows.length]
    constructor
    · rintro ⟨heq, -⟩
      rcases Nat.mod_two_eq_zero_or_one R with h | h
      · exact Or.inr (Or.inr (Or.inl h))
      · rw [show (R + 1) / 2 = R / 2 + 1 by omega, Nat.add_mul, Nat.mul_add, Nat.one_mul,
          ← Nat.mul_assoc E C 17] at heq
        exact Or.inr (Or.inr (Or.inr (by omega)))
    · rintro (h | h | h | h)
      · cases h
      · cases h
      · simp [show (R + 1) / 2 = R / 2 by omega]
      · rcases Nat.mul_eq_zero.mp h with rfl | rfl <;> simp
  · rw [if_neg hsplit]
    exact iff_of_true nofun (Or.inr (Or.inl (eq_false_of_ne_true hsplit)))

/-- One expert with `R` rows of one block. -/
def rowsOf (R : ℕ) : MXFP4 where
  slices := none
  blocks := ⟨[1, R, 1, 16], replicate (R * 16) 0, by simp⟩
  scales := ⟨[1, R, 1], replicate R 0, by simp⟩

end Ollama.Convert.Mxfp4
