import Mathlib.Algebra.Order.BigOperators.Group.List
import Mathlib.Data.List.Range
import Mathlib.Data.List.ReduceOption
import Ollama.Model.MRope

/-!
# Rotary positions along a prompt

What `Forward` makes of the positions of `PostTokenize` for a sequence that is neither
truncated nor shifted, in whatever batches it is computed.
-/

namespace Ollama.Model

open List List MRope

/-! ## §1  The batches -/

/-- The images among the inputs, the first of which has index `n`. -/
def imagesFrom : ℕ → List Input → List (ℕ × Multimodal)
  | _, [] => []
  | n, inp :: rest =>
      match inp.multimodal with
      | none => imagesFrom (n + 1) rest
      | some mm => (n, mm) :: imagesFrom (n + 1) rest

/-- The batch of inputs number `start` to `start + len`; past the prompt these are
generated tokens. -/
def batchAt (inputs : List Input) (start len : ℕ) : Batch where
  positions := range' start len
  multimodal := imagesFrom 0 ((inputs.drop start).take len)

/-- No group of `SameBatch` is cut at `b`. -/
def Boundary (inputs : List Input) (b : ℕ) : Prop :=
  ∀ j inp, inputs[j]? = some inp → j < b → 0 < inp.sameBatch → (j : ℤ) + inp.sameBatch < b

@[ext] structure Rotary where
  time : ℤ
  height : ℤ
  width : ℤ
deriving DecidableEq, Repr

namespace Rotary

def diag (p : ℤ) : Rotary := ⟨p, p, p⟩

def Before (a b : Rotary) : Prop :=
  max a.time (max a.height a.width) < min b.time (min b.height b.width)

theorem before_iff {a b : Rotary} : a.Before b ↔
    (a.time < b.time ∧ a.time < b.height ∧ a.time < b.width) ∧
    (a.height < b.time ∧ a.height < b.height ∧ a.height < b.width) ∧
    (a.width < b.time ∧ a.width < b.height ∧ a.width < b.width) := by
  unfold Before
  rw [max_lt_iff, max_lt_iff, lt_min_iff, lt_min_iff, lt_min_iff, lt_min_iff, lt_min_iff,
    lt_min_iff]

/-- The rows of `positionSlice` for inputs number `start` to `start + len`. -/
def rows (pos : ℕ → Rotary) (start len : ℕ) : List (List ℤ) :=
  [(range' start len).map fun k => (pos k).time, (range' start len).map fun k => (pos k).height,
    (range' start len).map fun k => (pos k).width,
    replicate len 0]

end Rotary

theorem imagesFrom_append (n : ℕ) (a b : List Input) :
    imagesFrom n (a ++ b) = imagesFrom n a ++ imagesFrom (n + a.length) b := by
  induction a generalizing n with
  | nil => rfl
  | cons inp a ih =>
    rw [cons_append, imagesFrom, imagesFrom, length_cons, ih,
      show n + 1 + a.length = n + (a.length + 1) by omega]
    cases inp.multimodal with
    | none => rfl
    | some mm => rfl

theorem imagesFrom_add (s n : ℕ) (a : List Input) :
    imagesFrom (s + n) a = (imagesFrom n a).map fun mi => (s + mi.1, mi.2) := by
  induction a generalizing n with
  | nil => rfl
  | cons inp a ih =>
    rw [imagesFrom, imagesFrom, Nat.add_assoc, ih]
    cases inp.multimodal with
    | none => rfl
    | some mm => rfl

theorem mem_imagesFrom {n : ℕ} {a : List Input} {mi : ℕ × Multimodal} :
    mi ∈ imagesFrom n a ↔ ∃ j inp, a[j]? = some inp ∧ inp.multimodal = some mi.2 ∧ mi.1 = n + j := by
  induction a generalizing n with
  | nil => simp [imagesFrom]
  | cons inp a ih =>
    have hcons : mi ∈ imagesFrom n (inp :: a) ↔
        (inp.multimodal = some mi.2 ∧ mi.1 = n) ∨ mi ∈ imagesFrom (n + 1) a := by
      rw [imagesFrom]
      cases inp.multimodal with
      | none => simp
      | some mm =>
        simp only [mem_cons, Option.some.injEq]
        constructor
        · rintro (rfl | hmem)
          · exact Or.inl ⟨rfl, rfl⟩
          · exact Or.inr hmem
        · rintro (⟨rfl, rfl⟩ | hmem)
          · exact Or.inl rfl
          · exact Or.inr hmem
    rw [hcons, ih]
    constructor
    · rintro (⟨hmm, hn⟩ | ⟨j, inp', hj, hmm, hn⟩)
      · exact ⟨0, inp, rfl, hmm, hn⟩
      · exact ⟨j + 1, inp', hj, hmm, by omega⟩
    rintro ⟨j, inp', hj, hmm, hn⟩
    cases j with
    | zero =>
      obtain rfl := Option.some.inj hj
      exact Or.inl ⟨hmm, hn⟩
    | succ j => exact Or.inr ⟨j, inp', hj, hmm, by omega⟩

/-! ## §2  Offsets of rows and columns -/

/-- What the images add to the component of input `k`. -/
def offsetAt (off : Multimodal → ℕ → ℕ) (images : List (ℕ × Multimodal)) (k : ℕ) : ℤ :=
  (images.map fun mi =>
    if mi.1 ≤ k ∧ k < mi.1 + mi.2.dim then (off mi.2 (k - mi.1) : ℤ) else 0).sum

variable (off : Multimodal → ℕ → ℕ)

theorem offsetAt_append (a b : List (ℕ × Multimodal)) (k : ℕ) :
    offsetAt off (a ++ b) k = offsetAt off a k + offsetAt off b k := by
  unfold offsetAt
  rw [map_append, sum_append]

theorem offsetAt_eq_zero {off : Multimodal → ℕ → ℕ} {images : List (ℕ × Multimodal)} {k : ℕ}
    (h : ∀ mi ∈ images, ¬(mi.1 ≤ k ∧ k < mi.1 + mi.2.dim)) : offsetAt off images k = 0 := by
  refine sum_eq_zero fun x hx => ?_
  obtain ⟨mi, hmi, rfl⟩ := mem_map.mp hx
  exact if_neg (h mi hmi)

theorem offsetAt_shift (s : ℕ) (images : List (ℕ × Multimodal)) (k : ℕ) :
    offsetAt off (images.map fun mi => (s + mi.1, mi.2)) (s + k) = offsetAt off images k := by
  unfold offsetAt
  rw [map_map]
  refine congrArg sum (map_congr_left fun mi _ => ?_)
  show (if s + mi.1 ≤ s + k ∧ s + k < s + mi.1 + mi.2.dim then _ else _) = _
  rw [Nat.add_sub_add_left]
  refine if_congr ?_ rfl rfl
  constructor <;> rintro ⟨h1, h2⟩ <;> constructor <;> omega

theorem getElem?_addOffsets (index dim : ℕ) (offset : ℕ → ℕ) (row : List ℤ) (k : ℕ) :
    (addOffsets row index dim offset)[k]? = row[k]?.map fun x =>
      x + if index ≤ k ∧ k < index + dim then (offset (k - index) : ℤ) else 0 := by
  unfold addOffsets
  induction dim with
  | zero =>
    have hid : (fun x : ℤ =>
        x + if index ≤ k ∧ k < index + 0 then (offset (k - index) : ℤ) else 0) = id :=
      funext fun x => by rw [if_neg (by omega), add_zero, id]
    rw [hid, Option.map_id]
    rfl
  | succ dim ih =>
    rw [range_succ, foldl_append, foldl_cons, foldl_nil, getElem?_modify, ih]
    show Option.map _ (Option.map _ row[k]?) = _
    rw [Option.map_map]
    refine congrArg (fun f => row[k]?.map f) (funext fun x => ?_)
    show (if index + dim = k then _ else _) = _
    by_cases hk : index + dim = k
    · subst hk
      simp
    · rw [if_neg hk]
      refine congrArg (x + ·) (if_congr ?_ rfl rfl)
      constructor <;> rintro ⟨h1, h2⟩ <;> constructor <;> omega

theorem getElem?_foldl_addOffsets (images : List (ℕ × Multimodal))
    (row : List ℤ) (k : ℕ) :
    (images.foldl (fun row mi => addOffsets row mi.1 mi.2.dim (off mi.2)) row)[k]? =
      row[k]?.map (· + offsetAt off images k) := by
  induction images generalizing row with
  | nil => simp [offsetAt]
  | cons mi images ih =>
    rw [foldl_cons, ih, getElem?_addOffsets, Option.map_map]
    refine congrArg (fun f => row[k]?.map f) (funext fun x => ?_)
    show x + _ + offsetAt off images k = x + offsetAt off (mi :: images) k
    rw [add_assoc]
    rfl

/-- The batch from `start` on makes of its images what the whole prompt does, where no group
is cut. -/
theorem offsetAt_batch (inputs : List Input) {start len j : ℕ}
    (hrows : ∀ mi ∈ imagesFrom 0 inputs, mi.1 < start → mi.1 + mi.2.dim ≤ start) (hj : j < len) :
    offsetAt off (batchAt inputs start len).multimodal j =
      offsetAt off (imagesFrom 0 inputs) (start + j) := by
  rcases Nat.le_total start inputs.length with hstart | hstart
  · have hsplit : inputs = inputs.take start ++
        ((inputs.drop start).take len ++ (inputs.drop start).drop len) := by
      rw [take_append_drop, take_append_drop]
    have hlen : (inputs.take start).length = start := by
      rw [length_take, min_eq_left hstart]
    have himages := congrArg (imagesFrom 0) hsplit
    rw [imagesFrom_append, imagesFrom_append, hlen, Nat.zero_add] at himages
    have hmiddle := imagesFrom_add start 0 ((inputs.drop start).take len)
    rw [Nat.add_zero] at hmiddle
    have hpre : offsetAt off (imagesFrom 0 (inputs.take start)) (start + j) = 0 := by
      refine offsetAt_eq_zero ?_
      rintro mi hmi ⟨-, hlt⟩
      have hmem : mi ∈ imagesFrom 0 inputs := by
        rw [himages]
        exact mem_append_left _ hmi
      obtain ⟨i, inp, hi, -, heq⟩ := mem_imagesFrom.mp hmi
      have hi' := (List.getElem?_eq_some_iff.mp hi).1
      have := hrows mi hmem (by omega)
      omega
    have hpost : offsetAt off (imagesFrom (start + ((inputs.drop start).take len).length)
        ((inputs.drop start).drop len)) (start + j) = 0 := by
      refine offsetAt_eq_zero ?_
      rintro mi hmi ⟨hle, -⟩
      obtain ⟨i, inp, hi, -, heq⟩ := mem_imagesFrom.mp hmi
      have hlt := (List.getElem?_eq_some_iff.mp hi).1
      rw [length_drop] at hlt
      have hchunk : ((inputs.drop start).take len).length = len := by
        rw [length_take, min_eq_left]
        omega
      omega
    rw [himages, offsetAt_append, offsetAt_append, hmiddle, offsetAt_shift, hpre, hpost,
      zero_add, add_zero]
    rfl
  · have hnil : (batchAt inputs start len).multimodal = [] := by
      unfold batchAt
      rw [drop_eq_nil_of_le hstart, take_nil]
      rfl
    rw [hnil, offsetAt_eq_zero (fun _ h => absurd h not_mem_nil), offsetAt_eq_zero]
    rintro mi hmi ⟨-, hlt⟩
    obtain ⟨i, inp, hi, -, heq⟩ := mem_imagesFrom.mp hmi
    have hi' := (List.getElem?_eq_some_iff.mp hi).1
    have := hrows mi hmi (by omega)
    omega

/-! ## §3  The blocks of a layout -/

/-- How many inputs a text or an image becomes. -/
def size : Option Multimodal → ℕ
  | none => 1
  | some mm => mm.dim + 2

/-- How many inputs a layout becomes. -/
def total (L : Layout) : ℕ := (L.map size).sum

/-- The images of a layout with the index of their first row, the layout being at index
`n`. -/
def images : ℕ → Layout → List (ℕ × Multimodal)
  | _, [] => []
  | n, x :: L =>
      match x with
      | none => images (n + 1) L
      | some mm => (n + 1, mm) :: images (n + (mm.dim + 2)) L

theorem total_append (a b : Layout) : total (a ++ b) = total a + total b := by
  unfold total
  rw [map_append, sum_append]

theorem total_cons (x : Option Multimodal) (L : Layout) : total (x :: L) = size x + total L :=
  sum_cons

theorem images_append (n : ℕ) (a b : Layout) :
    images n (a ++ b) = images n a ++ images (n + total a) b := by
  induction a generalizing n with
  | nil => rfl
  | cons x a ih =>
    rw [cons_append, total_cons, ← Nat.add_assoc]
    cases x with
    | none => exact ih (n + 1)
    | some mm => exact congrArg ((n + 1, mm) :: ·) (ih (n + (mm.dim + 2)))

/-- The rows of an image are within the layout. -/
theorem mem_images {n : ℕ} {L : Layout} {mi : ℕ × Multimodal} (h : mi ∈ images n L) :
    n < mi.1 ∧ mi.1 + mi.2.dim < n + total L := by
  induction L generalizing n with
  | nil => cases h
  | cons x L ih =>
    rw [total_cons]
    cases x with
    | none =>
      have hmem := ih h
      rw [size]
      omega
    | some mm =>
      rw [size]
      rcases mem_cons.mp h with rfl | hmem
      · constructor
        · exact Nat.lt_succ_self n
        · show n + 1 + mm.dim < _
          omega
      · have := ih hmem
        omega

/-- Every index is in one of the blocks. -/
theorem exists_block {L : Layout} {k : ℕ} (h : k < total L) :
    ∃ a x b j, L = a ++ x :: b ∧ k = total a + j ∧ j < size x := by
  induction L generalizing k with
  | nil => exact absurd h (Nat.not_lt_zero k)
  | cons x L ih =>
    rw [total_cons] at h
    rcases Nat.lt_or_ge k (size x) with hlt | hge
    · exact ⟨[], x, L, k, rfl, (Nat.zero_add k).symm, hlt⟩
    · obtain ⟨a, y, b, j, rfl, hk, hj⟩ := ih (show k - size x < total L by omega)
      refine ⟨x :: a, y, b, j, rfl, ?_, hj⟩
      rw [total_cons]
      omega

/-- What the images add to input `j` of a block. -/
def blockOffset (off : Multimodal → ℕ → ℕ) (x : Option Multimodal) (j : ℕ) : ℤ :=
  match x with
  | none => 0
  | some mm => if 1 ≤ j ∧ j ≤ mm.dim then (off mm (j - 1) : ℤ) else 0

/-- Only the image of the block itself adds to its inputs. -/
theorem offsetAt_block (a : Layout) (x : Option Multimodal)
    (b : Layout) {j : ℕ} (hj : j < size x) :
    offsetAt off (images 0 (a ++ x :: b)) (total a + j) = blockOffset off x j := by
  have hpre : offsetAt off (images 0 a) (total a + j) = 0 := by
    refine offsetAt_eq_zero ?_
    rintro mi hmi ⟨-, hlt⟩
    have := mem_images hmi
    omega
  have hpost : offsetAt off (images (total a + size x) b) (total a + j) = 0 := by
    refine offsetAt_eq_zero ?_
    rintro mi hmi ⟨hle, -⟩
    have := mem_images hmi
    omega
  rw [images_append, offsetAt_append, hpre, zero_add, Nat.zero_add]
  cases x with
  | none => exact hpost
  | some mm =>
    show offsetAt off ([(total a + 1, mm)] ++ images (total a + (mm.dim + 2)) b) _ = _
    rw [offsetAt_append, show mm.dim + 2 = size (some mm) from rfl, hpost, add_zero]
    show sum [if total a + 1 ≤ total a + j ∧ total a + j < total a + 1 + mm.dim then
      (off mm (total a + j - (total a + 1)) : ℤ) else 0] = _
    rw [sum_singleton, Nat.add_sub_add_left]
    refine if_congr ?_ rfl rfl
    constructor <;> rintro ⟨h1, h2⟩ <;> constructor <;> omega

variable {mm : Multimodal}

/-- The images of the inputs that a text or an image becomes. -/
theorem imagesFrom_block (n : ℕ) (first row last : Input) (image : Input)
    (d : ℕ) (rest : List Input) (hfirst : first.multimodal = none)
    (himage : image.multimodal = some mm) (hrow : row.multimodal = none)
    (hlast : last.multimodal = none) :
    imagesFrom n (first :: image :: (replicate d row ++ last :: rest)) =
      (n + 1, mm) :: imagesFrom (n + (d + 1 + 2)) rest := by
  have hrows : ∀ (n : ℕ), imagesFrom n (replicate d row ++ last :: rest) =
      imagesFrom (n + d + 1) rest := by
    induction d with
    | zero =>
      intro n
      rw [replicate_zero, nil_append, imagesFrom, hlast]
    | succ d ih =>
      intro n
      rw [replicate_succ, cons_append, imagesFrom, hrow]
      rw [ih, show n + 1 + d + 1 = n + (d + 1) + 1 by omega]
  rw [imagesFrom, hfirst]
  rw [imagesFrom, himage]
  rw [hrows, show n + 1 + 1 + d + 1 = n + (d + 1 + 2) by omega]

/-! ## §4  Positions by block -/

/-- The position of input `k` of a layout, with columns `w`. -/
def positionOf (w : Grid → ℕ) (positionCache : List ℤ) (L : Layout) (k : ℕ) : Rotary where
  time := mapPosition positionCache k
  height := mapPosition positionCache k + offsetAt (fun mm i => i / w mm.grid) (images 0 L) k
  width := mapPosition positionCache k + offsetAt (fun mm i => i % w mm.grid) (images 0 L) k

/-- **In every batch the same positions**, where no group is cut. -/
theorem buildRows_eq (w : Grid → ℕ) (positionCache : List ℤ) (inputs : List Input) (L : Layout)
    (himages : imagesFrom 0 inputs = images 0 L) {start len : ℕ}
    (hrows : ∀ mi ∈ images 0 L, mi.1 < start → mi.1 + mi.2.dim ≤ start) :
    buildRows w positionCache (batchAt inputs start len).positions
      (batchAt inputs start len).multimodal =
        Rotary.rows (positionOf w positionCache L) start len := by
  have hrow : ∀ off : Multimodal → ℕ → ℕ, (batchAt inputs start len).multimodal.foldl
        (fun row mi => addOffsets row mi.1 mi.2.dim (off mi.2))
        ((batchAt inputs start len).positions.map (mapPosition positionCache)) =
      (range' start len).map fun k =>
        mapPosition positionCache k + offsetAt off (images 0 L) k := by
    intro off
    refine ext_getElem? fun j => ?_
    rw [getElem?_foldl_addOffsets, getElem?_map, getElem?_map]
    show Option.map _ (Option.map _ (range' start len)[j]?) = _
    rcases Nat.lt_or_ge j len with hj | hj
    · rw [getElem?_range' hj, offsetAt_batch off inputs (by rwa [himages]) hj, himages, Nat.one_mul]
      rfl
    · rw [getElem?_eq_none (by rwa [length_range'])]
      rfl
  have hheight := hrow fun mm i => i / w mm.grid
  have hwidth := hrow fun mm i => i % w mm.grid
  have hlength : replicate (range' start len).length (0 : ℤ) = replicate len 0 := by
    rw [length_range']
  exact cons_eq_cons.mpr ⟨rfl, cons_eq_cons.mpr ⟨hheight, cons_eq_cons.mpr
    ⟨hwidth, cons_eq_cons.mpr ⟨hlength, rfl⟩⟩⟩⟩

/-- By how much a text or an image of span `g` moves the position. -/
def stride (g : Multimodal → ℕ) : Option Multimodal → ℤ
  | none => 1
  | some mm => g mm + 2

def strides (g : Multimodal → ℕ) (L : Layout) : ℤ := (L.map (stride g)).sum

/-- The positions of one block. -/
def block (g : Multimodal → ℕ) (x : Option Multimodal) (p : ℤ) : List ℤ :=
  match x with
  | none => [p]
  | some mm => p :: (replicate mm.dim (p + 1) ++ [p + 1 + g mm])

def numbered (g : Multimodal → ℕ) : Layout → ℤ → List ℤ
  | [], _ => []
  | x :: L, p => block g x p ++ numbered g L (p + stride g x)

/-- Position `j` of a block. -/
def blockPlace (g : Multimodal → ℕ) (x : Option Multimodal) (p : ℤ) (j : ℕ) : ℤ :=
  match x with
  | none => p
  | some mm => if j = 0 then p else if j ≤ mm.dim then p + 1 else p + 1 + g mm

variable (g : Multimodal → ℕ)

theorem strides_append (a b : Layout) : strides g (a ++ b) = strides g a + strides g b := by
  unfold strides
  rw [map_append, sum_append]

theorem strides_cons (x : Option Multimodal) (L : Layout) :
    strides g (x :: L) = stride g x + strides g L := sum_cons

theorem stride_pos (x : Option Multimodal) : 0 < stride g x := by
  cases x with
  | none => exact Int.one_pos
  | some mm =>
    show (0 : ℤ) < g mm + 2
    omega

theorem strides_nonneg (L : Layout) : 0 ≤ strides g L := by
  induction L with
  | nil => exact le_rfl
  | cons x L ih =>
    rw [strides_cons]
    have := stride_pos g x
    omega

theorem length_block (x : Option Multimodal) (p : ℤ) : (block g x p).length = size x := by
  cases x with
  | none => rfl
  | some mm =>
    show (p :: (replicate mm.dim (p + 1) ++ [p + 1 + (g mm : ℤ)])).length = mm.dim + 2
    simp

theorem getElem?_block (x : Option Multimodal) (p : ℤ) {j : ℕ} (hj : j < size x) :
    (block g x p)[j]? = some (blockPlace g x p j) := by
  cases x with
  | none =>
    obtain rfl : j = 0 := Nat.lt_one_iff.mp hj
    rfl
  | some mm =>
    rw [size] at hj
    show (p :: (replicate mm.dim (p + 1) ++ [p + 1 + (g mm : ℤ)]))[j]? =
      some (if j = 0 then p else if j ≤ mm.dim then p + 1 else p + 1 + g mm)
    cases j with
    | zero => rfl
    | succ j =>
      rw [getElem?_cons_succ, if_neg (Nat.succ_ne_zero j)]
      by_cases hrow : j < mm.dim
      · rw [getElem?_append_left (by rwa [length_replicate]),
          getElem?_replicate, if_pos hrow, if_pos (Nat.succ_le_of_lt hrow)]
      · rw [getElem?_append_right (by rw [length_replicate]; omega),
          length_replicate, if_neg (by omega), show j - mm.dim = 0 by omega]
        rfl

theorem length_numbered (L : Layout) (p : ℤ) : (numbered g L p).length = total L := by
  induction L generalizing p with
  | nil => rfl
  | cons x L ih => rw [numbered, length_append, length_block, ih, total_cons]

theorem numbered_append (a b : Layout) (p : ℤ) :
    numbered g (a ++ b) p = numbered g a p ++ numbered g b (p + strides g a) := by
  induction a generalizing p with
  | nil =>
    show numbered g b p = numbered g b (p + 0)
    rw [add_zero]
  | cons x a ih =>
    rw [cons_append, numbered, numbered, ih, strides_cons, append_assoc, add_assoc]

theorem getElem?_numbered (a : Layout) (x : Option Multimodal) (b : Layout) (p : ℤ) {j : ℕ}
    (hj : j < size x) :
    (numbered g (a ++ x :: b) p)[total a + j]? = some (blockPlace g x (p + strides g a) j) := by
  rw [numbered_append, getElem?_append_right (by rw [length_numbered]; omega),
    length_numbered, Nat.add_sub_cancel_left, numbered,
    getElem?_append_left (by rwa [length_block]), getElem?_block g x _ hj]

variable {positionCache : List ℤ}

theorem mapPosition_of_getElem? {k : ℕ} {p : ℤ}
    (h : positionCache[k]? = some p) : mapPosition positionCache k = p := by
  unfold mapPosition
  rw [h]

/-! ## §5  Advancing positions -/

/-- All the components are less than `p`. -/
def Rotary.Below (r : Rotary) (p : ℤ) : Prop := r.time < p ∧ r.height < p ∧ r.width < p

theorem Rotary.before_diag_iff {r : Rotary} {p : ℤ} : r.Before (diag p) ↔ r.Below p := by
  rw [before_iff]
  constructor
  · rintro ⟨⟨h1, -, -⟩, ⟨h2, -, -⟩, h3, -, -⟩
    exact ⟨h1, h2, h3⟩
  · rintro ⟨h1, h2, h3⟩
    exact ⟨⟨h1, h1, h1⟩, ⟨h2, h2, h2⟩, h3, h3, h3⟩

theorem Rotary.Below.mono {r : Rotary} {p q : ℤ} (h : r.Below p) (hpq : p ≤ q) : r.Below q :=
  ⟨h.1.trans_le hpq, h.2.1.trans_le hpq, h.2.2.trans_le hpq⟩

variable (w h : Grid → ℕ)

/-- The position of input `j` of a block that starts at `p`. -/
def blockPosition (x : Option Multimodal) (p : ℤ) (j : ℕ) : Rotary where
  time := blockPlace g x p j
  height := blockPlace g x p j + blockOffset (fun mm i => i / w mm.grid) x j
  width := blockPlace g x p j + blockOffset (fun mm i => i % w mm.grid) x j

theorem positionOf_block (a : Layout) (x : Option Multimodal)
    (b : Layout) {j : ℕ} (hj : j < size x)
    (hcache : positionCache[total a + j]? = some (blockPlace g x (strides g a) j)) :
    positionOf w positionCache (a ++ x :: b) (total a + j) =
      blockPosition g w x (strides g a) j := by
  unfold positionOf blockPosition
  rw [mapPosition_of_getElem? hcache, offsetAt_block _ a x b hj, offsetAt_block _ a x b hj]

theorem blockPosition_zero (x : Option Multimodal) (p : ℤ) :
    blockPosition g w x p 0 = Rotary.diag p := by
  cases x with
  | none => exact Rotary.ext rfl (add_zero p) (add_zero p)
  | some mm => exact Rotary.ext rfl (add_zero p) (add_zero p)

theorem blockPosition_last (mm : Multimodal) (p : ℤ) :
    blockPosition g w (some mm) p (mm.dim + 1) = Rotary.diag (p + 1 + g mm) := by
  have hplace : blockPlace g (some mm) p (mm.dim + 1) = p + 1 + g mm := by
    show (if mm.dim + 1 = 0 then p else if mm.dim + 1 ≤ mm.dim then p + 1 else p + 1 + g mm) = _
    rw [if_neg (Nat.succ_ne_zero _), if_neg (Nat.not_succ_le_self _)]
  have hoff : ∀ off, blockOffset off (some mm) (mm.dim + 1) = 0 := fun off =>
    if_neg fun hand => Nat.not_succ_le_self _ hand.2
  unfold blockPosition
  rw [hplace, hoff, hoff, add_zero]
  rfl

/-- Row `r` and column `c` of an image. -/
theorem blockPosition_row (mm : Multimodal) (p : ℤ) {r c : ℕ} (hc : c < w mm.grid)
    (hrow : r * w mm.grid + c < mm.dim) :
    blockPosition g w (some mm) p (r * w mm.grid + c + 1) = ⟨p + 1, p + 1 + r, p + 1 + c⟩ := by
  have hplace : blockPlace g (some mm) p (r * w mm.grid + c + 1) = p + 1 := by
    show (if r * w mm.grid + c + 1 = 0 then p else
      if r * w mm.grid + c + 1 ≤ mm.dim then p + 1 else p + 1 + g mm) = _
    rw [if_neg (Nat.succ_ne_zero _), if_pos (Nat.succ_le_of_lt hrow)]
  have hoff : ∀ off : Multimodal → ℕ → ℕ, blockOffset off (some mm) (r * w mm.grid + c + 1) =
      off mm (r * w mm.grid + c) := fun off =>
    if_pos ⟨Nat.le_add_left 1 _, Nat.succ_le_of_lt hrow⟩
  have hdiv : (r * w mm.grid + c) / w mm.grid = r := by
    rw [Nat.add_comm, Nat.add_mul_div_right _ _ (Nat.zero_lt_of_lt hc), Nat.div_eq_of_lt hc,
      Nat.zero_add]
  have hmod : (r * w mm.grid + c) % w mm.grid = c := by
    rw [Nat.mul_add_mod', Nat.mod_eq_of_lt hc]
  unfold blockPosition
  rw [hplace, hoff, hoff, hdiv, hmod]

structure Spanned (mm : Multimodal) : Prop where
  pos : 0 < w mm.grid
  dim : mm.dim = h mm.grid * w mm.grid
  width : w mm.grid ≤ g mm
  height : h mm.grid ≤ g mm

variable {g w h}

/-- Up to its last row an image stays below its end. -/
theorem Spanned.below (hmm : Spanned g w h mm) (p : ℤ) {j : ℕ}
    (hj : j ≤ mm.dim) : (blockPosition g w (some mm) p j).Below (p + 1 + g mm) := by
  cases j with
  | zero =>
    rw [blockPosition_zero]
    exact ⟨by show p < _; omega, by show p < _; omega, by show p < _; omega⟩
  | succ i =>
    have hr : i / w mm.grid < h mm.grid := by
      rw [Nat.div_lt_iff_lt_mul hmm.pos, ← hmm.dim]
      exact hj
    have hc : i % w mm.grid < w mm.grid := Nat.mod_lt _ hmm.pos
    have hi : i / w mm.grid * w mm.grid + i % w mm.grid = i := Nat.div_add_mod' i _
    have hrow := @blockPosition_row g w mm p (i / w mm.grid) (i % w mm.grid) hc
      (by rw [hi]; exact hj)
    rw [hi] at hrow
    have hheight := hmm.height
    have hwidth := hmm.width
    rw [hrow]
    exact ⟨by show p + 1 < _; omega, by show p + 1 + _ < _; omega, by show p + 1 + _ < _; omega⟩

/-- A block stays below the next one. -/
theorem below_stride {x : Option Multimodal} (hx : ∀ mm, x = some mm → Spanned g w h mm) (p : ℤ)
    {j : ℕ} (hj : j < size x) : (blockPosition g w x p j).Below (p + stride g x) := by
  cases x with
  | none =>
    obtain rfl : j = 0 := Nat.lt_one_iff.mp hj
    rw [blockPosition_zero]
    have : p < p + stride g none := by
      show p < p + 1
      omega
    exact ⟨this, this, this⟩
  | some mm =>
    rcases Nat.lt_or_ge mm.dim j with hlt | hle
    · obtain rfl : j = mm.dim + 1 := Nat.le_antisymm (Nat.le_of_lt_succ hj) hlt
      rw [blockPosition_last]
      have : p + 1 + g mm < p + stride g (some mm) := by
        show p + 1 + (g mm : ℤ) < p + (g mm + 2)
        omega
      exact ⟨this, this, this⟩
    · refine ((hx mm rfl).below p hle).mono ?_
      show p + 1 + (g mm : ℤ) ≤ p + (g mm + 2)
      omega

/-! ## §6  What the inputs become -/

namespace MRope

variable (m : MRope)

/-- `spatialMergeSize` -/
def spatialMergeSize : MRope → ℕ
  | qwen35 m => m.spatialMergeSize
  | qwen3vl m => m.spatialMergeSize

def columns (grid : Grid) : ℕ := grid.width / m.spatialMergeSize

/-- The rows of an image after merging. -/
def rows (grid : Grid) : ℕ := grid.height / m.spatialMergeSize

def startToken : MRope → ℤ
  | qwen35 m => m.visionStart
  | qwen3vl _ => tokenVisionStart

/-- The start marker of an image. -/
def first (mm : Multimodal) : MRope → Input
  | qwen35 m => { token := m.visionStart, sameBatch := mm.dim + 1 }
  | qwen3vl _ => { token := tokenVisionStart }

/-- The first row of an image. -/
def image (inp : Input) (mm : Multimodal) : MRope → Input
  | qwen35 m =>
      { token := m.imageToken, multimodal := inp.multimodal, multimodalHash := inp.multimodalHash }
  | qwen3vl _ =>
      { token := tokenVision, multimodal := inp.multimodal, multimodalHash := inp.multimodalHash,
        sameBatch := mm.dim }

def row : MRope → Input
  | qwen35 m => { token := m.imageToken }
  | qwen3vl _ => { token := tokenVision }

def last : MRope → Input
  | qwen35 m => { token := m.visionEnd }
  | qwen3vl _ => { token := tokenVisionEnd }

def expand (inp : Input) : List Input :=
  match inp.multimodal with
  | none => [inp]
  | some mm => m.first mm :: m.image inp mm :: (replicate (mm.dim - 1) m.row ++ [m.last])

/-- What `EncodeMultimodal` gives: images of whole merged patches, one row for each, by a model
with vision. -/
structure Fed (inputs : List Input) : Prop where
  merge : 0 < m.spatialMergeSize
  image : ∀ inp ∈ inputs, ∀ mm, inp.multimodal = some mm →
    (m.spatialMergeSize ∣ mm.grid.width ∧ 0 < mm.grid.width) ∧
      (m.spatialMergeSize ∣ mm.grid.height ∧ 0 < mm.grid.height) ∧
      mm.dim = m.columns mm.grid * m.rows mm.grid
  vision : ∀ q, m = qwen35 q → (∃ inp ∈ inputs, inp.multimodal ≠ none) → q.vision = true

variable {m} {inp : Input}

theorem Fed.columns_pos {inputs : List Input} (h : m.Fed inputs) (hi : inp ∈ inputs)
    (hmm : inp.multimodal = some mm) : 0 < m.columns mm.grid :=
  have hw := (h.image inp hi mm hmm).1
  Nat.div_pos (Nat.le_of_dvd hw.2 hw.1) h.merge

theorem Fed.rows_pos {inputs : List Input} (h : m.Fed inputs) (hi : inp ∈ inputs)
    (hmm : inp.multimodal = some mm) : 0 < m.rows mm.grid :=
  have hh := (h.image inp hi mm hmm).2.1
  Nat.div_pos (Nat.le_of_dvd hh.2 hh.1) h.merge

theorem Fed.dim_pos {inputs : List Input} (h : m.Fed inputs) (hi : inp ∈ inputs)
    (hmm : inp.multimodal = some mm) : 0 < mm.dim := by
  rw [(h.image inp hi mm hmm).2.2]
  exact Nat.mul_pos (h.columns_pos hi hmm) (h.rows_pos hi hmm)

theorem Fed.tail {inputs : List Input} (h : m.Fed (inp :: inputs)) :
    m.Fed inputs where
  merge := h.merge
  image inp' hi := h.image inp' (mem_cons_of_mem _ hi)
  vision q hq hex := by
    obtain ⟨inp', hi, hmm⟩ := hex
    exact h.vision q hq ⟨inp', mem_cons_of_mem _ hi, hmm⟩

theorem yieldAll_fst (positionCache : List ℤ) (s : List (Input × ℤ)) :
    (Qwen3VL.yieldAll positionCache s).map Prod.fst = s.map Prod.fst := by
  induction s generalizing positionCache with
  | nil => rfl
  | cons e s ih => exact congrArg (e.1 :: ·) (ih _)

theorem modelInputs_of_dim (q : Qwen3VL)
    (hmm : inp.multimodal = some mm) (hdim : 0 < mm.dim) (i : ℕ) :
    q.modelInputs inp i =
      ((qwen3vl q).first mm, (i : ℤ)) :: ((qwen3vl q).image inp mm, (i : ℤ) + 1) ::
        (replicate (mm.dim - 1) ((qwen3vl q).row, (i : ℤ) + 1) ++
          [((qwen3vl q).last, (i : ℤ) + ↑(mm.grid.width / q.spatialMergeSize) + 1)]) := by
  obtain ⟨d, hd⟩ : ∃ d, mm.dim = d + 1 := ⟨mm.dim - 1, by omega⟩
  unfold Qwen3VL.modelInputs
  rw [hmm, hd]
  simp only [replicate_succ, set_cons_zero, length_cons, length_replicate,
    Nat.add_sub_cancel, set_cons_succ]
  have hset : ∀ (d : ℕ) (x y : Input × ℤ), (x :: replicate d x).set d y = replicate d x ++ [y] := by
    intro d x y
    induction d with
    | zero => rfl
    | succ d ih =>
      rw [replicate_succ, set_cons_succ, ih]
      rfl
  rw [hset]
  unfold image
  rw [hmm, hd]
  rfl

/-- **What `PostTokenize` makes of the inputs**, one after the other. -/
theorem postTokenize_fst {inputs : List Input} (h : m.Fed inputs) :
    (m.postTokenize inputs).map Prod.fst = inputs.flatMap m.expand := by
  cases m with
  | qwen35 q =>
    have harrange : ∀ (inputs : List Input) (p : ℤ),
        (q.arrangeAll inputs p).map Prod.fst = inputs.flatMap (qwen35 q).expand := by
      intro inputs
      induction inputs with
      | nil => exact fun _ => rfl
      | cons inp inputs ih =>
        intro p
        rw [Qwen35.arrangeAll, map_append, ih, flatMap_cons]
        refine congrArg (· ++ _) ?_
        unfold Qwen35.arrange expand
        cases hmm : inp.multimodal with
        | none => rfl
        | some mm =>
          show _ :: _ :: (replicate (mm.dim - 1) _ ++ [_]).map Prod.fst = _
          rw [map_append, map_replicate]
          unfold image
          rw [hmm]
          rfl
    exact harrange inputs 0
  | qwen3vl q =>
    have harrange : ∀ (inputs : List Input) (positionCache : List ℤ) (i : ℕ),
        (qwen3vl q).Fed inputs → (q.arrangeAll positionCache i inputs).map Prod.fst =
          inputs.flatMap (qwen3vl q).expand := by
      intro inputs
      induction inputs with
      | nil => exact fun _ _ _ => rfl
      | cons inp inputs ih =>
        intro positionCache i h
        rw [Qwen3VL.arrangeAll, map_append, ih _ _ h.tail, yieldAll_fst, flatMap_cons]
        refine congrArg (· ++ _) ?_
        cases hmm : inp.multimodal with
        | none =>
          unfold Qwen3VL.modelInputs expand
          rw [hmm]
          rfl
        | some mm =>
          rw [modelInputs_of_dim q hmm (h.dim_pos mem_cons_self hmm)]
          unfold expand
          rw [hmm]
          show _ :: _ :: (replicate (mm.dim - 1) _ ++ [_]).map Prod.fst = _
          rw [map_append, map_replicate]
          rfl
    exact harrange inputs [] 0 h

theorem multimodal_first (mm : Multimodal) : (m.first mm).multimodal = none := by
  cases m <;> rfl

theorem multimodal_image (inp : Input) (mm : Multimodal) :
    (m.image inp mm).multimodal = inp.multimodal := by
  cases m <;> rfl

theorem multimodal_row : m.row.multimodal = none := by
  cases m <;> rfl

theorem multimodal_last : m.last.multimodal = none := by
  cases m <;> rfl

theorem expand_of_image (hmm : inp.multimodal = some mm) :
    m.expand inp = m.first mm :: m.image inp mm :: (replicate (mm.dim - 1) m.row ++ [m.last]) := by
  unfold expand
  rw [hmm]

theorem imagesFrom_expand {inputs : List Input} (h : m.Fed inputs) (n : ℕ) :
    imagesFrom n (inputs.flatMap m.expand) = images n (layout inputs) := by
  induction inputs generalizing n with
  | nil => rfl
  | cons inp inputs ih =>
    have ih := ih h.tail
    rw [flatMap_cons]
    show _ = images n (inp.multimodal :: layout inputs)
    unfold expand
    cases hmm : inp.multimodal with
    | none =>
      show imagesFrom n (inp :: inputs.flatMap m.expand) = images (n + 1) (layout inputs)
      rw [imagesFrom, hmm]
      exact ih (n + 1)
    | some mm =>
      have hdim := h.dim_pos mem_cons_self hmm
      show imagesFrom n (m.first mm :: m.image inp mm ::
        (replicate (mm.dim - 1) m.row ++ [m.last]) ++ inputs.flatMap m.expand) =
          (n + 1, mm) :: images (n + (mm.dim + 2)) (layout inputs)
      rw [cons_append, cons_append, append_assoc, singleton_append,
        imagesFrom_block n (m.first mm) m.row m.last (m.image inp mm) (mm.dim - 1)
          (inputs.flatMap m.expand) (multimodal_first mm)
          ((multimodal_image inp mm).trans hmm) multimodal_row multimodal_last,
        Nat.sub_add_cancel hdim, ih]

theorem length_expand {inputs : List Input} (h : m.Fed inputs) :
    (inputs.flatMap m.expand).length = total (layout inputs) := by
  induction inputs with
  | nil => rfl
  | cons inp inputs ih =>
    rw [flatMap_cons, length_append, ih h.tail]
    refine congrArg (· + _) ?_
    unfold expand
    cases hmm : inp.multimodal with
    | none => rfl
    | some mm =>
      have hdim := h.dim_pos mem_cons_self hmm
      show (_ :: _ :: (replicate (mm.dim - 1) m.row ++ [m.last])).length = mm.dim + 2
      rw [length_cons, length_cons, length_append, length_replicate, length_singleton]
      omega

theorem Fed.of_append {a b : List Input} (h : m.Fed (a ++ b)) : m.Fed a where
  merge := h.merge
  image inp hi := h.image inp (mem_append_left _ hi)
  vision q hq hex := by
    obtain ⟨inp, hi, hmm⟩ := hex
    exact h.vision q hq ⟨inp, mem_append_left _ hi, hmm⟩

/-- An image of the layout is one of the inputs. -/
theorem exists_image {inputs : List Input} {mi : ℕ × Multimodal} {n : ℕ}
    (hmi : mi ∈ images n (layout inputs)) : ∃ a inp b, inputs = a ++ inp :: b ∧
      inp.multimodal = some mi.2 ∧ mi.1 = n + total (layout a) + 1 := by
  induction inputs generalizing n with
  | nil => cases hmi
  | cons inp inputs ih =>
    have hcons : ∀ {k}, mi ∈ images k (layout inputs) → k = n + size inp.multimodal →
        ∃ a inp' b, inp :: inputs = a ++ inp' :: b ∧ inp'.multimodal = some mi.2 ∧
          mi.1 = n + total (layout a) + 1 := by
      intro k hk hkn
      obtain ⟨a, inp', b, rfl, hmm, hmi'⟩ := ih hk
      refine ⟨inp :: a, inp', b, rfl, hmm, ?_⟩
      show _ = n + total (inp.multimodal :: layout a) + 1
      rw [total_cons]
      omega
    change mi ∈ images n (inp.multimodal :: layout inputs) at hmi
    cases hmm : inp.multimodal with
    | none =>
      rw [hmm] at hmi
      exact hcons hmi (by rw [hmm]; rfl)
    | some mm =>
      rw [hmm] at hmi
      rcases mem_cons.mp hmi with rfl | hmem
      · exact ⟨[], inp, inputs, rfl, hmm, rfl⟩
      · exact hcons hmem (by rw [hmm]; rfl)

theorem getElem?_expand {a b : List Input} (h : m.Fed (a ++ inp :: b))
    (hmm : inp.multimodal = some mm) :
    ((a ++ inp :: b).flatMap m.expand)[total (layout a)]? = some (m.first mm) ∧
      ((a ++ inp :: b).flatMap m.expand)[total (layout a) + 1]? = some (m.image inp mm) := by
  have hlen := length_expand h.of_append
  rw [flatMap_append, flatMap_cons, expand_of_image hmm, ← hlen]
  constructor
  · rw [getElem?_append_right le_rfl, Nat.sub_self]
    rfl
  · rw [getElem?_append_right (Nat.le_succ _), Nat.succ_sub le_rfl, Nat.sub_self]
    rfl

/-- A batch that cuts no group cuts no image. -/
theorem Fed.rows_le {inputs : List Input} (h : m.Fed inputs) {b : ℕ}
    (hb : Boundary (inputs.flatMap m.expand) b) :
    ∀ mi ∈ images 0 (layout inputs), mi.1 < b → mi.1 + mi.2.dim ≤ b := by
  rintro ⟨i, mm⟩ hmi hlt
  obtain ⟨a, inp, b', rfl, hmm, hi⟩ := exists_image hmi
  obtain ⟨hfirst, himage⟩ := getElem?_expand h hmm
  have hdim := h.dim_pos (mem_append_right _ mem_cons_self) hmm
  change 0 < mm.dim at hdim
  show i + mm.dim ≤ b
  cases m with
  | qwen35 q =>
    have := hb _ _ hfirst (by omega) (show (0 : ℤ) < (mm.dim : ℤ) + 1 by omega)
    change (total (layout a) : ℤ) + ((mm.dim : ℤ) + 1) < b at this
    omega
  | qwen3vl q =>
    have := hb _ _ himage (by omega) (show (0 : ℤ) < (mm.dim : ℤ) by omega)
    change ((total (layout a) + 1 : ℕ) : ℤ) + (mm.dim : ℤ) < b at this
    omega

theorem buildRows_congr {w w' : Grid → ℕ} {positions : List ℕ}
    {mis : List (ℕ × Multimodal)} (h : ∀ mi ∈ mis, w mi.2.grid = w' mi.2.grid) :
    buildRows w positionCache positions mis = buildRows w' positionCache positions mis := by
  have hfold : ∀ (f : ℕ → ℕ → ℕ) (row : List ℤ),
      mis.foldl (fun row mi => addOffsets row mi.1 mi.2.dim (f · (w mi.2.grid))) row =
        mis.foldl (fun row mi => addOffsets row mi.1 mi.2.dim (f · (w' mi.2.grid))) row :=
    fun f row => foldl_ext _ _ _ fun row mi hmi => by rw [h mi hmi]
  exact cons_eq_cons.mpr ⟨rfl, cons_eq_cons.mpr ⟨hfold (· / ·) _,
    cons_eq_cons.mpr ⟨hfold (· % ·) _, rfl⟩⟩⟩

/-- **The positions that `Forward` derives**, in every batch that cuts no group. -/
theorem Fed.buildPositions_eq {inputs : List Input} (h : m.Fed inputs) (positionCache : List ℤ)
    {start len : ℕ} (hstart : Boundary (inputs.flatMap m.expand) start) :
    m.buildPositions positionCache (batchAt (inputs.flatMap m.expand) start len) =
      Rotary.rows (positionOf m.columns positionCache (layout inputs)) start len := by
  have hrows := @buildRows_eq m.columns positionCache (inputs.flatMap m.expand) (layout inputs)
    (imagesFrom_expand h 0) start len (h.rows_le hstart)
  rw [← hrows]
  have himage : ∀ mi ∈ (batchAt (inputs.flatMap m.expand) start len).multimodal,
      ∃ inp ∈ inputs, inp.multimodal = some mi.2 := by
    intro mi hmi
    obtain ⟨j, inp, hj, hmm, -⟩ := mem_imagesFrom.mp hmi
    have hmem := mem_of_mem_drop (mem_of_mem_take (mem_of_getElem? hj))
    obtain ⟨k, hk⟩ := getElem?_of_mem hmem
    have hmem' : (k, mi.2) ∈ imagesFrom 0 (inputs.flatMap m.expand) :=
      mem_imagesFrom.mpr ⟨k, inp, hk, hmm, (Nat.zero_add k).symm⟩
    rw [imagesFrom_expand h 0] at hmem'
    obtain ⟨a, inp', b, rfl, hmm', -⟩ := exists_image hmem'
    exact ⟨inp', mem_append_right _ mem_cons_self, hmm'⟩
  cases m with
  | qwen3vl q => rfl
  | qwen35 q =>
    show q.buildPositions _ _ = _
    unfold Qwen35.buildPositions
    rw [if_neg fun hnil => q.mrope (length_eq_zero_iff.mp hnil)]
    have hvision : (if q.vision = true then
        (batchAt (inputs.flatMap (qwen35 q).expand) start len).multimodal else []) =
        (batchAt (inputs.flatMap (qwen35 q).expand) start len).multimodal := by
      split
      · rfl
      · rename_i hnot
        refine (eq_nil_iff_forall_not_mem.mpr fun mi hmi => hnot ?_).symm
        obtain ⟨inp, hi, hmm⟩ := himage mi hmi
        exact h.vision q rfl ⟨inp, hi, by rw [hmm]; exact Option.some_ne_none _⟩
    rw [hvision]
    refine buildRows_congr fun mi hmi => ?_
    obtain ⟨inp, hi, hmm⟩ := himage mi hmi
    exact max_eq_right (h.columns_pos hi hmm)

end MRope

/-! ## §7  The claim about positions -/

def IsRow (inputs : List Input) (k : ℕ) : Prop :=
  ∃ mi ∈ imagesFrom 0 inputs, mi.1 ≤ k ∧ k < mi.1 + mi.2.dim

/-- **Positions that advance**: `pos` is what `Forward` derives in every batch that cuts no
group; texts and markers come after all inputs before them; the rows of an image count up from
its start marker; generated tokens go on from the last input. -/
structure MRope.Advances (m : MRope) (inputs : List Input) (pos : ℕ → Rotary) : Prop where
  derived : ∀ start len, Boundary ((m.postTokenize inputs).map Prod.fst) start →
    Boundary ((m.postTokenize inputs).map Prod.fst) (start + len) →
      m.buildPositions ((m.postTokenize inputs).map Prod.snd)
        (batchAt ((m.postTokenize inputs).map Prod.fst) start len) = Rotary.rows pos start len
  before : ∀ k k', k < k' → k' < (m.postTokenize inputs).length →
    ¬IsRow ((m.postTokenize inputs).map Prod.fst) k' → (pos k).Before (pos k')
  image : ∀ mi ∈ imagesFrom 0 ((m.postTokenize inputs).map Prod.fst), ∃ s inp p,
    mi.1 = s + 1 ∧ ((m.postTokenize inputs).map Prod.fst)[s]? = some inp ∧
      inp.token = m.startToken ∧ pos s = Rotary.diag p ∧
        ∀ r < m.rows mi.2.grid, ∀ c < m.columns mi.2.grid,
          pos (mi.1 + (r * m.columns mi.2.grid + c)) = ⟨p + 1, p + 1 + r, p + 1 + c⟩
  generated : (m.postTokenize inputs = [] → ∀ n : ℕ, pos n = Rotary.diag n) ∧
    (m.postTokenize inputs ≠ [] → ∃ p, pos ((m.postTokenize inputs).length - 1) = Rotary.diag p ∧
      ∀ n : ℕ, pos ((m.postTokenize inputs).length + n) = Rotary.diag (p + 1 + n))

theorem row_iff (a : Layout) (x : Option Multimodal) (b : Layout) {j : ℕ} (hj : j < size x) :
    (∃ mi ∈ images 0 (a ++ x :: b), mi.1 ≤ total a + j ∧ total a + j < mi.1 + mi.2.dim) ↔
      ∃ mm, x = some mm ∧ 1 ≤ j ∧ j ≤ mm.dim := by
  rw [images_append, Nat.zero_add]
  constructor
  · rintro ⟨mi, hmi, hle, hlt⟩
    rcases mem_append.mp hmi with hmem | hmem
    · have := mem_images hmem
      omega
    cases x with
    | none =>
      have hb : mi ∈ images (total a + 1) b := hmem
      have := mem_images hb
      rw [size] at hj
      omega
    | some mm =>
      rw [size] at hj
      rcases mem_cons.mp hmem with rfl | hb
      · change total a + j < total a + 1 + mm.dim at hlt
        exact ⟨mm, rfl, by omega, by omega⟩
      · have := mem_images hb
        omega
  · rintro ⟨mm, rfl, h1, h2⟩
    refine ⟨(total a + 1, mm), mem_append_right _ mem_cons_self, ?_, ?_⟩
    · omega
    · show _ < total a + 1 + mm.dim
      omega

section Numbered

variable {L : Layout} {w h : Grid → ℕ} {g : Multimodal → ℕ}

theorem positionOf_numbered (a : Layout) (x : Option Multimodal) (b : Layout) {j : ℕ}
    (hj : j < size x) :
    positionOf w (numbered g (a ++ x :: b) 0) (a ++ x :: b) (total a + j) =
      blockPosition g w x (strides g a) j := by
  refine positionOf_block g w a x b hj ?_
  rw [getElem?_numbered g a x b 0 hj, zero_add]

/-- What comes before the rest of a layout stays below it. -/
theorem below_strides (hg : ∀ mm, some mm ∈ L → Spanned g w h mm) {a b : Layout}
    (hL : L = a ++ b) {k : ℕ} (hk : k < total a) :
    (positionOf w (numbered g L 0) L k).Below (strides g a) := by
  obtain ⟨a₁, y, b₁, j, rfl, rfl, hj⟩ := exists_block hk
  have hsplit : L = a₁ ++ y :: (b₁ ++ b) := by rw [hL]; simp
  have hy : ∀ mm, y = some mm → Spanned g w h mm := fun mm hmm =>
    hg mm (by rw [hsplit, hmm]; simp)
  have hpos := @positionOf_numbered w g a₁ y (b₁ ++ b) j hj
  rw [← hsplit] at hpos
  rw [hpos, strides_append, strides_cons]
  refine (below_stride hy (strides g a₁) hj).mono ?_
  have := strides_nonneg g b₁
  omega

theorem before_of_numbered (hg : ∀ mm, some mm ∈ L → Spanned g w h mm) {k k' : ℕ} (hlt : k < k')
    (hk' : k' < total L)
    (hrow : ¬∃ mi ∈ images 0 L, mi.1 ≤ k' ∧ k' < mi.1 + mi.2.dim) :
    (positionOf w (numbered g L 0) L k).Before (positionOf w (numbered g L 0) L k') := by
  obtain ⟨a, x, b, j, hL, rfl, hj⟩ := exists_block hk'
  have hpos : ∀ {i}, i < size x → positionOf w (numbered g L 0) L (total a + i) =
      blockPosition g w x (strides g a) i := by
    intro i hi
    rw [hL]
    exact positionOf_numbered a x b hi
  rw [hpos hj]
  rcases Nat.eq_zero_or_pos j with rfl | hpos0
  · rw [blockPosition_zero]
    exact Rotary.before_diag_iff.mpr (below_strides hg hL hlt)
  -- a marker that is not the first of its block is the end of an image
  rw [hL, row_iff a x b hj] at hrow
  cases x with
  | none =>
    rw [size] at hj
    omega
  | some mm =>
    rw [size] at hj
    have hend : j = mm.dim + 1 := by
      by_contra hne
      exact hrow ⟨mm, rfl, hpos0, by omega⟩
    subst hend
    rw [blockPosition_last]
    refine Rotary.before_diag_iff.mpr ?_
    have hmm := hg mm (by rw [hL]; simp)
    rcases Nat.lt_or_ge k (total a) with hbefore | hge
    · refine (below_strides hg hL hbefore).mono ?_
      omega
    · obtain ⟨i, rfl⟩ : ∃ i, k = total a + i := ⟨k - total a, by omega⟩
      rw [hpos (show i < mm.dim + 2 by omega)]
      exact hmm.below _ (by omega)

/-- The last input of a layout has one position in all components, and the text after it goes
on. -/
theorem generated_of_numbered (hL : L ≠ []) :
    positionOf w (numbered g L 0) L (total L - 1) = Rotary.diag (strides g L - 1) ∧
      ∀ n : ℕ, positionOf w (numbered g L 0) L (total L + n) =
        Rotary.diag (strides g L - 1 + 1 + n) := by
  obtain ⟨a, x, rfl⟩ : ∃ a x, L = a ++ [x] := by
    rcases L.eq_nil_or_concat with rfl | ⟨a, x, rfl⟩
    · exact absurd rfl hL
    · exact ⟨a, x, concat_eq_append⟩
  have htotal : total (a ++ [x]) = total a + size x := by
    rw [total_append, total_cons]
    rfl
  have hstrides : strides g (a ++ [x]) = strides g a + stride g x := by
    rw [strides_append, strides_cons]
    show _ + (stride g x + 0) = _
    rw [add_zero]
  have hpos : 0 < size x := by
    cases x with
    | none => exact Nat.one_pos
    | some mm => exact Nat.succ_pos _
  have hlast : blockPosition g w x (strides g a) (size x - 1) =
      Rotary.diag (strides g (a ++ [x]) - 1) := by
    rw [hstrides]
    cases x with
    | none =>
      refine (blockPosition_zero g w none _).trans (congrArg Rotary.diag ?_)
      show strides g a = strides g a + 1 - 1
      omega
    | some mm =>
      refine (blockPosition_last g w mm _).trans (congrArg Rotary.diag ?_)
      show strides g a + 1 + (g mm : ℤ) = strides g a + ((g mm : ℤ) + 2) - 1
      omega
  have hindex : total a + size x - 1 = total a + (size x - 1) := by omega
  refine ⟨?_, fun n => ?_⟩
  · rw [htotal, hindex, positionOf_numbered a x [] (by omega), hlast]
  have hoff : ∀ off, offsetAt off (images 0 (a ++ [x])) (total (a ++ [x]) + n) = 0 := by
    intro off
    refine offsetAt_eq_zero ?_
    rintro mi hmi ⟨-, hlt⟩
    have := mem_images hmi
    omega
  have hget := getElem?_numbered g a x [] 0 (j := size x - 1) (by omega)
  have hmap : mapPosition (numbered g (a ++ [x]) 0) (total (a ++ [x]) + n) =
      strides g (a ++ [x]) - 1 + 1 + n := by
    have hplace := congrArg Rotary.time hlast
    change blockPlace g x (strides g a) (size x - 1) = strides g (a ++ [x]) - 1 at hplace
    have hlen := length_numbered g (a ++ [x]) 0
    rw [zero_add, hplace, ← hindex, ← htotal, ← hlen, ← getLast?_eq_getElem?] at hget
    unfold mapPosition
    rw [getElem?_eq_none (by rw [hlen]; omega), hget]
    rw [hlen]
    push_cast
    ring
  unfold positionOf
  rw [hoff, hoff, hmap, add_zero]
  rfl

end Numbered

namespace MRope

variable {m : MRope} {inputs : List Input}

theorem mem_layout (h : some mm ∈ layout inputs) :
    ∃ inp ∈ inputs, inp.multimodal = some mm := mem_map.mp h

theorem Fed.spanned (h : m.Fed inputs) {g : Multimodal → ℕ}
    (hg : ∀ mm, some mm ∈ layout inputs → m.columns mm.grid ≤ g mm ∧ m.rows mm.grid ≤ g mm) :
    ∀ mm, some mm ∈ layout inputs → Spanned g m.columns m.rows mm := by
  intro mm hmem
  obtain ⟨inp, hi, hmm⟩ := mem_layout hmem
  obtain ⟨hwidth, hheight⟩ := hg mm hmem
  exact ⟨h.columns_pos hi hmm, by rw [(h.image inp hi mm hmm).2.2, Nat.mul_comm], hwidth, hheight⟩

theorem Fed.layout_eq (h : m.Fed inputs) :
    imagesFrom 0 ((m.postTokenize inputs).map Prod.fst) = images 0 (layout inputs) ∧
      (m.postTokenize inputs).length = total (layout inputs) := by
  have hlength := congrArg length (postTokenize_fst h)
  rw [length_map, length_expand h] at hlength
  exact ⟨by rw [postTokenize_fst h, imagesFrom_expand h], hlength⟩

theorem Fed.isRow_iff (h : m.Fed inputs) (k : ℕ) : IsRow ((m.postTokenize inputs).map Prod.fst) k ↔
      ∃ mi ∈ images 0 (layout inputs), mi.1 ≤ k ∧ k < mi.1 + mi.2.dim := by
  unfold IsRow
  rw [h.layout_eq.1]

/-- **Blocks that span their rows and columns advance.** -/
theorem Fed.advances (h : m.Fed inputs) {g : Multimodal → ℕ}
    (hplaces : m.placing.places (layout inputs) = numbered g (layout inputs) 0)
    (hg : ∀ mm, some mm ∈ layout inputs → m.columns mm.grid ≤ g mm ∧ m.rows mm.grid ≤ g mm) :
    m.Advances inputs
      (positionOf m.columns (m.placing.places (layout inputs)) (layout inputs)) := by
  obtain ⟨himages, hlength⟩ := h.layout_eq
  have hspanned := h.spanned hg
  refine ⟨?_, ?_, ?_, ?_⟩
  · intro start len hstart _
    rw [postTokenize_snd]
    rw [postTokenize_fst h] at hstart ⊢
    exact h.buildPositions_eq _ hstart
  · intro k k' hlt hk' hrow
    rw [hplaces]
    rw [hlength] at hk'
    exact before_of_numbered hspanned hlt hk' fun hex => hrow ((h.isRow_iff k').mpr hex)
  · intro mi hmi
    rw [himages] at hmi
    obtain ⟨a, inp, b, hinputs, hmm, hindex⟩ := exists_image hmi
    have hL : layout inputs = layout a ++ some mi.2 :: layout b := by
      rw [hinputs, ← hmm]
      unfold layout
      rw [map_append, map_cons]
    have hmem : inp ∈ inputs := by rw [hinputs]; exact mem_append_right _ mem_cons_self
    have hdim := (h.image inp hmem mi.2 hmm).2.2
    have hpos : ∀ {j}, j < size (some mi.2) →
        positionOf m.columns (m.placing.places (layout inputs)) (layout inputs)
          (total (layout a) + j) =
        blockPosition g m.columns (some mi.2) (strides g (layout a)) j := by
      intro j hj
      rw [hplaces, hL]
      exact positionOf_numbered (layout a) (some mi.2) (layout b) hj
    refine ⟨total (layout a), m.first mi.2, strides g (layout a), ?_, ?_, ?_, ?_, ?_⟩
    · rw [hindex, Nat.zero_add]
    · rw [postTokenize_fst h, hinputs]
      rw [hinputs] at h
      exact (getElem?_expand h hmm).1
    · cases m <;> rfl
    · exact (hpos (Nat.succ_pos _)).trans (blockPosition_zero g m.columns _ _)
    intro r hr c hc
    have hrow : r * m.columns mi.2.grid + c < mi.2.dim := by
      rw [hdim, Nat.mul_comm (m.columns mi.2.grid)]
      calc r * m.columns mi.2.grid + c < r * m.columns mi.2.grid + m.columns mi.2.grid :=
            Nat.add_lt_add_left hc _
        _ = (r + 1) * m.columns mi.2.grid := (Nat.succ_mul _ _).symm
        _ ≤ m.rows mi.2.grid * m.columns mi.2.grid := Nat.mul_le_mul_right _ hr
    rw [hindex, Nat.zero_add, Nat.add_assoc, Nat.add_comm 1, hpos (Nat.succ_lt_succ
      (hrow.trans (Nat.lt_succ_self _)))]
    exact blockPosition_row g m.columns mi.2 _ hc hrow
  · constructor
    · intro hnil n
      rw [hnil] at hlength
      have hL : layout inputs = [] := by
        cases hx : layout inputs with
        | nil => rfl
        | cons x L =>
          rw [hx, total_cons] at hlength
          cases x with
          | none => exact absurd hlength (by rw [size, length_nil]; omega)
          | some mm => exact absurd hlength (by rw [size, length_nil]; omega)
      rw [hL, places_nil]
      exact Rotary.ext rfl (add_zero _) (add_zero _)
    · intro hne
      have hL : layout inputs ≠ [] := by
        intro hL
        rw [hL] at hlength
        exact hne (length_eq_zero_iff.mp hlength)
      rw [hplaces, hlength]
      exact ⟨_, generated_of_numbered hL⟩

end MRope

/-- `qwen35` numbers block by block. -/
theorem Qwen35.places_eq (q : Qwen35) (L : Layout) (hdim : ∀ mm, some mm ∈ L → 0 < mm.dim)
    (p : ℤ) : q.spans L p = numbered (fun mm => q.gridSpan mm.grid) L p := by
  induction L generalizing p with
  | nil => rfl
  | cons x L ih =>
    have ih := ih fun mm hmm => hdim mm (mem_cons_of_mem _ hmm)
    cases x with
    | none => exact congrArg (p :: ·) (ih (p + 1))
    | some mm =>
      obtain ⟨d, hd⟩ : ∃ d, mm.dim = d + 1 :=
        ⟨mm.dim - 1, by have := hdim mm mem_cons_self; omega⟩
      have hafter : q.after (some mm) p = p + stride (fun mm => q.gridSpan mm.grid) (some mm) := by
        show p + 1 + (q.gridSpan mm.grid : ℤ) + 1 = p + ((q.gridSpan mm.grid : ℤ) + 2)
        omega
      show q.span (some mm) p ++ q.spans L (q.after (some mm) p) = block _ (some mm) p ++ _
      rw [ih, hafter]
      refine congrArg (· ++ _) ?_
      show p :: (p + 1) :: (replicate (mm.dim - 1) (p + 1) ++ _) =
        p :: (replicate mm.dim (p + 1) ++ _)
      rw [hd, replicate_succ]
      rfl

namespace Qwen3VL

variable (q : Qwen3VL)

def span (mm : Multimodal) : ℕ := mm.grid.width / q.spatialMergeSize

theorem resolve_of_ne_zero {s : List ℤ} (hs : ∀ e ∈ s, e ≠ 0) (positionCache : List ℤ) :
    resolve positionCache s = s := by
  induction s generalizing positionCache with
  | nil => rfl
  | cons e s ih =>
    have he : nextPosition positionCache e = e := by
      unfold nextPosition
      cases positionCache.getLast? with
      | none => rfl
      | some last => exact if_neg (hs e mem_cons_self)
    show nextPosition positionCache e :: resolve _ s = e :: s
    rw [he, ih fun e' he' => hs e' (mem_cons_of_mem _ he')]

theorem marks_eq (hdim : 0 < mm.dim) (i : ℕ) :
    q.marks (some mm) i = block q.span (some mm) i := by
  unfold marks
  rw [modelInputs_of_dim q rfl hdim]
  show (i : ℤ) :: ((i : ℤ) + 1) :: (replicate (mm.dim - 1) _ ++ [_]).map Prod.snd =
    (i : ℤ) :: (replicate mm.dim ((i : ℤ) + 1) ++ [(i : ℤ) + 1 + (q.span mm : ℤ)])
  obtain ⟨d, hd⟩ : ∃ d, mm.dim = d + 1 := ⟨mm.dim - 1, by omega⟩
  rw [hd, Nat.add_sub_cancel, map_append, map_replicate, replicate_succ, map_singleton, cons_append]
  show _ :: _ :: (_ ++ [(i : ℤ) + (q.span mm : ℤ) + 1]) = _
  rw [add_right_comm (i : ℤ)]

/-- An image keeps its own marks; at the very start of the inputs its 0 stays. -/
theorem resolve_marks (hdim : 0 < mm.dim) {i : ℕ}
    (hstart : i = 0 → positionCache = []) :
    resolve positionCache (q.marks (some mm) i) = block q.span (some mm) i := by
  rw [q.marks_eq hdim]
  have hne : ∀ e ∈ replicate mm.dim ((i : ℤ) + 1) ++ [(i : ℤ) + 1 + (q.span mm : ℤ)], e ≠ 0 := by
    intro e he
    rcases mem_append.mp he with hrow | hend
    · rw [eq_of_mem_replicate hrow]
      omega
    · rw [mem_singleton.mp hend]
      omega
  have hfirst : nextPosition positionCache (i : ℤ) = i := by
    rcases Nat.eq_zero_or_pos i with rfl | hpos
    · rw [hstart rfl]
      rfl
    · unfold nextPosition
      cases positionCache.getLast? with
      | none => rfl
      | some last => exact if_neg (by omega)
  show nextPosition positionCache (i : ℤ) :: resolve _ (replicate mm.dim ((i : ℤ) + 1) ++
    [(i : ℤ) + 1 + (q.span mm : ℤ)]) = _
  rw [hfirst, resolve_of_ne_zero hne]
  rfl

/-- Texts go on from the last position. -/
theorem spans_texts (n : ℕ) {i : ℕ} {p : ℤ}
    (hp : Lib.continued positionCache positionCache.length = p) :
    q.spans positionCache i (replicate n none) = numbered q.span (replicate n none) p := by
  induction n generalizing i positionCache p with
  | zero => rfl
  | succ n ih =>
    have hone : resolve positionCache (q.marks none i) = [p] := by
      show [nextPosition positionCache 0] = [p]
      rw [nextPosition_zero, hp]
    show resolve positionCache (q.marks none i) ++ _ = [p] ++ numbered q.span _ (p + 1)
    have hnext : Lib.continued (positionCache ++ [p]) (positionCache ++ [p]).length = p + 1 := by
      have hlen : (positionCache ++ [p]).length = positionCache.length + 1 := by simp
      rw [hlen, Lib.continued_past _ _ le_rfl]
      push_cast
      ring
    rw [hone, ih hnext]

/-- Texts and one image are numbered block by block. -/
theorem spans_one (hdim : 0 < mm.dim) (n n' : ℕ) :
    q.spans [] 0 (replicate n none ++ some mm :: replicate n' none) =
      numbered q.span (replicate n none ++ some mm :: replicate n' none) 0 := by
  have hstrides : strides q.span (replicate n none) = n := by
    unfold strides
    rw [map_replicate, sum_replicate, nsmul_eq_mul]
    exact mul_one _
  rw [spans_append, numbered_append, q.spans_texts n (Lib.continued_nil 0), hstrides,
    length_replicate, nil_append, Nat.zero_add, Nat.cast_zero, zero_add]
  refine congrArg (_ ++ ·) ?_
  have hstart : n = 0 → numbered q.span (replicate n none) 0 = [] := by
    rintro rfl
    rfl
  have himage := q.resolve_marks hdim hstart
  show resolve _ (q.marks (some mm) n) ++ _ = block q.span (some mm) n ++ _
  rw [himage]
  refine congrArg (_ ++ ·) (q.spans_texts n' ?_)
  -- the last position is the end of the image
  have hconcat : numbered q.span (replicate n none) 0 ++ block q.span (some mm) n =
      (numbered q.span (replicate n none) 0 ++
        ((n : ℤ) :: replicate mm.dim ((n : ℤ) + 1))) ++ [(n : ℤ) + 1 + (q.span mm : ℤ)] := by
    rw [append_assoc]
    rfl
  rw [hconcat, length_append, length_singleton, Lib.continued_past _ _ le_rfl]
  show _ = (n : ℤ) + ((q.span mm : ℤ) + 2)
  push_cast
  ring

end Qwen3VL

/-! ## §8  The two models -/

/-- When `qwen3vl` numbers as it should: one image at most, no taller than wide. -/
def Qwen3VL.Flat (q : Qwen3VL) (L : Layout) : Prop :=
  L.reduceOption.length ≤ 1 ∧
    ∀ mm ∈ L.reduceOption, mm.grid.height / q.spatialMergeSize ≤ mm.grid.width / q.spatialMergeSize

/-- When the model numbers as it should. -/
def MRope.Fits (m : MRope) (inputs : List Input) : Prop :=
  match m with
  | .qwen35 _ => True
  | .qwen3vl q => q.Flat (layout inputs)

theorem texts_or_image (L : Layout) :
    (∃ n, L = replicate n none) ∨ ∃ n mm L', L = replicate n none ++ some mm :: L' := by
  induction L with
  | nil => exact Or.inl ⟨0, rfl⟩
  | cons x L ih =>
    cases x with
    | some mm => exact Or.inr ⟨0, mm, L, rfl⟩
    | none =>
      rcases ih with ⟨n, rfl⟩ | ⟨n, mm, L', rfl⟩
      · exact Or.inl ⟨n + 1, rfl⟩
      · exact Or.inr ⟨n + 1, mm, L', rfl⟩

theorem reduceOption_texts (n : ℕ) :
    (replicate n (none : Option Multimodal)).reduceOption = [] := by
  induction n with
  | zero => rfl
  | succ n ih => rw [replicate_succ, reduceOption_cons_of_none, ih]

theorem reduceOption_image (n : ℕ) (mm : Multimodal) (L : Layout) :
    (replicate n none ++ some mm :: L).reduceOption = mm :: L.reduceOption := by
  rw [reduceOption_append, reduceOption_texts, nil_append, reduceOption_cons_of_some]

theorem exists_boundary (inputs : List Input) (k : ℕ) : ∃ b, k < b ∧ Boundary inputs b := by
  refine ⟨k + 1 + inputs.length + (inputs.map fun inp => inp.sameBatch.toNat).sum, by omega, ?_⟩
  intro j inp hj _ _
  have hlt := (List.getElem?_eq_some_iff.mp hj).1
  have hle : inp.sameBatch.toNat ≤ (inputs.map fun inp => inp.sameBatch.toNat).sum :=
    le_sum_of_mem (mem_map.mpr ⟨inp, mem_of_getElem? hj, rfl⟩)
  omega

namespace MRope

variable {m : MRope} {inputs : List Input}

/-- The batches determine the positions. -/
theorem Advances.eq {pos pos' : ℕ → Rotary} (h : m.Advances inputs pos)
    (h' : ∀ start len, Boundary ((m.postTokenize inputs).map Prod.fst) start →
      m.buildPositions ((m.postTokenize inputs).map Prod.snd)
        (batchAt ((m.postTokenize inputs).map Prod.fst) start len) = Rotary.rows pos' start len) :
    pos = pos' := by
  funext k
  obtain ⟨b, hk, hb⟩ := exists_boundary ((m.postTokenize inputs).map Prod.fst) k
  have hzero : Boundary ((m.postTokenize inputs).map Prod.fst) 0 :=
    fun j inp _ hj => absurd hj (Nat.not_lt_zero j)
  have hrows := (h.derived 0 b hzero (by rwa [Nat.zero_add])).symm.trans (h' 0 b hzero)
  have hget : ∀ f f' : ℕ → ℤ, (range' 0 b).map f = (range' 0 b).map f' → f k = f' k := by
    intro f f' hmap
    have := congrArg (fun xs => xs[k]?) hmap
    simp only [getElem?_map, getElem?_range' hk, Nat.zero_add, Nat.one_mul,
      Option.map_some, Option.some.injEq] at this
    exact this
  obtain ⟨ht, hrest⟩ := cons.inj hrows
  obtain ⟨hh, hrest⟩ := cons.inj hrest
  obtain ⟨hw, -⟩ := cons.inj hrest
  exact Rotary.ext (hget _ _ ht) (hget _ _ hh) (hget _ _ hw)

theorem Advances.eq_positionOf {pos : ℕ → Rotary} (hfed : m.Fed inputs)
    (h : m.Advances inputs pos) :
    pos = positionOf m.columns (m.placing.places (layout inputs)) (layout inputs) := by
  refine h.eq fun start len hstart => ?_
  rw [postTokenize_snd]
  rw [postTokenize_fst hfed] at hstart ⊢
  exact hfed.buildPositions_eq _ hstart

end MRope

/-- An image that is taller than wide ends before its last row. -/
theorem Qwen3VL.not_advances_tall (q : Qwen3VL) {inputs : List Input}
    (hfed : (qwen3vl q).Fed inputs) {n n' : ℕ}
    (hL : layout inputs = replicate n none ++ some mm :: replicate n' none)
    (htall : mm.grid.width / q.spatialMergeSize < mm.grid.height / q.spatialMergeSize)
    {pos : ℕ → Rotary} : ¬(qwen3vl q).Advances inputs pos := by
  intro hadv
  obtain rfl := hadv.eq_positionOf hfed
  obtain ⟨inp, hi, hmm⟩ := mem_layout (show some mm ∈ layout inputs by rw [hL]; simp)
  have hdim := hfed.dim_pos hi hmm
  have hcols := hfed.columns_pos hi hmm
  have hrows : mm.dim = mm.grid.width / q.spatialMergeSize * (mm.grid.height / q.spatialMergeSize) :=
    (hfed.image inp hi mm hmm).2.2
  obtain ⟨-, hlength⟩ := hfed.layout_eq
  have hplaces : (qwen3vl q).placing.places (layout inputs) =
      numbered q.span (layout inputs) 0 := by
    rw [hL]
    exact q.spans_one hdim n n'
  -- the last row of the image against its end
  obtain ⟨r, hr⟩ : ∃ r, mm.grid.height / q.spatialMergeSize = r + 1 :=
    ⟨_, (Nat.sub_add_cancel (Nat.one_le_of_lt htall)).symm⟩
  have hindex : r * (qwen3vl q).columns mm.grid + 0 < mm.dim := by
    rw [hrows, hr, Nat.mul_comm, Nat.add_zero]
    exact Nat.mul_lt_mul_of_pos_left (Nat.lt_succ_self r) hcols
  have hrow := @blockPosition_row q.span (qwen3vl q).columns mm
    (strides q.span (replicate n none)) r 0 hcols hindex
  have hend := @blockPosition_last q.span (qwen3vl q).columns mm (strides q.span (replicate n none))
  have hpos : ∀ {j}, j < size (some mm) → positionOf (qwen3vl q).columns
      ((qwen3vl q).placing.places (layout inputs)) (layout inputs) (total (replicate n none) + j) =
      blockPosition q.span (qwen3vl q).columns (some mm) (strides q.span (replicate n none)) j := by
    intro j hj
    rw [hplaces, hL]
    exact positionOf_numbered _ _ _ hj
  have hsize : size (some mm) = mm.dim + 2 := rfl
  have hnot : ¬IsRow (((qwen3vl q).postTokenize inputs).map Prod.fst)
      (total (replicate n none) + (mm.dim + 1)) := by
    rw [hfed.isRow_iff, hL, row_iff _ _ _ (by omega)]
    rintro ⟨mm', hmm', -, hle⟩
    obtain rfl := Option.some.inj hmm'
    omega
  have htotal : total (replicate n none) + (mm.dim + 1) <
      ((qwen3vl q).postTokenize inputs).length := by
    rw [hlength, hL, total_append, total_cons]
    omega
  have hbefore := hadv.before (total (replicate n none) +
    (r * (qwen3vl q).columns mm.grid + 0 + 1)) _ (by omega) htotal hnot
  rw [hpos (by omega), hpos (by omega), hrow, hend] at hbefore
  have hheight := (Rotary.before_diag_iff.mp hbefore).2.1
  change strides q.span (replicate n none) + 1 + (r : ℤ) < strides q.span (replicate n none) + 1 +
      ((mm.grid.width / q.spatialMergeSize : ℕ) : ℤ) at hheight
  omega

/-- The start marker of a second image comes no later than the input before it. -/
theorem Qwen3VL.not_advances_second (q : Qwen3VL) {inputs : List Input}
    (hfed : (qwen3vl q).Fed inputs) {n n' : ℕ} {mm mm' : Multimodal} {L : Layout}
    (hL : layout inputs = (replicate n none ++ some mm :: replicate n' none) ++ some mm' :: L)
    {pos : ℕ → Rotary} : ¬(qwen3vl q).Advances inputs pos := by
  intro hadv
  obtain rfl := hadv.eq_positionOf hfed
  have hmem : some mm ∈ layout inputs := by
    rw [hL]
    simp
  obtain ⟨inp, hi, hmm⟩ := mem_layout hmem
  have hdim := hfed.dim_pos hi hmm
  obtain ⟨inp', hi', hmm'⟩ := mem_layout (show some mm' ∈ layout inputs by rw [hL]; simp)
  have hdim' := hfed.dim_pos hi' hmm'
  obtain ⟨-, hlength⟩ := hfed.layout_eq
  generalize ha : replicate n none ++ some mm :: replicate n' none = a at hL
  have hone : q.spans [] 0 a = numbered q.span a 0 := by
    rw [← ha]
    exact q.spans_one hdim n n'
  have hlen : a.length = n + 1 + n' := by
    rw [← ha]
    simp only [length_append, length_replicate, length_cons]
    omega
  have hstrides : strides q.span a = n + ((q.span mm : ℤ) + 2) + n' := by
    have htexts : ∀ k : ℕ, strides q.span (replicate k none) = k := by
      intro k
      unfold strides
      rw [map_replicate, sum_replicate, nsmul_eq_mul]
      exact mul_one _
    rw [← ha, strides_append, strides_cons, htexts, htexts]
    show (n : ℤ) + ((q.span mm : ℤ) + 2 + n') = _
    ring
  have hne : a ≠ [] := by
    rintro rfl
    simp at hlen
    omega
  -- the places: those of the texts and the first image, then the number of the second
  have hplaces : (qwen3vl q).placing.places (layout inputs) =
      numbered q.span a 0 ++ (block q.span (some mm') (a.length : ℕ) ++
        q.spans (q.spans [] 0 a ++ block q.span (some mm') (a.length : ℕ)) (a.length + 1) L) := by
    rw [hL]
    show q.spans [] 0 (a ++ some mm' :: L) = _
    rw [q.spans_append, Nat.zero_add, nil_append, ← hone]
    refine congrArg (_ ++ ·) ?_
    show resolve _ (q.marks (some mm') a.length) ++ _ = _
    rw [q.resolve_marks hdim' fun hzero => absurd hzero (by omega)]
  have hsize : size (some mm') = mm'.dim + 2 := rfl
  have htotal : total a < ((qwen3vl q).postTokenize inputs).length := by
    rw [hlength, hL, total_append, total_cons, hsize]
    omega
  have hpos : 0 < total a := by
    rw [← ha, total_append, total_cons]
    show 0 < _ + (mm.dim + 2 + _)
    omega
  have hnot : ¬IsRow (((qwen3vl q).postTokenize inputs).map Prod.fst) (total a) := by
    have hrow := row_iff a (some mm') L (show 0 < size (some mm') by omega)
    rw [Nat.add_zero] at hrow
    rw [hfed.isRow_iff, hL, hrow]
    rintro ⟨-, -, h0, -⟩
    exact Nat.not_succ_le_zero 0 h0
  have hbefore := hadv.before (total a - 1) (total a) (by omega) htotal hnot
  have htime := (Rotary.before_iff.mp hbefore).1.1
  change mapPosition _ (total a - 1) < mapPosition _ (total a) at htime
  have hlast : ((qwen3vl q).placing.places (layout inputs))[total a - 1]? =
      some (strides q.span a - 1) := by
    have hgen := (@generated_of_numbered a (qwen3vl q).columns q.span hne).1
    have hmap := congrArg Rotary.time hgen
    change mapPosition (numbered q.span a 0) (total a - 1) = strides q.span a - 1 at hmap
    rw [hplaces, getElem?_append_left (by rw [length_numbered]; omega)]
    have hlt : total a - 1 < (numbered q.span a 0).length := by
      rw [length_numbered]
      omega
    rw [mapPosition_of_getElem? (getElem?_eq_getElem hlt)] at hmap
    rw [getElem?_eq_getElem hlt, hmap]
  have hstart : ((qwen3vl q).placing.places (layout inputs))[total a]? = some (a.length : ℤ) := by
    rw [hplaces, getElem?_append_right (by rw [length_numbered]), length_numbered, Nat.sub_self]
    rfl
  rw [mapPosition_of_getElem? hlast, mapPosition_of_getElem? hstart, hstrides, hlen] at htime
  push_cast at htime
  omega

/-- **Positions advance** for every prompt of `qwen35`, and for those of `qwen3vl` with one
image at most that is no taller than wide. -/
theorem MRope.advances_iff (m : MRope) (inputs : List Input) (h : m.Fed inputs) :
    (∃ pos, m.Advances inputs pos) ↔ m.Fits inputs := by
  have hdim : ∀ mm, some mm ∈ layout inputs → 0 < mm.dim := by
    intro mm hmem
    obtain ⟨inp, hi, hmm⟩ := mem_layout hmem
    exact h.dim_pos hi hmm
  cases m with
  | qwen35 q =>
    refine ⟨fun _ => trivial, fun _ => ⟨_, h.advances (q.places_eq _ hdim 0) fun mm _ => ?_⟩⟩
    exact ⟨le_max_left _ _, le_max_right _ _⟩
  | qwen3vl q =>
    show _ ↔ q.Flat (layout inputs)
    rcases texts_or_image (layout inputs) with ⟨n, hL⟩ | ⟨n, mm, L, hL⟩
    · -- texts only
      refine ⟨fun _ => ?_, fun _ => ⟨_, h.advances (g := q.span) ?_ ?_⟩⟩
      · rw [hL]
        constructor
        · rw [reduceOption_texts]
          exact Nat.zero_le 1
        · rw [reduceOption_texts]
          exact fun mm hmm => absurd hmm not_mem_nil
      · rw [hL]
        exact q.spans_texts n (Lib.continued_nil 0)
      · intro mm hmem
        rw [hL] at hmem
        exact absurd (eq_of_mem_replicate hmem) (Option.some_ne_none mm)
    · rcases texts_or_image L with ⟨n', rfl⟩ | ⟨n', mm', L', rfl⟩
      · -- one image
        have hreduce : (layout inputs).reduceOption = [mm] := by
          rw [hL, reduceOption_image, reduceOption_texts]
        constructor
        · rintro ⟨pos, hadv⟩
          refine ⟨by rw [hreduce]; exact le_rfl, ?_⟩
          rw [hreduce]
          intro mm' hmm'
          rw [mem_singleton.mp hmm']
          by_contra htall
          exact q.not_advances_tall h hL (Nat.lt_of_not_le htall) hadv
        · rintro ⟨-, hflat⟩
          refine ⟨_, h.advances (g := q.span) ?_ fun mm' hmem => ⟨le_rfl, ?_⟩⟩
          · rw [hL]
            exact q.spans_one (hdim mm (by rw [hL]; simp)) n n'
          · exact hflat mm' (reduceOption_mem_iff.mpr hmem)
      · -- two images
        constructor
        · rintro ⟨pos, hadv⟩
          refine absurd hadv (@Qwen3VL.not_advances_second q inputs h n n' mm mm' L' ?_ pos)
          rw [hL, append_assoc]
          rfl
        · rintro ⟨hone, -⟩
          rw [hL, reduceOption_image, reduceOption_image] at hone
          exact absurd hone (by simp)

def smallImage : Input := { multimodal := some { dim := 1, grid := { height := 2, width := 2 } } }

theorem fed_smallImages (m : MRope) (hmerge : m.spatialMergeSize = 2)
    (hvision : ∀ q, m = .qwen35 q → q.vision = true) : m.Fed [smallImage, {}, smallImage] := by
  refine ⟨by omega, ?_, fun q hq _ => hvision q hq⟩
  intro inp hi mm hmm
  have hgrid : mm = { dim := 1, grid := { height := 2, width := 2 } } := by
    simp only [mem_cons, not_mem_nil, or_false] at hi
    rcases hi with rfl | rfl | rfl
    · exact (Option.some.inj hmm).symm
    · cases hmm
    · exact (Option.some.inj hmm).symm
  subst hgrid
  refine ⟨⟨?_, Nat.two_pos⟩, ⟨?_, Nat.two_pos⟩, ?_⟩
  · rw [hmerge]
  · rw [hmerge]
  · unfold columns rows
    rw [hmerge]
    rfl

theorem advances_two_images : ∃ pos, (qwen35
    { imageToken := 1, visionStart := 2, visionEnd := 3, spatialMergeSize := 2,
      mropeSections := [1], vision := true, mrope := by simp }).Advances
        [smallImage, {}, smallImage] pos :=
  (advances_iff _ _ (fed_smallImages _ rfl (by
    intro q hq
    obtain rfl := qwen35.inj hq
    rfl))).mpr trivial

/-- `qwen3vl` numbers the start marker of a second image by its index among the inputs. -/
theorem second_image_goes_back :
    ¬∀ (m : MRope) (inputs : List Input), m.Fed inputs → ∃ pos, m.Advances inputs pos := by
  intro hall
  have hfed : (qwen3vl { spatialMergeSize := 2 }).Fed [smallImage, {}, smallImage] :=
    fed_smallImages _ rfl (fun q hq => nomatch hq)
  obtain ⟨pos, hadv⟩ := hall _ _ hfed
  exact @Qwen3VL.not_advances_second { spatialMergeSize := 2 } _ hfed 0 1 _ _ [] rfl pos hadv

end Ollama.Model
