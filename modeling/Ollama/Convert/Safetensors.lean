import Mathlib.Algebra.BigOperators.Group.List.Basic
import Mathlib.Data.List.Nodup

/-!
# Reading safetensors: model of `convert/reader_safetensors.go`

`parseSafetensors` over files of any content. The JSON decoder, which gives a map in the order of
its keys, the replacer of names and the sizes of types are parameters; `maxAlloc` is the longest
slice of bytes that `make` gives.
-/

namespace Ollama.Convert.Safetensors

open List

abbrev Name := List Char

/-! ## §1  Files -/

/-- What a file holds; its size is an `int64`. -/
structure File where
  content : List UInt8
  size : content.length < 2 ^ 63

/-- `safetensorMetadata` -/
structure Metadata where
  dtype : Name
  shape : List ℕ
  offsets : List Int64

abbrev Entry := Name × Metadata

/-- `safetensor` -/
structure Safetensor where
  path : Name
  dtype : Name
  offset : Int64
  size : Int64
  name : Name
  shape : List ℕ

inductive Outcome (α : Type) where
  | ok (a : α)
  | error
  | panics

structure Reader where
  fs : Name → Option File
  decode : List UInt8 → Option (List Entry)
  replacer : Name → Name
  dtypeSize : Name → ℕ
  maxAlloc : ℕ

/-! ## §2  `parseSafetensors` -/

variable (R : Reader)

/-- `binary.Read` of an `int64` -/
def readLength (content : List UInt8) : Int64 :=
  Int64.ofNat ((content.take 8).foldr (fun b n => b.toNat + 256 * n) 0)

def safetensorsPad (n offset : Int64) : Int64 := 8 + n + offset

/-- The length of the header and the entries that have a type, from the file at `p`. -/
def readHeader (p : Name) : Outcome (Int64 × List Entry) :=
  match R.fs p with
  | none => .error
  | some f =>
      let n := readLength f.content
      if f.content.length < 8 then .error
      else if n.toInt < 0 ∨ R.maxAlloc < n.toInt then .panics
      else if f.content.length < 8 + n.toInt then .error
      else
        match R.decode ((f.content.drop 8).take n.toInt.toNat) with
        | none => .error
        | some headers => .ok (n, headers.filter fun e => e.2.dtype ≠ [])

def tensor (p : Name) (n : Int64) (e : Entry) (first last : Int64) : Safetensor where
  path := p
  dtype := e.2.dtype
  offset := safetensorsPad n first
  size := safetensorsPad n last - safetensorsPad n first
  name := R.replacer e.1
  shape := e.2.shape

/-- The loop over the keys of a file, `names` being those so far. -/
def parseKeys (p : Name) (n : Int64) : List Name → List Entry → Outcome (List Safetensor)
  | _, [] => .ok []
  | names, e :: es =>
      if e.2.shape = [] then .error
      else if R.replacer e.1 ∈ names then .error
      else
        match e.2.offsets with
        | first :: last :: _ =>
            match parseKeys p n (R.replacer e.1 :: names) es with
            | .ok ts => .ok (tensor R p n e first last :: ts)
            | .error => .error
            | .panics => .panics
        | _ => .panics

def parseSafetensors : List Name → Outcome (List Safetensor)
  | [] => .ok []
  | p :: ps =>
      match readHeader R p with
      | .ok (n, entries) =>
          match parseKeys R p n [] entries with
          | .ok ts =>
              match parseSafetensors ps with
              | .ok later => .ok (ts ++ later)
              | .error => .error
              | .panics => .panics
          | .error => .error
          | .panics => .panics
      | .error => .error
      | .panics => .panics

/-! ## §3  What ends a loop -/

def Checked : List Name → List Entry → Prop
  | _, [] => True
  | names, e :: es => e.2.shape ≠ [] ∧ R.replacer e.1 ∉ names ∧ 2 ≤ e.2.offsets.length ∧
      Checked (R.replacer e.1 :: names) es

def Refused : List Name → List Entry → Prop
  | _, [] => False
  | names, e :: es => e.2.shape = [] ∨ R.replacer e.1 ∈ names ∨
      2 ≤ e.2.offsets.length ∧ Refused (R.replacer e.1 :: names) es

def entryTensor (p : Name) (n : Int64) (e : Entry) : Safetensor :=
  tensor R p n e (e.2.offsets.getD 0 0) (e.2.offsets.getD 1 0)

theorem parseKeys_cases (p : Name) (n : Int64) (names : List Name) (es : List Entry) :
    (Checked R names es ∧ parseKeys R p n names es = .ok (es.map (entryTensor R p n))) ∨
    (Refused R names es ∧ ¬Checked R names es ∧ parseKeys R p n names es = .error) ∨
    (¬Refused R names es ∧ ¬Checked R names es ∧ parseKeys R p n names es = .panics) := by
  induction es generalizing names with
  | nil => exact Or.inl ⟨trivial, rfl⟩
  | cons e es ih =>
    unfold parseKeys Checked Refused
    by_cases hshape : e.2.shape = []
    · simp [hshape]
    by_cases hname : R.replacer e.1 ∈ names
    · simp [hshape, hname]
    match hoff : e.2.offsets with
    | [] => simp [hshape, hname]
    | [_] => simp [hshape, hname]
    | first :: last :: _ =>
      rcases ih (R.replacer e.1 :: names) with ⟨h, heq⟩ | ⟨h, h', heq⟩ | ⟨h, h', heq⟩
      · simp [hshape, hname, h, heq, entryTensor, hoff]
      · simp [hshape, hname, h, h', heq]
      · simp [hshape, hname, h, h', heq]

/-- The file at `p` is read to its end. -/
def Accepted (p : Name) : Prop :=
  ∃ n entries, readHeader R p = .ok (n, entries) ∧ Checked R [] entries

/-- The file at `p` is missing, too short, not JSON or has an entry that is refused. -/
def Rejected (p : Name) : Prop :=
  readHeader R p = .error ∨ ∃ n entries, readHeader R p = .ok (n, entries) ∧ Refused R [] entries ∧
    ¬Checked R [] entries

/-- A file is rejected, and those before it are accepted. -/
def Stops : List Name → Prop
  | [] => False
  | p :: ps => Rejected R p ∨ Accepted R p ∧ Stops ps

def tensorsOf (p : Name) : List Safetensor :=
  match readHeader R p with
  | .ok (n, entries) => entries.map (entryTensor R p n)
  | _ => []

theorem parseSafetensors_cases (ps : List Name) :
    ((∀ p ∈ ps, Accepted R p) ∧ parseSafetensors R ps = .ok (ps.flatMap (tensorsOf R))) ∨
    (Stops R ps ∧ parseSafetensors R ps = .error) ∨
    (¬Stops R ps ∧ ¬(∀ p ∈ ps, Accepted R p) ∧ parseSafetensors R ps = .panics) := by
  induction ps with
  | nil => exact Or.inl ⟨nofun, rfl⟩
  | cons p ps ih =>
    unfold parseSafetensors Stops Rejected Accepted
    cases hheader : readHeader R p with
    | error => simp
    | panics => simp [hheader]
    | ok r =>
      obtain ⟨n, entries⟩ := r
      rcases parseKeys_cases R p n [] entries with ⟨h, heq⟩ | ⟨h, h', heq⟩ | ⟨h, h', heq⟩
      · rcases ih with ⟨hl, hleq⟩ | ⟨hl, hleq⟩ | ⟨hl, hl', hleq⟩
        · left
          refine ⟨forall_mem_cons.mpr ⟨⟨n, entries, hheader, h⟩, hl⟩, ?_⟩
          simp [heq, hleq, tensorsOf, hheader]
        · simp [heq, hleq, hl, h]
        · right; right
          refine ⟨?_, fun hall => hl' (forall_mem_cons.mp hall).2, by simp [heq, hleq]⟩
          simp [h, hl]
      · simp [heq, h, h']
      · simp [heq, h, h', hheader]

/-! ## §4  Consistent tensors -/

structure Sized (t : Safetensor) : Prop where
  inside : ∃ f, R.fs t.path = some f ∧ 8 + (readLength f.content).toInt ≤ t.offset.toInt ∧
    0 ≤ t.size.toInt ∧ t.offset.toInt + t.size.toInt ≤ f.content.length
  elements : t.size.toInt = t.shape.prod * R.dtypeSize t.dtype

/-- An error, or tensors with distinct names that can be read. -/
def Consistent : Outcome (List Safetensor) → Prop
  | .ok ts => (ts.map Safetensor.name).Nodup ∧ ∀ t ∈ ts, Sized R t
  | .error => True
  | .panics => False

/-- The two offsets of an entry are in order, in a data section of length `len`, and as far apart
as the elements take. -/
structure Fits (len : Int) (e : Entry) : Prop where
  first : 0 ≤ (e.2.offsets.getD 0 0).toInt
  order : (e.2.offsets.getD 0 0).toInt ≤ (e.2.offsets.getD 1 0).toInt
  last : (e.2.offsets.getD 1 0).toInt ≤ len
  elements : (e.2.offsets.getD 1 0).toInt - (e.2.offsets.getD 0 0).toInt =
    e.2.shape.prod * R.dtypeSize e.2.dtype

/-- What an accepted file has to hold. -/
def FileFits (p : Name) : Prop :=
  ∃ f n entries, R.fs p = some f ∧ readHeader R p = .ok (n, entries) ∧
    ∀ e ∈ entries, Fits R (f.content.length - (8 + n.toInt)) e

/-- The names that a file gives to its entries. -/
def namesOf (p : Name) : List Name :=
  match readHeader R p with
  | .ok (_, entries) => entries.map fun e => R.replacer e.1
  | _ => []

variable {R}

theorem readHeader_ok {p : Name} {n : Int64} {entries : List Entry}
    (h : readHeader R p = .ok (n, entries)) : ∃ f, R.fs p = some f ∧ n = readLength f.content ∧
      0 ≤ n.toInt ∧ 8 + n.toInt ≤ f.content.length := by
  unfold readHeader at h
  cases hf : R.fs p with
  | none =>
    rw [hf] at h
    cases h
  | some f =>
    rw [hf] at h
    simp only at h
    split at h
    · cases h
    split at h
    · cases h
    split at h
    · cases h
    next hneg hshort =>
      refine ⟨f, rfl, ?_⟩
      split at h
      · cases h
      · obtain ⟨rfl, -⟩ := Prod.mk.inj (Outcome.ok.inj h)
        exact ⟨rfl, by omega, by omega⟩

/-- A sum of offsets that overflows is not in the file. -/
theorem padded_iff {s a b len k : Int} (hs : 0 ≤ s) (hlen : s ≤ len) (hsize : len < 2 ^ 63)
    (ha : -2 ^ 63 ≤ a) (ha' : a < 2 ^ 63) (hb : -2 ^ 63 ≤ b) (hb' : b < 2 ^ 63) :
    (s ≤ (s + a).bmod (2 ^ 64) ∧ 0 ≤ ((s + b).bmod (2 ^ 64) - (s + a).bmod (2 ^ 64)).bmod (2 ^ 64) ∧
      (s + a).bmod (2 ^ 64) + ((s + b).bmod (2 ^ 64) - (s + a).bmod (2 ^ 64)).bmod (2 ^ 64) ≤ len ∧
      ((s + b).bmod (2 ^ 64) - (s + a).bmod (2 ^ 64)).bmod (2 ^ 64) = k) ↔
    0 ≤ a ∧ a ≤ b ∧ b ≤ len - s ∧ b - a = k := by
  simp only [Int.bmod_def]
  constructor
  · rintro ⟨h1, h2, h3, h4⟩
    split at h1 <;> split at h2 <;> split at h2 <;> omega
  · rintro ⟨h1, h2, h3, h4⟩
    split <;> split <;> omega

theorem sized_iff {p : Name} {f : File} {n : Int64} {e : Entry} (hf : R.fs p = some f)
    (hn : n = readLength f.content) (hpos : 0 ≤ n.toInt) (hlen : 8 + n.toInt ≤ f.content.length) :
    Sized R (entryTensor R p n e) ↔ Fits R (f.content.length - (8 + n.toInt)) e := by
  have hsize := f.size
  generalize ha : e.2.offsets.getD 0 0 = a
  generalize hb : e.2.offsets.getD 1 0 = b
  have hstart : (8 + n).toInt = 8 + n.toInt := by
    rw [Int64.toInt_add]
    exact Int.bmod_eq_of_le (by simp; omega) (by simp; omega)
  have hoffset : (entryTensor R p n e).offset.toInt = (8 + n.toInt + a.toInt).bmod (2 ^ 64) := by
    rw [entryTensor, ha, ← hstart]
    exact Int64.toInt_add _ _
  have hwidth : (entryTensor R p n e).size.toInt =
      ((8 + n.toInt + b.toInt).bmod (2 ^ 64) - (8 + n.toInt + a.toInt).bmod (2 ^ 64)).bmod
        (2 ^ 64) := by
    rw [entryTensor, ha, hb, ← hstart]
    show (safetensorsPad n b - safetensorsPad n a).toInt = _
    rw [Int64.toInt_sub, safetensorsPad, safetensorsPad, Int64.toInt_add, Int64.toInt_add (8 + n)]
  have hiff := @padded_iff (8 + n.toInt) a.toInt b.toInt f.content.length
    (e.2.shape.prod * R.dtypeSize e.2.dtype) (by omega) hlen (by omega) (Int64.le_toInt a)
    (Int64.toInt_lt a) (Int64.le_toInt b) (Int64.toInt_lt b)
  rw [← hwidth, ← hoffset] at hiff
  constructor
  · rintro ⟨⟨f', hf', h1, h2, h3⟩, h4⟩
    obtain rfl : f = f' := Option.some.inj (hf.symm.trans hf')
    obtain ⟨h5, h6, h7, h8⟩ := hiff.mp ⟨hn ▸ h1, h2, h3, h4⟩
    exact ⟨ha ▸ h5, ha ▸ hb ▸ h6, hb ▸ h7, ha ▸ hb ▸ h8⟩
  rintro ⟨h1, h2, h3, h4⟩
  rw [ha] at h1 h2 h4
  rw [hb] at h2 h3 h4
  obtain ⟨h5, h6, h7, h8⟩ := hiff.mpr ⟨h1, h2, h3, h4⟩
  exact ⟨⟨f, hf, hn ▸ h5, h6, h7⟩, h8⟩

theorem Accepted.sized_iff {p : Name} (h : Accepted R p) :
    (∀ t ∈ tensorsOf R p, Sized R t) ↔ FileFits R p := by
  obtain ⟨n, entries, hheader, -⟩ := h
  obtain ⟨f, hf, hn, hpos, hlen⟩ := readHeader_ok hheader
  have heach (e : Entry) := @Safetensors.sized_iff R p f n e hf hn hpos hlen
  simp only [tensorsOf, hheader, forall_mem_map, heach, FileFits, hf]
  constructor
  · exact fun hall => ⟨f, n, entries, rfl, rfl, hall⟩
  · rintro ⟨f', n', entries', hf', hheader', hall⟩
    cases hf'
    cases hheader'
    exact hall

theorem map_name_tensorsOf (p : Name) : (tensorsOf R p).map Safetensor.name = namesOf R p := by
  unfold tensorsOf namesOf
  cases readHeader R p with
  | ok r => rw [map_map]; rfl
  | error => rfl
  | panics => rfl

theorem not_stops {ps : List Name} (h : ∀ p ∈ ps, Accepted R p) : ¬Stops R ps := by
  induction ps with
  | nil => exact id
  | cons p ps ih =>
    obtain ⟨⟨n, entries, hheader, hchecked⟩, hps⟩ := forall_mem_cons.mp h
    rintro ((herr | ⟨n', entries', hheader', -, hnot⟩) | ⟨-, hstops⟩)
    · cases hheader.symm.trans herr
    · cases hheader.symm.trans hheader'
      exact hnot hchecked
    · exact ih hps hstops

/-- **The reader is total and consistent** exactly when a file is rejected after files that are
accepted, or all are accepted, every entry fits its file and no name comes twice. -/
theorem parseSafetensors_consistent_iff (R : Reader) (ps : List Name) :
    Consistent R (parseSafetensors R ps) ↔ Stops R ps ∨
      ((∀ p ∈ ps, Accepted R p ∧ FileFits R p) ∧ (ps.flatMap (namesOf R)).Nodup) := by
  rcases parseSafetensors_cases R ps with ⟨hall, heq⟩ | ⟨hstops, heq⟩ | ⟨hstops, hall, heq⟩
  · have hnames : (ps.flatMap (tensorsOf R)).map Safetensor.name = ps.flatMap (namesOf R) := by
      rw [map_flatMap]
      exact congrArg (ps.flatMap ·) (funext map_name_tensorsOf)
    rw [heq, Consistent, hnames, or_iff_right (not_stops hall), and_comm]
    refine and_congr_left fun _ => ?_
    constructor
    · intro h p hp
      refine ⟨hall p hp, (hall p hp).sized_iff.mp fun t ht => h t (mem_flatMap.mpr ⟨p, hp, ht⟩)⟩
    · intro h t ht
      obtain ⟨p, hp, ht⟩ := mem_flatMap.mp ht
      exact (h p hp).1.sized_iff.mpr (h p hp).2 t ht
  · rw [heq]
    exact iff_of_true trivial (Or.inl hstops)
  · rw [heq]
    exact iff_of_false id fun h => h.elim hstops fun h => hall fun p hp => (h.1 p hp).1

/-- A reader of one file, which begins with the length `-1`. -/
def negativeLength : Reader where
  fs _ := some ⟨replicate 8 255, by simp⟩
  decode _ := none
  replacer := id
  dtypeSize _ := 4
  maxAlloc := 2 ^ 48

/-- A length that is negative is given to `make`. -/
theorem negativeLength_panics :
    ¬Consistent negativeLength (parseSafetensors negativeLength ["model.safetensors".toList]) := by
  exact id

end Ollama.Convert.Safetensors
