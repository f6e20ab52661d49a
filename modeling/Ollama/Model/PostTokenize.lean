import Mathlib.Data.List.Basic
import Mathlib.Data.Int.Notation

/-!
# Groups of the multimodal models: model of `PostTokenize`

`PostTokenize` of `gemma4`, `mistral3`, `llama4`, `qwen3vl`, `qwen35` and `museglimmer`, each
of which lays multimodal inputs out as tokens and ties them together with `SameBatch`. `T` is
the type of tensors, `rows` their `Dim(1)`.
-/

namespace Ollama.Model.PostTokenize

open List

/-! ## §1  Inputs -/

/-- `input.Multimodal.Data`, as far as it is read. -/
inductive Data where
  | none
  | audioTag
  | separator (x y : Bool)
deriving DecidableEq, Repr

/-- `input.Multimodal` -/
structure Multimodal (T : Type) where
  tensor : T
  data : Data := .none
deriving DecidableEq, Repr

/-- `input.Input` -/
structure Input (T : Type) where
  token : ℤ := 0
  multimodal : List (Multimodal T) := []
  multimodalHash : ℕ := 0
  sameBatch : ℤ := 0
deriving DecidableEq, Repr

variable {T : Type} (rows : T → ℕ)

/-! ## §2  The models -/

/-- The tokens of `gemma4.Model`. -/
structure Gemma4 where
  imageTokenID : ℤ
  imageEndTokenID : ℤ
  audioTokenID : ℤ
  audioEndTokenID : ℤ
deriving DecidableEq, Repr

/-- The tokens of `qwen35.Model`. -/
structure Qwen35 where
  imageToken : ℤ
  visionStart : ℤ
  visionEnd : ℤ
deriving DecidableEq, Repr

/-- The tokens of `museglimmer.Model`. -/
structure MuseGlimmer where
  imageStartToken : ℤ
  imagePatchToken : ℤ
  imageEndToken : ℤ
deriving DecidableEq, Repr

/-- The body of the loop of `gemma4`. -/
def Gemma4.arrange (m : Gemma4) (inp : Input T) : List (Input T) :=
  match inp.multimodal with
  | [] => [inp]
  | mm :: _ =>
      let inputMultimodal := mm.tensor
      let numTokens := rows inputMultimodal
      let isAudio := mm.data = .audioTag
      let beginToken := if isAudio then m.audioTokenID else m.imageTokenID
      let endToken := if isAudio then m.audioEndTokenID else m.imageEndTokenID
      (if beginToken ≥ 0 then [{ token := beginToken, sameBatch := numTokens + 2 }] else []) ++
        { multimodal := [{ tensor := inputMultimodal }], multimodalHash := inp.multimodalHash } ::
        (List.replicate (numTokens - 1) { token := 0 } ++
          (if endToken ≥ 0 then [{ token := endToken }] else []))

/-- The rows of an image of `mistral3`. -/
def mistral3Rows (hash : ℕ) : List (Multimodal T) → List (Input T)
  | [] => []
  | row :: rest =>
      ({ token := 10, multimodal := [{ tensor := row.tensor }], multimodalHash := hash,
         sameBatch := rows row.tensor } : Input T) ::
      (List.replicate (rows row.tensor - 1) { token := 10 } ++
        { token := if rest = [] then 13 else 12 } :: mistral3Rows hash rest)

/-- The body of the loop of `mistral3`. -/
def Mistral3.arrange (inp : Input T) : List (Input T) :=
  match inp.multimodal with
  | [] => [inp]
  | mms => mistral3Rows rows inp.multimodalHash mms

/-- The `<|patch|>` tokens of a tile of `llama4`. -/
def llama4Patches (hash : ℕ) (tensor : T) : List (Input T) :=
  ({ token := 200092, multimodal := [{ tensor := tensor }], multimodalHash := hash,
     sameBatch := rows tensor } : Input T) ::
    List.replicate (rows tensor - 1) { token := 200092 }

def separators (data : Data) : List (Input T) :=
  match data with
  | .separator x y =>
      (if x then [{ token := 200084 }] else []) ++ (if y then [{ token := 200085 }] else [])
  | _ => []

/-- The tiles of an image of `llama4`. -/
def llama4Tiles (hash : ℕ) : List (Multimodal T) → List (Input T)
  | [] => []
  | [mm] => { token := 200090 } :: (llama4Patches rows hash mm.tensor ++ [{ token := 200080 }])
  | mm :: mms => llama4Patches rows hash mm.tensor ++ separators mm.data ++ llama4Tiles hash mms

/-- The body of the loop of `llama4`. -/
def Llama4.arrange (inp : Input T) : List (Input T) :=
  match inp.multimodal with
  | [] => [inp]
  | mms => { token := 200080 } :: llama4Tiles rows inp.multimodalHash mms

/-- The slice `s` of `qwen3vl`. -/
def Qwen3VL.arrange (inp : Input T) : List (Input T) :=
  match inp.multimodal with
  | [] => [inp]
  | mm :: _ =>
      let s : List (Input T) := List.replicate (rows mm.tensor + 1 + 1) { token := 151655 }
      let s := s.set 0 { token := 151652 }
      let s := s.set (s.length - 1) { token := 151653 }
      s.set 1 { token := 151655, multimodal := inp.multimodal, multimodalHash := inp.multimodalHash,
                sameBatch := rows mm.tensor }

/-- The body of the loop of `qwen35`. -/
def Qwen35.arrange (m : Qwen35) (inp : Input T) : List (Input T) :=
  match inp.multimodal with
  | [] => [inp]
  | mm :: _ =>
      let tokensPerGrid := rows mm.tensor
      { token := m.visionStart, sameBatch := tokensPerGrid + 1 } ::
      { token := m.imageToken, multimodal := inp.multimodal,
        multimodalHash := inp.multimodalHash } ::
      (List.replicate (tokensPerGrid - 1) { token := m.imageToken } ++ [{ token := m.visionEnd }])

/-- The body of the loop of `museglimmer`. -/
def MuseGlimmer.arrange (m : MuseGlimmer) (inp : Input T) : List (Input T) :=
  match inp.multimodal with
  | [] => [inp]
  | mm :: _ =>
      let numTokens := rows mm.tensor
      { token := m.imageStartToken } ::
      { token := m.imagePatchToken, multimodal := inp.multimodal,
        multimodalHash := inp.multimodalHash, sameBatch := numTokens } ::
      (List.replicate (numTokens - 1) { token := m.imagePatchToken } ++
        [{ token := m.imageEndToken }])

/-- The models. -/
inductive VisionModel where
  | gemma4 (m : Gemma4)
  | mistral3
  | llama4
  | qwen3vl
  | qwen35 (m : Qwen35)
  | museglimmer (m : MuseGlimmer)

namespace VisionModel

/-- What the loop appends for one input. -/
def arrange : VisionModel → Input T → List (Input T)
  | gemma4 m => m.arrange rows
  | mistral3 => Mistral3.arrange rows
  | llama4 => Llama4.arrange rows
  | qwen3vl => Qwen3VL.arrange rows
  | qwen35 m => m.arrange rows
  | museglimmer m => m.arrange rows

/-- `(*Model).PostTokenize` -/
def postTokenize (m : VisionModel) (inputs : List (Input T)) : List (Input T) :=
  inputs.flatMap (m.arrange rows)

/-- The placeholder for a further row. -/
def placeholder : VisionModel → Input T
  | gemma4 _ => { token := 0 }
  | mistral3 => { token := 10 }
  | llama4 => { token := 200092 }
  | qwen3vl => { token := 151655 }
  | qwen35 m => { token := m.imageToken }
  | museglimmer m => { token := m.imagePatchToken }

end VisionModel

/-! ## §3  Exact groups -/

/-- Input `s` starts a group of itself and the `n` inputs after it. -/
def Group (xs : List (Input T)) (s : ℕ) (n : ℤ) : Prop :=
  ∃ x, xs[s]? = some x ∧ 0 < x.sameBatch ∧ x.sameBatch = n

/-- Groups are within the list and apart from each other, and an input that carries tensors
is followed by a placeholder for each further row, in one group with them. -/
structure Exact (placeholder : Input T) (xs : List (Input T)) : Prop where
  inside : ∀ s n, Group xs s n → s + n < xs.length
  apart : ∀ s n s' n', Group xs s n → Group xs s' n' → s < s' → s + n < s'
  carried : ∀ j x mm, xs[j]? = some x → mm ∈ x.multimodal →
    (∃ s n, Group xs s n ∧ s ≤ j ∧ (j : ℤ) + rows mm.tensor ≤ s + n + 1) ∧
      ∀ i, 0 < i → i < rows mm.tensor → xs[j + i]? = some placeholder

/-- The tensors that inputs carry. -/
def tensors (xs : List (Input T)) : List T := xs.flatMap fun x => x.multimodal.map (·.tensor)

namespace VisionModel

/-- Where what input `i` becomes starts. -/
def place (m : VisionModel) (inputs : List (Input T)) (i : ℕ) : ℕ :=
  (m.postTokenize rows (inputs.take i)).length

/-- **What `PostTokenize` is to give**: the texts unchanged and in order and in no group, each
tensor once, and exact groups. -/
structure ExactGroups (m : VisionModel) (inputs : List (Input T)) : Prop where
  texts : ∀ i inp, inputs[i]? = some inp → inp.multimodal = [] →
    (m.postTokenize rows inputs)[m.place rows inputs i]? = some inp ∧
      ∀ s n, Group (m.postTokenize rows inputs) s n →
        ¬(s ≤ m.place rows inputs i ∧ (m.place rows inputs i : ℤ) ≤ s + n)
  order : ∀ i i', i < i' → i' < inputs.length → m.place rows inputs i < m.place rows inputs i'
  once : tensors (m.postTokenize rows inputs) = tensors inputs
  exact : Exact rows m.placeholder (m.postTokenize rows inputs)

/-- The models whose inputs carry all the tensors of an image, one of its embedding and the
others added to that. -/
def Whole : VisionModel → Prop
  | qwen3vl | qwen35 _ | museglimmer _ => True
  | _ => False

/-- What `EncodeMultimodal` and the tokenizer give: texts tie nothing together, each tensor has
a row, each tile of `llama4` but the last has a separator, and tensors that go together have as
many rows. -/
structure Encoded (m : VisionModel) (inputs : List (Input T)) : Prop where
  text : ∀ inp ∈ inputs, inp.multimodal = [] → inp.sameBatch = 0
  nonempty : ∀ inp ∈ inputs, ∀ mm ∈ inp.multimodal, 0 < rows mm.tensor
  gemma4 : ∀ g, m = gemma4 g → (0 ≤ g.imageTokenID ∧ 0 ≤ g.imageEndTokenID ∧
    0 ≤ g.audioTokenID ∧ 0 ≤ g.audioEndTokenID) ∧ ∀ inp ∈ inputs, inp.multimodal.length ≤ 1
  llama4 : m = llama4 → ∀ inp ∈ inputs, ∀ mm ∈ inp.multimodal.dropLast,
    mm.data = .separator true false ∨ mm.data = .separator false true
  whole : m.Whole → ∀ inp ∈ inputs, ∀ mm ∈ inp.multimodal, ∀ mm' ∈ inp.multimodal,
    rows mm.tensor = rows mm'.tensor

end VisionModel

/-! ## §4  Segments -/

variable {rows} {placeholder : Input T} {xs ys : List (Input T)}

theorem group_append_left {s : ℕ} {n : ℤ} (h : Group xs s n) : Group (xs ++ ys) s n := by
  obtain ⟨x, hx, hpos, hn⟩ := h
  have hlt := (List.getElem?_eq_some_iff.mp hx).1
  exact ⟨x, by rwa [getElem?_append_left hlt], hpos, hn⟩

theorem group_append_right {s : ℕ} {n : ℤ} (h : Group ys s n) :
    Group (xs ++ ys) (xs.length + s) n := by
  obtain ⟨x, hx, hpos, hn⟩ := h
  refine ⟨x, ?_, hpos, hn⟩
  rwa [getElem?_append_right (Nat.le_add_right _ _), Nat.add_sub_cancel_left]

theorem group_append_cases {s : ℕ} {n : ℤ} (h : Group (xs ++ ys) s n) :
    (s < xs.length ∧ Group xs s n) ∨ ∃ t, s = xs.length + t ∧ Group ys t n := by
  obtain ⟨x, hx, hpos, hn⟩ := h
  rcases Nat.lt_or_ge s xs.length with hlt | hge
  · rw [getElem?_append_left hlt] at hx
    exact Or.inl ⟨hlt, x, hx, hpos, hn⟩
  · rw [getElem?_append_right hge] at hx
    exact Or.inr ⟨s - xs.length, by omega, x, hx, hpos, hn⟩

theorem Exact.nil : Exact rows placeholder ([] : List (Input T)) where
  inside := by
    rintro s n ⟨x, hx, -⟩
    cases hx
  apart := by
    rintro s n s' n' ⟨x, hx, -⟩
    cases hx
  carried := by
    rintro j x mm hx
    cases hx

/-- Segments one after the other. -/
theorem Exact.append (hx : Exact rows placeholder xs) (hy : Exact rows placeholder ys) :
    Exact rows placeholder (xs ++ ys) where
  inside := by
    intro s n h
    rw [length_append]
    rcases group_append_cases h with ⟨-, hleft⟩ | ⟨t, rfl, hright⟩
    · have := hx.inside s n hleft
      omega
    · have := hy.inside t n hright
      omega
  apart := by
    intro s n s' n' h h' hlt
    rcases group_append_cases h with ⟨-, hleft⟩ | ⟨t, rfl, hright⟩
    · rcases group_append_cases h' with ⟨-, hleft'⟩ | ⟨t', rfl, -⟩
      · exact hx.apart s n s' n' hleft hleft' hlt
      · have := hx.inside s n hleft
        omega
    · rcases group_append_cases h' with ⟨hlt', -⟩ | ⟨t', rfl, hright'⟩
      · omega
      · have := hy.apart t n t' n' hright hright' (by omega)
        omega
  carried := by
    intro j x mm hj hmm
    rcases Nat.lt_or_ge j xs.length with hlt | hge
    · rw [getElem?_append_left hlt] at hj
      obtain ⟨⟨s, n, hgroup, hs, hn⟩, hplaces⟩ := hx.carried j x mm hj hmm
      refine ⟨⟨s, n, group_append_left hgroup, hs, hn⟩, fun i h0 hi => ?_⟩
      have := hplaces i h0 hi
      rwa [getElem?_append_left (List.getElem?_eq_some_iff.mp this).1]
    · obtain ⟨k, rfl⟩ : ∃ k, j = xs.length + k := ⟨j - xs.length, by omega⟩
      rw [getElem?_append_right hge, Nat.add_sub_cancel_left] at hj
      obtain ⟨⟨s, n, hgroup, hs, hn⟩, hplaces⟩ := hy.carried k x mm hj hmm
      refine ⟨⟨xs.length + s, n, group_append_right hgroup, by omega, by push_cast; omega⟩,
        fun i h0 hi => ?_⟩
      rw [Nat.add_assoc, getElem?_append_right (Nat.le_add_right _ _), Nat.add_sub_cancel_left]
      exact hplaces i h0 hi

/-- An input on its own. -/
theorem Exact.single {x : Input T} (hmm : x.multimodal = []) (hbatch : x.sameBatch = 0) :
    Exact rows placeholder [x] where
  inside := by
    rintro s n ⟨y, hy, hpos, -⟩
    obtain rfl := mem_singleton.mp (mem_of_getElem? hy)
    omega
  apart := by
    rintro s n s' n' ⟨y, hy, hpos, -⟩
    obtain rfl := mem_singleton.mp (mem_of_getElem? hy)
    omega
  carried := by
    intro j y mm hy hy'
    obtain rfl := mem_singleton.mp (mem_of_getElem? hy)
    rw [hmm] at hy'
    cases hy'

/-- A group that is the whole segment, with one input that carries tensors. -/
theorem Exact.image {first x : Input T} {rest pre post : List (Input T)} {d : ℕ}
    (hsplit : first :: rest = pre ++ x :: (List.replicate d placeholder ++ post))
    (hx : ∀ mm ∈ x.multimodal, rows mm.tensor = d + 1)
    (hpre : ∀ y ∈ pre, y.multimodal = []) (hpost : ∀ y ∈ post, y.multimodal = [])
    (hplaceholder : placeholder.multimodal = []) (hne : rest ≠ [])
    (hfirst : first.sameBatch = rest.length) (hrest : ∀ y ∈ rest, y.sameBatch = 0) :
    Exact rows placeholder (first :: rest) := by
  have hgroup : ∀ s n, Group (first :: rest) s n → s = 0 ∧ n = rest.length := by
    rintro s n ⟨y, hy, hpos, rfl⟩
    cases s with
    | zero =>
      obtain rfl := Option.some.inj hy
      exact ⟨rfl, hfirst⟩
    | succ s =>
      have := hrest y (mem_of_getElem? (getElem?_cons_succ ▸ hy))
      omega
  have hlength : rest.length = pre.length + (d + post.length) := by
    have := congrArg List.length hsplit
    simp only [length_cons, length_append, length_replicate] at this
    omega
  have hzero : Group (first :: rest) 0 rest.length := by
    refine ⟨first, rfl, ?_, hfirst⟩
    have := length_pos_iff.mpr hne
    omega
  refine ⟨?_, ?_, ?_⟩
  · intro s n h
    obtain ⟨rfl, rfl⟩ := hgroup s n h
    rw [length_cons]
    omega
  · intro s n s' n' h h' hlt
    obtain ⟨rfl, rfl⟩ := hgroup s' n' h'
    omega
  intro j y mm hj hmm
  have hj' : j = pre.length ∧ y = x := by
    rw [hsplit] at hj
    rcases Nat.lt_trichotomy j pre.length with hlt | rfl | hgt
    · rw [getElem?_append_left hlt] at hj
      rw [hpre y (mem_of_getElem? hj)] at hmm
      cases hmm
    · rw [getElem?_append_right (Nat.le_refl _), Nat.sub_self] at hj
      exact ⟨rfl, (Option.some.inj hj).symm⟩
    obtain ⟨k, rfl⟩ : ∃ k, j = pre.length + (k + 1) := ⟨j - pre.length - 1, by omega⟩
    rw [getElem?_append_right (Nat.le_add_right _ _), Nat.add_sub_cancel_left,
      getElem?_cons_succ] at hj
    rcases mem_append.mp (mem_of_getElem? hj) with hmem | hmem
    · rw [eq_of_mem_replicate hmem, hplaceholder] at hmm
      cases hmm
    · rw [hpost y hmem] at hmm
      cases hmm
  obtain ⟨rfl, rfl⟩ := hj'
  have hrows := hx mm hmm
  refine ⟨⟨0, _, hzero, Nat.zero_le _, by omega⟩, fun i h0 hi => ?_⟩
  obtain ⟨k, rfl⟩ : ∃ k, i = k + 1 := ⟨i - 1, by omega⟩
  rw [hsplit, getElem?_append_right (Nat.le_add_right _ _), Nat.add_sub_cancel_left,
    getElem?_cons_succ, getElem?_append_left (by rw [length_replicate]; omega),
    getElem?_replicate, if_pos (by omega)]

/-- The first row carries the tensor and ties the other rows and one marker to itself. -/
theorem Exact.tile {x last : Input T} {n : ℕ} (hn : 0 < n)
    (hx : ∀ mm ∈ x.multimodal, rows mm.tensor = n) (hbatch : x.sameBatch = n) (hplaceholder : placeholder.multimodal = [])
    (hplaceholder' : placeholder.sameBatch = 0) (hlast : last.multimodal = [])
    (hlast' : last.sameBatch = 0) :
    Exact rows placeholder (x :: (List.replicate (n - 1) placeholder ++ [last])) := by
  refine @Exact.image T rows placeholder x x _ [] [last] (n - 1) rfl
    (fun mm hmm => by rw [hx mm hmm]; omega) (fun y hy => absurd hy not_mem_nil) ?_ hplaceholder ?_ ?_ ?_
  · intro y hy
    rw [mem_singleton.mp hy, hlast]
  · exact append_ne_nil_of_right_ne_nil _ (cons_ne_nil _ _)
  · rw [hbatch, length_append, length_replicate, length_singleton]
    omega
  · intro y hy
    rcases mem_append.mp hy with hmem | hmem
    · rw [eq_of_mem_replicate hmem, hplaceholder']
    · rw [mem_singleton.mp hmem, hlast']

/-! ## §5  The blocks of the models -/

theorem tensors_append (xs ys : List (Input T)) : tensors (xs ++ ys) = tensors xs ++ tensors ys :=
  flatMap_append

theorem tensors_cons (x : Input T) (xs : List (Input T)) :
    tensors (x :: xs) = x.multimodal.map (·.tensor) ++ tensors xs := flatMap_cons

theorem tensors_replicate (n : ℕ) (token : ℤ) :
    tensors (List.replicate n ({ token := token } : Input T)) = [] := by
  induction n with
  | zero => rfl
  | succ n ih => rw [replicate_succ, tensors_cons, ih]; rfl

theorem mistral3Rows_exact (hash : ℕ) (mms : List (Multimodal T))
    (hrows : ∀ mm ∈ mms, 0 < rows mm.tensor) :
    Exact rows ({ token := 10 } : Input T) (mistral3Rows rows hash mms) ∧
      tensors (mistral3Rows rows hash mms) = mms.map (·.tensor) := by
  induction mms with
  | nil => exact ⟨Exact.nil, rfl⟩
  | cons row rest ih =>
    obtain ⟨hexact, htensors⟩ := ih fun mm hmm => hrows mm (mem_cons_of_mem _ hmm)
    rw [mistral3Rows]
    generalize hlast : ({ token := if rest = [] then 13 else 12 } : Input T) = last
    have hsplit : ∀ (x : Input T) (ys : List (Input T)),
        x :: (ys ++ last :: mistral3Rows rows hash rest) =
          x :: (ys ++ [last]) ++ mistral3Rows rows hash rest := by
      intro x ys
      rw [cons_append, append_assoc]
      rfl
    rw [hsplit]
    constructor
    · refine (@Exact.tile T rows { token := 10 } _ last _ (hrows row mem_cons_self)
        ?_ rfl rfl rfl ?_ ?_).append hexact
      · intro mm hmm
        rw [mem_singleton.mp hmm]
      · rw [← hlast]
      · rw [← hlast]
    · rw [tensors_append, htensors, tensors_cons, tensors_append, tensors_replicate, ← hlast]
      rfl

/-- The tiles of `llama4`, each but the last with a separator. -/
theorem llama4Tiles_exact (hash : ℕ) (mms : List (Multimodal T))
    (hrows : ∀ mm ∈ mms, 0 < rows mm.tensor)
    (hdata : ∀ mm ∈ mms.dropLast,
      mm.data = .separator true false ∨ mm.data = .separator false true) :
    Exact rows ({ token := 200092 } : Input T) (llama4Tiles rows hash mms) ∧
      tensors (llama4Tiles rows hash mms) = mms.map (·.tensor) := by
  have htile : ∀ (mm : Multimodal T) (token : ℤ), 0 < rows mm.tensor →
      Exact rows ({ token := 200092 } : Input T)
        (llama4Patches rows hash mm.tensor ++ [{ token := token }]) ∧
      tensors (llama4Patches rows hash mm.tensor ++ [{ token := token }]) = [mm.tensor] := by
    intro mm token hmm
    constructor
    · refine @Exact.tile T rows { token := 200092 } _ _ _ hmm ?_ rfl rfl rfl rfl rfl
      intro mm' hmm'
      rw [mem_singleton.mp hmm']
    · rw [tensors_append, llama4Patches, tensors_cons, tensors_replicate]
      rfl
  induction mms with
  | nil => exact ⟨Exact.nil, rfl⟩
  | cons mm mms ih =>
    have hmm := hrows mm mem_cons_self
    cases mms with
    | nil =>
      rw [llama4Tiles]
      obtain ⟨hexact, htensors⟩ := htile mm 200080 hmm
      constructor
      · exact (@Exact.single T rows { token := 200092 } { token := 200090 } rfl rfl).append hexact
      · rw [tensors_cons, htensors]
        rfl
    | cons mm' mms =>
      obtain ⟨hexact, htensors⟩ := ih (fun x hx => hrows x (mem_cons_of_mem _ hx))
        (fun x hx => hdata x (mem_cons_of_mem _ hx))
      have hseparator : ∃ token, separators mm.data = [({ token := token } : Input T)] := by
        rcases hdata mm mem_cons_self with hx | hy
        · exact ⟨200084, by rw [hx]; rfl⟩
        · exact ⟨200085, by rw [hy]; rfl⟩
      obtain ⟨token, htoken⟩ := hseparator
      obtain ⟨hfirst, htensor⟩ := htile mm token hmm
      rw [llama4Tiles, htoken]
      · constructor
        · exact hfirst.append hexact
        · rw [tensors_append, htensor, htensors]
          rfl
      · exact cons_ne_nil _ _

/-- What `qwen3vl` appends for an image. -/
theorem qwen3VL_arrange_eq {inp : Input T} {mm : Multimodal T} {mms : List (Multimodal T)}
    (hmm : inp.multimodal = mm :: mms) (hrows : 0 < rows mm.tensor) :
    Qwen3VL.arrange rows inp = { token := 151652 } ::
      { token := 151655, multimodal := inp.multimodal, multimodalHash := inp.multimodalHash,
        sameBatch := rows mm.tensor } ::
      (List.replicate (rows mm.tensor - 1) { token := 151655 } ++ [{ token := 151653 }]) := by
  obtain ⟨d, hd⟩ : ∃ d, rows mm.tensor = d + 1 := ⟨rows mm.tensor - 1, by omega⟩
  have hset : ∀ (d : ℕ) (x y : Input T),
      (x :: List.replicate d x).set d y = List.replicate d x ++ [y] := by
    intro d x y
    induction d with
    | zero => rfl
    | succ d ih =>
      rw [replicate_succ, set_cons_succ, ih]
      rfl
  unfold Qwen3VL.arrange
  rw [hmm]
  simp only [hd, replicate_succ, set_cons_zero, length_cons, length_replicate,
    Nat.add_sub_cancel, set_cons_succ, hset]

namespace VisionModel

variable {m : VisionModel} {inp : Input T}

theorem arrange_text (hmm : inp.multimodal = []) : m.arrange rows inp = [inp] := by
  cases m with
  | gemma4 g => show Gemma4.arrange rows g inp = _; rw [Gemma4.arrange, hmm]
  | mistral3 => show Mistral3.arrange rows inp = _; rw [Mistral3.arrange, hmm]
  | llama4 => show Llama4.arrange rows inp = _; rw [Llama4.arrange, hmm]
  | qwen3vl => show Qwen3VL.arrange rows inp = _; rw [Qwen3VL.arrange, hmm]
  | qwen35 q => show Qwen35.arrange rows q inp = _; rw [Qwen35.arrange, hmm]
  | museglimmer g => show MuseGlimmer.arrange rows g inp = _; rw [MuseGlimmer.arrange, hmm]

/-- The image of `gemma4`, with the tokens that are in the vocabulary. -/
theorem gemma4_arrange_eq {g : Gemma4} {mm : Multimodal T} (hmm : inp.multimodal = [mm])
    (hbegin : 0 ≤ g.imageTokenID) (hend : 0 ≤ g.imageEndTokenID) (hbegin' : 0 ≤ g.audioTokenID)
    (hend' : 0 ≤ g.audioEndTokenID) : ∃ beginToken endToken : ℤ, Gemma4.arrange rows g inp =
        { token := beginToken, sameBatch := rows mm.tensor + 2 } ::
        { multimodal := [{ tensor := mm.tensor }], multimodalHash := inp.multimodalHash } ::
        (List.replicate (rows mm.tensor - 1) { token := 0 } ++ [{ token := endToken }]) := by
  unfold Gemma4.arrange
  rw [hmm]
  by_cases haudio : mm.data = .audioTag
  · refine ⟨g.audioTokenID, g.audioEndTokenID, ?_⟩
    simp only [haudio, if_true, ge_iff_le, hbegin', hend', singleton_append]
  · refine ⟨g.imageTokenID, g.imageEndTokenID, ?_⟩
    simp only [haudio, if_false, if_true, ge_iff_le, hbegin, hend, singleton_append]

/-- **One block**: every model but `gemma4` lays an image out in exact groups. -/
theorem arrange_exact {inputs : List (Input T)} (h : m.Encoded rows inputs) (hi : inp ∈ inputs)
    (hm : ∀ g, m = gemma4 g → inp.multimodal = []) :
    Exact rows m.placeholder (m.arrange rows inp) := by
  cases hmm : inp.multimodal with
  | nil =>
    rw [arrange_text hmm]
    exact Exact.single hmm (h.text inp hi hmm)
  | cons mm mms =>
    have hrows := h.nonempty inp hi
    have hpos := hrows mm (by rw [hmm]; exact mem_cons_self)
    have hwhole : m.Whole → ∀ mm' ∈ inp.multimodal, rows mm'.tensor = rows mm.tensor :=
      fun hm mm' hmm' => h.whole hm inp hi mm' hmm' mm (by rw [hmm]; exact mem_cons_self)
    cases m with
    | gemma4 g =>
      rw [hm g rfl] at hmm
      cases hmm
    | mistral3 =>
      show Exact rows _ (Mistral3.arrange rows inp)
      rw [Mistral3.arrange, hmm]
      exact (mistral3Rows_exact _ _ (hmm ▸ hrows)).1
    | llama4 =>
      show Exact rows _ (Llama4.arrange rows inp)
      rw [Llama4.arrange, hmm]
      have htiles := llama4Tiles_exact inp.multimodalHash (mm :: mms) (hmm ▸ hrows)
        (hmm ▸ h.llama4 rfl inp hi)
      exact (@Exact.single T rows { token := 200092 } { token := 200080 } rfl rfl).append htiles.1
    | qwen3vl =>
      show Exact rows _ (Qwen3VL.arrange rows inp)
      rw [qwen3VL_arrange_eq hmm hpos]
      exact (@Exact.single T rows { token := 151655 } { token := 151652 } rfl rfl).append
        (Exact.tile hpos (hwhole trivial) rfl rfl rfl rfl rfl)
    | museglimmer g =>
      show Exact rows _ (MuseGlimmer.arrange rows g inp)
      rw [MuseGlimmer.arrange, hmm]
      exact (@Exact.single T rows { token := g.imagePatchToken } { token := g.imageStartToken }
        rfl rfl).append (@Exact.tile T rows { token := g.imagePatchToken } _ _ _ hpos
          (hmm ▸ hwhole trivial) rfl rfl rfl rfl rfl)
    | qwen35 q =>
      show Exact rows _ (Qwen35.arrange rows q inp)
      rw [Qwen35.arrange, hmm]
      -- the start marker ties the whole image to itself
      refine @Exact.image T rows { token := q.imageToken } _ _ _ [_] [_]
        (rows mm.tensor - 1) rfl ?_ ?_ ?_ rfl (cons_ne_nil _ _) ?_ ?_
      · intro mm' hmm'
        rw [hwhole trivial mm' (by rw [hmm]; exact hmm')]
        omega
      · intro y hy
        rw [mem_singleton.mp hy]
      · intro y hy
        rw [mem_singleton.mp hy]
      · show (rows mm.tensor : ℤ) + 1 = _
        rw [length_cons, length_append, length_replicate, length_singleton]
        omega
      intro y hy
      rcases mem_cons.mp hy with rfl | hy
      · rfl
      · rcases mem_append.mp hy with hmem | hmem
        · rw [eq_of_mem_replicate hmem]
        · rw [mem_singleton.mp hmem]

/-- One block carries the tensors of its input, each once. -/
theorem arrange_tensors {inputs : List (Input T)} (h : m.Encoded rows inputs) (hi : inp ∈ inputs) :
    tensors (m.arrange rows inp) = inp.multimodal.map (·.tensor) := by
  cases hmm : inp.multimodal with
  | nil =>
    rw [arrange_text hmm, tensors_cons, hmm]
    rfl
  | cons mm mms =>
    have hrows := h.nonempty inp hi
    have hpos := hrows mm (by rw [hmm]; exact mem_cons_self)
    cases m with
    | gemma4 g =>
      obtain ⟨⟨h1, h2, h3, h4⟩, hone⟩ := h.gemma4 g rfl
      have hnil : mms = [] := by
        have := hone inp hi
        rw [hmm, length_cons] at this
        exact length_eq_zero_iff.mp (by omega)
      subst hnil
      obtain ⟨beginToken, endToken, heq⟩ := @gemma4_arrange_eq T rows inp g mm hmm h1 h2 h3 h4
      show tensors (Gemma4.arrange rows g inp) = _
      rw [heq, tensors_cons, tensors_cons, tensors_append, tensors_replicate]
      rfl
    | mistral3 =>
      show tensors (Mistral3.arrange rows inp) = _
      rw [Mistral3.arrange, hmm]
      exact (mistral3Rows_exact _ _ (hmm ▸ hrows)).2
    | llama4 =>
      show tensors (Llama4.arrange rows inp) = _
      rw [Llama4.arrange, hmm]
      exact (llama4Tiles_exact inp.multimodalHash (mm :: mms) (hmm ▸ hrows)
        (hmm ▸ h.llama4 rfl inp hi)).2
    | qwen3vl =>
      show tensors (Qwen3VL.arrange rows inp) = _
      rw [qwen3VL_arrange_eq hmm hpos, tensors_cons, tensors_cons, tensors_append,
        tensors_replicate, hmm]
      show _ ++ [] = _
      rw [append_nil]
    | qwen35 q =>
      show tensors (Qwen35.arrange rows q inp) = _
      rw [Qwen35.arrange, hmm]
      rw [tensors_cons, tensors_cons, tensors_append, tensors_replicate]
      show _ ++ [] = _
      rw [append_nil]
    | museglimmer g =>
      show tensors (MuseGlimmer.arrange rows g inp) = _
      rw [MuseGlimmer.arrange, hmm]
      rw [tensors_cons, tensors_cons, tensors_append, tensors_replicate]
      show _ ++ [] = _
      rw [append_nil]

/-! ## §6  Whole inputs -/

variable {inputs : List (Input T)}

theorem postTokenize_append (xs ys : List (Input T)) :
    m.postTokenize rows (xs ++ ys) = m.postTokenize rows xs ++ m.postTokenize rows ys :=
  flatMap_append

theorem postTokenize_at {i : ℕ} (hi : inputs[i]? = some inp) :
    m.postTokenize rows inputs = m.postTokenize rows (inputs.take i) ++
      (m.arrange rows inp ++ m.postTokenize rows (inputs.drop (i + 1))) := by
  obtain ⟨hlt, rfl⟩ := List.getElem?_eq_some_iff.mp hi
  have hsplit : inputs = inputs.take i ++ (inputs[i] :: inputs.drop (i + 1)) := by
    rw [← drop_eq_getElem_cons hlt, take_append_drop]
  have hcons : m.postTokenize rows (inputs[i] :: inputs.drop (i + 1)) =
      m.arrange rows inputs[i] ++ m.postTokenize rows (inputs.drop (i + 1)) := flatMap_cons
  rw [← hcons, ← postTokenize_append, ← hsplit]

theorem place_succ {i : ℕ} (hi : inputs[i]? = some inp) :
    m.place rows inputs (i + 1) = m.place rows inputs i + (m.arrange rows inp).length := by
  obtain ⟨hlt, rfl⟩ := List.getElem?_eq_some_iff.mp hi
  unfold place
  have hsingle : m.postTokenize rows [inputs[i]] = m.arrange rows inputs[i] :=
    flatMap_singleton ..
  rw [take_succ_eq_append_getElem hlt, postTokenize_append, length_append, hsingle]

theorem Encoded.take (h : m.Encoded rows inputs) (i : ℕ) : m.Encoded rows (inputs.take i) where
  text inp hi := h.text inp (mem_of_mem_take hi)
  nonempty inp hi := h.nonempty inp (mem_of_mem_take hi)
  gemma4 g hg := ⟨(h.gemma4 g hg).1, fun inp hi =>
    (h.gemma4 g hg).2 inp (mem_of_mem_take hi)⟩
  llama4 hm inp hi := h.llama4 hm inp (mem_of_mem_take hi)
  whole hm inp hi := h.whole hm inp (mem_of_mem_take hi)

theorem Encoded.tail (h : m.Encoded rows (inp :: inputs)) : m.Encoded rows inputs where
  text inp' hi := h.text inp' (mem_cons_of_mem _ hi)
  nonempty inp' hi := h.nonempty inp' (mem_cons_of_mem _ hi)
  gemma4 g hg := ⟨(h.gemma4 g hg).1, fun inp' hi =>
    (h.gemma4 g hg).2 inp' (mem_cons_of_mem _ hi)⟩
  llama4 hm inp' hi := h.llama4 hm inp' (mem_cons_of_mem _ hi)
  whole hm inp' hi := h.whole hm inp' (mem_cons_of_mem _ hi)

/-- **Exact groups**, where every block is exact. -/
theorem postTokenize_exact (h : m.Encoded rows inputs)
    (hm : ∀ g, m = gemma4 g → ∀ inp ∈ inputs, inp.multimodal = []) :
    Exact rows m.placeholder (m.postTokenize rows inputs) := by
  induction inputs with
  | nil => exact Exact.nil
  | cons inp inputs ih =>
    have hfirst := arrange_exact h mem_cons_self fun g hg => hm g hg inp mem_cons_self
    exact hfirst.append (ih h.tail fun g hg x hx => hm g hg x (mem_cons_of_mem _ hx))

theorem postTokenize_tensors (h : m.Encoded rows inputs) :
    tensors (m.postTokenize rows inputs) = tensors inputs := by
  induction inputs with
  | nil => rfl
  | cons inp inputs ih =>
    show tensors (m.arrange rows inp ++ m.postTokenize rows inputs) = _
    rw [tensors_append, ih h.tail, arrange_tensors h mem_cons_self, tensors_cons]

theorem arrange_ne_nil (h : m.Encoded rows inputs) (hi : inp ∈ inputs) :
    m.arrange rows inp ≠ [] := by
  intro hnil
  have htensors := arrange_tensors h hi
  rw [hnil] at htensors
  have hmm : inp.multimodal = [] := map_eq_nil_iff.mp htensors.symm
  rw [arrange_text hmm] at hnil
  exact cons_ne_nil _ _ hnil

theorem place_lt (h : m.Encoded rows inputs) {i i' : ℕ} (hlt : i < i') (hi' : i' ≤ inputs.length) :
    m.place rows inputs i < m.place rows inputs i' := by
  induction hlt with
  | refl =>
    have hi := getElem?_eq_getElem (show i < inputs.length by omega)
    have := length_pos_iff.mpr (arrange_ne_nil h (mem_of_getElem? hi))
    rw [place_succ hi]
    omega
  | @step k hlt ih =>
    rw [place_succ (getElem?_eq_getElem (show k < inputs.length by omega))]
    omega

theorem text_at {i : ℕ} (hi : inputs[i]? = some inp) (hmm : inp.multimodal = []) :
    (m.postTokenize rows inputs)[m.place rows inputs i]? = some inp := by
  rw [postTokenize_at hi, arrange_text hmm]
  unfold place
  rw [getElem?_append_right (Nat.le_refl _), Nat.sub_self]
  rfl

/-- No group reaches a text, where every block before it is exact. -/
theorem not_group_text (h : m.Encoded rows inputs)
    (hm : ∀ g, m = gemma4 g → ∀ inp ∈ inputs, inp.multimodal = []) {i : ℕ}
    (hi : inputs[i]? = some inp) (hmm : inp.multimodal = []) {s : ℕ} {n : ℤ}
    (hgroup : Group (m.postTokenize rows inputs) s n) :
    ¬(s ≤ m.place rows inputs i ∧ (m.place rows inputs i : ℤ) ≤ s + n) := by
  rintro ⟨hle, hreach⟩
  have hexact := postTokenize_exact (h.take i) fun g hg x hx => hm g hg x (mem_of_mem_take hx)
  have hgroup' := hgroup
  rw [postTokenize_at hi] at hgroup'
  rcases group_append_cases hgroup' with ⟨-, hbefore⟩ | ⟨t, rfl, -⟩
  · have := hexact.inside s n hbefore
    unfold place at hreach
    omega
  -- the text itself ties nothing
  change m.place rows inputs i + t ≤ m.place rows inputs i at hle
  have hat : (m.postTokenize rows inputs)[m.place rows inputs i]? = some inp := text_at hi hmm
  obtain ⟨x, hx, hpos, -⟩ := hgroup
  change (m.postTokenize rows inputs)[m.place rows inputs i + t]? = some x at hx
  rw [show m.place rows inputs i + t = m.place rows inputs i by omega, hat] at hx
  rw [← Option.some.inj hx, h.text inp (mem_of_getElem? hi) hmm] at hpos
  omega

/-- A group of `gemma4` reaches past its image. -/
theorem gemma4_reaches {g : Gemma4} (h : (gemma4 g).Encoded rows inputs) {i : ℕ}
    (hi : inputs[i]? = some inp) (hmm : inp.multimodal ≠ []) :
    ∃ n : ℤ, Group ((gemma4 g).postTokenize rows inputs) ((gemma4 g).place rows inputs i) n ∧
      ((gemma4 g).place rows inputs (i + 1) : ℤ) = (gemma4 g).place rows inputs i + n := by
  have hmem := mem_of_getElem? hi
  obtain ⟨⟨h1, h2, h3, h4⟩, hone⟩ := h.gemma4 g rfl
  obtain ⟨mm, hsingle⟩ : ∃ mm, inp.multimodal = [mm] :=
    length_eq_one_iff.mp (Nat.le_antisymm (hone inp hmem) (length_pos_iff.mpr hmm))
  have hpos := h.nonempty inp hmem mm (by rw [hsingle]; exact mem_cons_self)
  obtain ⟨beginToken, endToken, heq⟩ := @gemma4_arrange_eq T rows inp g mm hsingle h1 h2 h3 h4
  have harrange : (gemma4 g).arrange rows inp = _ := heq
  refine ⟨rows mm.tensor + 2, ?_, ?_⟩
  · rw [postTokenize_at hi, harrange]
    refine ⟨{ token := beginToken, sameBatch := rows mm.tensor + 2 }, ?_, ?_, rfl⟩
    · unfold place
      rw [getElem?_append_right (Nat.le_refl _), Nat.sub_self]
      rfl
    · show (0 : ℤ) < rows mm.tensor + 2
      omega
  · rw [place_succ hi, harrange, length_cons, length_cons, length_append,
      length_replicate, length_singleton]
    push_cast
    omega

/-- **Exact groups for all models but `gemma4`**, which gives them for texts only. -/
theorem postTokenize_exactGroups_iff (m : VisionModel) (rows : T → ℕ) (inputs : List (Input T))
    (h : m.Encoded rows inputs) :
    m.ExactGroups rows inputs ↔ ∀ g, m = gemma4 g → ∀ inp ∈ inputs, inp.multimodal = [] := by
  constructor
  · rintro hgroups g rfl inp hmem
    by_contra hmm
    obtain ⟨i, hi⟩ := getElem?_of_mem hmem
    obtain ⟨n, hgroup, hplace⟩ := gemma4_reaches h hi hmm
    have hinside := hgroups.exact.inside _ _ hgroup
    rw [← hplace] at hinside
    -- so another input follows, which is a text or has a group of its own
    have hlt : i + 1 < inputs.length := by
      by_contra hge
      have hall : inputs.take (i + 1) = inputs := take_of_length_le (by omega)
      unfold place at hinside
      rw [hall] at hinside
      omega
    have hi' := getElem?_eq_getElem hlt
    by_cases hmm' : inputs[i + 1].multimodal = []
    · refine (hgroups.texts (i + 1) _ hi' hmm').2 _ _ hgroup ⟨?_, ?_⟩
      · exact Nat.le_of_lt (place_lt h (Nat.lt_succ_self i) (by omega))
      · exact Int.le_of_eq hplace
    · obtain ⟨n', hgroup', -⟩ := gemma4_reaches h hi' hmm'
      have hlt' := place_lt h (Nat.lt_succ_self i) (show i + 1 ≤ inputs.length by omega)
      have := hgroups.exact.apart _ _ _ _ hgroup hgroup' hlt'
      omega
  · intro hm
    refine ⟨?_, ?_, postTokenize_tensors h, postTokenize_exact h hm⟩
    · intro i inp hi hmm
      exact ⟨text_at hi hmm, fun s n hgroup => not_group_text h hm hi hmm hgroup⟩
    · intro i i' hlt hi'
      exact place_lt h hlt (Nat.le_of_lt hi')

/-- Text, an image of two tiles and text again, for `llama4`. -/
theorem exactGroups_llama4 :
    let image : Input ℕ := { multimodal := [{ tensor := 3, data := .separator true false },
      { tensor := 2, data := .separator false false }] }
    llama4.ExactGroups id [{ token := 7 }, image, { token := 8 }] := by
  refine (postTokenize_exactGroups_iff llama4 id _ ⟨?_, ?_, ?_, ?_, ?_⟩).mpr fun g hg => nomatch hg
  · decide
  · decide
  · exact fun g hg => nomatch hg
  · exact fun _ => by decide
  · exact fun hm => hm.elim

/-- `gemma4` ties the text after an image to it. -/
theorem gemma4_ties_text : ¬∀ (m : VisionModel) (inputs : List (Input ℕ)),
    m.Encoded id inputs → m.ExactGroups id inputs := by
  intro hall
  have h := hall (gemma4 ⟨1, 2, 3, 4⟩) [{ multimodal := [{ tensor := 1 }] }, { token := 9 }]
    ⟨by decide, by decide, ?_, (fun hm => nomatch hm), fun hm => hm.elim⟩
  · refine (h.texts 1 { token := 9 } rfl rfl).2 0 3 ⟨{ token := 1, sameBatch := 3 }, rfl, ?_, rfl⟩ ?_
    · decide
    · decide
  · intro g hg
    obtain rfl := gemma4.inj hg
    decide

end VisionModel

end Ollama.Model.PostTokenize
