import Ollama.Lib.Placing

/-!
# Rotary positions of the vision models: model of `model/models/qwen3vl` and `qwen35`

`PostTokenize` lays images out as tokens and records a rotary position for
each in `positionCache`, one slice on the model object; `Forward` maps the
positions of a batch through it.
-/

namespace Ollama.Model

open List

open Lib (continued Placing)

/-! ## §1  Inputs -/

/-- `qwen3vl.Grid`: the patches of an image. -/
structure Grid where
  height : Nat
  width : Nat
deriving DecidableEq, Repr

/-- The first entry of `Input.Multimodal`: how many rows the tensor of the
embedding has (`Tensor.Dim(1)`), and its `Data`. -/
structure Multimodal where
  dim : Nat
  grid : Grid
deriving DecidableEq, Repr

/-- `input.Input` -/
structure Input where
  token : Int := 0
  multimodal : Option Multimodal := none
  multimodalHash : Nat := 0
  sameBatch : Int := 0
deriving DecidableEq, Repr

/-- What decides where the inputs are placed: for each input before
`PostTokenize` whether it is a text or an image, and the shape of the image. -/
abbrev Layout := List (Option Multimodal)

def layout (inputs : List Input) : Layout := inputs.map Input.multimodal

/-- The part of `input.Batch` that the positions are built from. -/
structure Batch where
  positions : List Nat
  multimodal : List (Nat × Multimodal)
deriving DecidableEq, Repr

/-! ## §2  `qwen35` -/

/-- The fields of `qwen35.Model` (and its `Options`) that are read here. With
no `mropeSections` the model is none with M-RoPE. -/
structure Qwen35 where
  imageToken : Int
  visionStart : Int
  visionEnd : Int
  spatialMergeSize : Nat
  mropeSections : List Nat
  vision : Bool
  mrope : mropeSections ≠ []

namespace Qwen35

variable (m : Qwen35)

def gridSpan (grid : Grid) : Nat :=
  max (grid.width / m.spatialMergeSize) (grid.height / m.spatialMergeSize)

/-- What `PostTokenize` appends for one input at position `p`, each input with
the position that goes to `positionCache`. -/
def arrange (inp : Input) (p : Int) : List (Input × Int) :=
  match inp.multimodal with
  | none => [(inp, p)]
  | some mm =>
      ({ token := m.visionStart, sameBatch := mm.dim + 1 }, p) ::
      ({ token := m.imageToken, multimodal := inp.multimodal,
         multimodalHash := inp.multimodalHash }, p + 1) ::
      (List.replicate (mm.dim - 1) ({ token := m.imageToken }, p + 1) ++
        [({ token := m.visionEnd }, p + 1 + m.gridSpan mm.grid)])

/-- `p` after one input. -/
def after (mm : Option Multimodal) (p : Int) : Int :=
  match mm with
  | none => p + 1
  | some mm => p + 1 + m.gridSpan mm.grid + 1

/-- The loop of `PostTokenize`. -/
def arrangeAll : List Input → Int → List (Input × Int)
  | [], _ => []
  | inp :: rest, p => m.arrange inp p ++ arrangeAll rest (m.after inp.multimodal p)

/-- `(*Model).PostTokenize` of `qwen35`; the second components are what
`positionCache` holds afterwards. -/
def postTokenize (inputs : List Input) : List (Input × Int) := m.arrangeAll inputs 0

end Qwen35

/-! ## §3  `qwen3vl` -/

def tokenVision : Int := 151655
def tokenVisionStart : Int := 151652
def tokenVisionEnd : Int := 151653

/-- The fields of `qwen3vl.Model` that are read here. -/
structure Qwen3VL where
  spatialMergeSize : Nat

namespace Qwen3VL

variable (m : Qwen3VL)

/-- The slice `s` for input number `i`. The end of the image is written before
its first patch, which takes its place in an image of no patches. -/
def modelInputs (inp : Input) (i : Nat) : List (Input × Int) :=
  match inp.multimodal with
  | none => [(inp, 0)]
  | some mm =>
      let s : List (Input × Int) :=
        List.replicate (mm.dim + 1 + 1) ({ token := tokenVision }, (i : Int) + 1)
      let s := s.set 0 ({ token := tokenVisionStart }, (i : Int))
      let s := s.set (s.length - 1)
        ({ token := tokenVisionEnd }, (i : Int) + ↑(mm.grid.width / m.spatialMergeSize) + 1)
      s.set 1
        ({ token := tokenVision, multimodal := inp.multimodal,
           multimodalHash := inp.multimodalHash, sameBatch := mm.dim }, (i : Int) + 1)

/-- The position that is appended to `positionCache`: 0 stands for the next. -/
def nextPosition (positionCache : List Int) (position : Int) : Int :=
  match positionCache.getLast? with
  | some last => if position = 0 then last + 1 else position
  | none => position

/-- The inner loop of `PostTokenize`. -/
def yieldAll : List Int → List (Input × Int) → List (Input × Int)
  | _, [] => []
  | positionCache, e :: s =>
      let position := nextPosition positionCache e.2
      (e.1, position) :: yieldAll (positionCache ++ [position]) s

/-- The outer loop of `PostTokenize`, from input number `i`. -/
def arrangeAll : List Int → Nat → List Input → List (Input × Int)
  | _, _, [] => []
  | positionCache, i, inp :: rest =>
      let out := yieldAll positionCache (m.modelInputs inp i)
      out ++ arrangeAll (positionCache ++ out.map Prod.snd) (i + 1) rest

/-- `(*Model).PostTokenize` of `qwen3vl` -/
def postTokenize (inputs : List Input) : List (Input × Int) := m.arrangeAll [] 0 inputs

end Qwen3VL

/-! ## §4  `mapPosition` and `buildPositions` -/

/-- `(*Model).mapPosition`, which `qwen3vl` has inside `Forward`. -/
def mapPosition (positionCache : List Int) (id : Nat) : Int :=
  match positionCache[id]? with
  | some p => p
  | none =>
      match positionCache.getLast? with
      | some last => id - positionCache.length + last + 1
      | none => id

theorem mapPosition_eq (positionCache : List Int) (id : Nat) :
    mapPosition positionCache id = continued positionCache id := rfl

/-- Add the rows (or the columns) of an image of width `w` from index `index`
of the batch on. -/
def addOffsets (row : List Int) (index : Nat) (dim : Nat) (offset : Nat → Nat) : List Int :=
  (List.range dim).foldl (fun row i => row.modify (index + i) (· + offset i)) row

/-- `(*Model).buildPositions`: time, height, width and an unused row. `w` is
the width of an image in merged patches, `images` those that are looked at. -/
def buildRows (w : Grid → Nat) (positionCache : List Int) (positions : List Nat)
    (images : List (Nat × Multimodal)) : List (List Int) :=
  let mapped := positions.map (mapPosition positionCache)
  let height := images.foldl (fun row mi => addOffsets row mi.1 mi.2.dim (· / w mi.2.grid)) mapped
  let width := images.foldl (fun row mi => addOffsets row mi.1 mi.2.dim (· % w mi.2.grid)) mapped
  [mapped, height, width, List.replicate positions.length 0]

def Qwen35.buildPositions (m : Qwen35) (positionCache : List Int) (batch : Batch) :
    List (List Int) :=
  if m.mropeSections.length = 0 then [batch.positions.map Int.ofNat]
  else
    buildRows (fun grid => max 1 (grid.width / m.spatialMergeSize)) positionCache
      batch.positions (if m.vision then batch.multimodal else [])

/-- The positions of `(*Model).Forward` of `qwen3vl`. -/
def Qwen3VL.buildPositions (m : Qwen3VL) (positionCache : List Int) (batch : Batch) :
    List (List Int) :=
  buildRows (fun grid => grid.width / m.spatialMergeSize) positionCache batch.positions
    batch.multimodal

/-- The two models. -/
inductive MRope where
  | qwen35 (m : Qwen35)
  | qwen3vl (m : Qwen3VL)

namespace MRope

def postTokenize : MRope → List Input → List (Input × Int)
  | qwen35 m => m.postTokenize
  | qwen3vl m => m.postTokenize

def buildPositions : MRope → List Int → Batch → List (List Int)
  | qwen35 m => m.buildPositions
  | qwen3vl m => m.buildPositions

/-- The first row holds the mapped positions; the other rows are built from it
and the images of the batch. -/
theorem buildPositions_head (m : MRope) (positionCache : List Int) (batch : Batch) :
    (m.buildPositions positionCache batch).head? =
      some (batch.positions.map (mapPosition positionCache)) := by
  cases m with
  | qwen35 m =>
    show (Qwen35.buildPositions m positionCache batch).head? = _
    unfold Qwen35.buildPositions
    rw [if_neg (fun h => m.mrope (length_eq_zero_iff.mp h))]
    rfl
  | qwen3vl m => rfl

end MRope

/-! ## §5  Positions depend on the layout -/

namespace Qwen35

variable (m : Qwen35)

def span (mm : Option Multimodal) (p : Int) : List Int :=
  match mm with
  | none => [p]
  | some mm =>
      p :: (p + 1) :: (List.replicate (mm.dim - 1) (p + 1) ++ [p + 1 + m.gridSpan mm.grid])

/-- The positions of a layout from `p` on. -/
def spans : Layout → Int → List Int
  | [], _ => []
  | mm :: rest, p => m.span mm p ++ spans rest (m.after mm p)

theorem arrange_snd (inp : Input) (p : Int) :
    (m.arrange inp p).map Prod.snd = m.span inp.multimodal p := by
  unfold arrange span
  cases inp.multimodal with
  | none => rfl
  | some mm => simp

theorem arrangeAll_snd (inputs : List Input) (p : Int) :
    (m.arrangeAll inputs p).map Prod.snd = m.spans (layout inputs) p := by
  induction inputs generalizing p with
  | nil => rfl
  | cons inp rest ih =>
    show (m.arrange inp p ++ m.arrangeAll rest _).map Prod.snd = _
    rw [map_append, arrange_snd, ih]
    rfl

def afterAll (L : Layout) (p : Int) : Int := L.foldl (fun p mm => m.after mm p) p

theorem spans_append (a b : Layout) (p : Int) :
    m.spans (a ++ b) p = m.spans a p ++ m.spans b (m.afterAll a p) := by
  induction a generalizing p with
  | nil => rfl
  | cons mm a ih =>
    show m.span mm p ++ m.spans (a ++ b) _ = (m.span mm p ++ m.spans a _) ++ _
    rw [ih, append_assoc]
    rfl

theorem span_concat (mm : Option Multimodal) (p : Int) :
    ∃ ys, m.span mm p = ys ++ [m.after mm p - 1] := by
  cases mm with
  | none => exact ⟨[], by simp [span, after]⟩
  | some mm =>
    refine ⟨p :: (p + 1) :: List.replicate (mm.dim - 1) (p + 1), ?_⟩
    rw [show m.after (some mm) p - 1 = p + 1 + m.gridSpan mm.grid from by
      show p + 1 + (m.gridSpan mm.grid : Int) + 1 - 1 = _
      omega]
    rfl

theorem continued_of_concat {xs ys : List Int} {x : Int} (h : xs = ys ++ [x - 1]) :
    continued xs xs.length = x := by
  subst h
  rw [length_append, length_singleton, Lib.continued_past ys (x - 1) le_rfl]
  push_cast
  omega

theorem continued_spans (L : Layout) :
    continued (m.spans L 0) (m.spans L 0).length = m.afterAll L 0 := by
  rcases L.eq_nil_or_concat with rfl | ⟨a, mm, rfl⟩
  · rfl
  rw [concat_eq_append, spans_append]
  obtain ⟨ys, hys⟩ := m.span_concat mm (m.afterAll a 0)
  have hlast : m.spans [mm] (m.afterAll a 0) = ys ++ [m.after mm (m.afterAll a 0) - 1] := by
    show m.span mm (m.afterAll a 0) ++ [] = _
    rw [append_nil, hys]
  have hafter : m.afterAll (a ++ [mm]) 0 = m.after mm (m.afterAll a 0) :=
    foldl_append
  have hconcat : m.spans a 0 ++ m.spans [mm] (m.afterAll a 0) =
      (m.spans a 0 ++ ys) ++ [m.afterAll (a ++ [mm]) 0 - 1] := by
    rw [hlast, hafter, append_assoc]
  exact continued_of_concat hconcat

/-- `qwen35` places inputs by their layout. -/
def placing : Placing (Option Multimodal) where
  text := none
  places := fun L => m.spans L 0
  places_prefix := fun a b => by
    rw [spans_append]
    exact prefix_append ..
  places_text := fun a => by
    rw [spans_append, continued_spans]
    rfl

end Qwen35

namespace Qwen3VL

variable (m : Qwen3VL)

def marks (mm : Option Multimodal) (i : Nat) : List Int :=
  (m.modelInputs { multimodal := mm } i).map Prod.snd

/-- `yieldAll` on the positions alone. -/
def resolve : List Int → List Int → List Int
  | _, [] => []
  | positionCache, e :: s =>
      let position := nextPosition positionCache e
      position :: resolve (positionCache ++ [position]) s

/-- The positions of a layout from input number `i` on. -/
def spans : List Int → Nat → Layout → List Int
  | _, _, [] => []
  | positionCache, i, mm :: rest =>
      let out := resolve positionCache (m.marks mm i)
      out ++ spans (positionCache ++ out) (i + 1) rest

theorem modelInputs_snd (inp : Input) (i : Nat) :
    (m.modelInputs inp i).map Prod.snd = m.marks inp.multimodal i := by
  unfold marks modelInputs
  cases inp.multimodal with
  | none => rfl
  | some mm => simp only [map_set, length_set, length_replicate]

variable (positionCache : List Int)

theorem yieldAll_snd (s : List (Input × Int)) :
    (yieldAll positionCache s).map Prod.snd = resolve positionCache (s.map Prod.snd) := by
  induction s generalizing positionCache with
  | nil => rfl
  | cons e s ih => exact congrArg _ (ih _)

theorem arrangeAll_snd (i : Nat) (inputs : List Input) :
    (m.arrangeAll positionCache i inputs).map Prod.snd =
      m.spans positionCache i (layout inputs) := by
  induction inputs generalizing positionCache i with
  | nil => rfl
  | cons inp rest ih =>
    show (yieldAll positionCache (m.modelInputs inp i) ++ m.arrangeAll _ _ rest).map Prod.snd = _
    rw [map_append, ih, yieldAll_snd, modelInputs_snd]
    rfl

theorem spans_append (i : Nat) (a b : Layout) :
    m.spans positionCache i (a ++ b) = m.spans positionCache i a ++
      m.spans (positionCache ++ m.spans positionCache i a) (i + a.length) b := by
  induction a generalizing positionCache i with
  | nil => rw [nil_append, show m.spans positionCache i [] = [] from rfl, append_nil]; rfl
  | cons mm a ih =>
    have hcons : ∀ L, m.spans positionCache i (mm :: L) = resolve positionCache (m.marks mm i) ++
        m.spans (positionCache ++ resolve positionCache (m.marks mm i)) (i + 1) L := fun _ => rfl
    rw [cons_append, hcons, hcons, ih, append_assoc, append_assoc,
      length_cons, Nat.add_right_comm i 1 a.length, Nat.add_assoc i]

theorem nextPosition_zero :
    nextPosition positionCache 0 = continued positionCache positionCache.length := by
  rcases positionCache.eq_nil_or_concat with rfl | ⟨ys, y, rfl⟩
  · rfl
  rw [concat_eq_append, Lib.continued_past ys y (by simp)]
  unfold nextPosition
  rw [getLast?_concat, length_append, length_singleton]
  push_cast
  omega

/-- `qwen3vl` places inputs by their layout. -/
def placing : Placing (Option Multimodal) where
  text := none
  places := m.spans [] 0
  places_prefix := fun a b => by
    rw [spans_append]
    exact prefix_append ..
  places_text := fun a => by
    rw [spans_append, ← nextPosition_zero]
    rfl

end Qwen3VL

namespace MRope

def placing : MRope → Placing (Option Multimodal)
  | qwen35 m => m.placing
  | qwen3vl m => m.placing

theorem postTokenize_snd (m : MRope) (inputs : List Input) :
    (m.postTokenize inputs).map Prod.snd = m.placing.places (layout inputs) := by
  cases m with
  | qwen35 m => exact m.arrangeAll_snd inputs 0
  | qwen3vl m => exact m.arrangeAll_snd [] 0 inputs

theorem places_nil (m : MRope) : m.placing.places [] = [] := by
  cases m with
  | qwen35 m => rfl
  | qwen3vl m => rfl

end MRope

end Ollama.Model
