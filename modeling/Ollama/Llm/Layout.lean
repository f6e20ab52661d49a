import Ollama.Lib.Loop
import Ollama.Lib.Single
import Mathlib.Data.List.Sort

/-!
# Layouts of layers on GPUs

`createLayout` of `llm/server.go` and what it calls, over `ml/device.go`. Sizes
are unsigned and wrap at 64 bits; capacity factors are single precision.
-/

namespace Ollama.Llm

open Lib

/-! ## §1  Devices and layouts -/

structure DeviceID where
  id : String
  library : String
deriving DecidableEq

structure DeviceInfo where
  deviceID : DeviceID
  integrated : Bool
  freeMemory : ℕ
deriving DecidableEq

/-- `MinimumMemory` -/
def DeviceInfo.minimumMemory (d : DeviceInfo) : ℕ :=
  if d.deviceID.library = "Metal" then 512 * 2 ^ 20 else 457 * 2 ^ 20

/-- `ByFreeMemory.Less` -/
def byFreeMemory (a b : DeviceInfo) : Bool :=
  if a.integrated ∧ ¬b.integrated then true
  else if ¬a.integrated ∧ b.integrated then false
  else a.freeMemory < b.freeMemory

/-- `sort.Sort(sort.Reverse(ByFreeMemory(gpus)))`, which need not be stable. -/
structure GpuSort where
  sort : List DeviceInfo → List DeviceInfo
  perm : ∀ l, (sort l).Perm l
  sorted : ∀ l, (sort l).Pairwise fun a b => byFreeMemory a b = false

theorem byFreeMemory_eq_false {a b : DeviceInfo} :
    byFreeMemory a b = false ↔ (a.integrated = false ∧ b.integrated = true) ∨
      (a.integrated = b.integrated ∧ b.freeMemory ≤ a.freeMemory) := by
  unfold byFreeMemory
  cases a.integrated <;> cases b.integrated <;> simp

/-- Insertion sort, which the library uses for up to 12 elements. -/
def GpuSort.insertion : GpuSort where
  sort := List.insertionSort fun a b => byFreeMemory a b = false
  perm := List.perm_insertionSort _
  sorted := by
    have htotal : Std.Total fun a b => byFreeMemory a b = false := ⟨fun a b => by
      rw [byFreeMemory_eq_false, byFreeMemory_eq_false]
      cases a.integrated <;> cases b.integrated <;> simp [Nat.le_total]⟩
    have htrans : IsTrans DeviceInfo fun a b => byFreeMemory a b = false := ⟨fun a b c hab hbc => by
      rw [byFreeMemory_eq_false] at *
      rcases hab with ⟨h₁, h₂⟩ | ⟨h₁, h₂⟩ <;> rcases hbc with ⟨h₃, h₄⟩ | ⟨h₃, h₄⟩
      · exact Or.inl ⟨h₁, h₄⟩
      · exact Or.inl ⟨h₁, h₃.symm.trans h₂⟩
      · exact Or.inl ⟨h₁.trans h₃, h₄⟩
      · exact Or.inr ⟨h₁.trans h₃, h₄.trans h₂⟩⟩
    exact List.pairwise_insertionSort _

/-- `ByLibrary` -/
def byLibrary (l : List DeviceInfo) : List (String × List DeviceInfo) :=
  l.foldl (fun groups info =>
    if groups.any (·.1 = info.deviceID.library) then
      groups.map fun p => if p.1 = info.deviceID.library then (p.1, p.2 ++ [info]) else p
    else groups ++ [(info.deviceID.library, [info])]) []

/-- `GPULayers` -/
structure GPULayers where
  deviceID : DeviceID
  layers : List ℕ
deriving DecidableEq

/-- `GPULayersList` -/
abbrev Layout := List GPULayers

/-- `Sum` -/
def Layout.sum (l : Layout) : ℕ := (l.map fun g => g.layers.length).sum

/-- What `Hash` writes to the hash. -/
def Layout.digest (l : Layout) : List (String × List ℕ) :=
  (l.filter fun g => g.layers ≠ []).map fun g => (g.deviceID.id ++ g.deviceID.library, g.layers)

/-- `DeviceMemory` of a model with `n` layers. -/
structure DeviceMemory (n : ℕ) where
  deviceID : DeviceID
  weights : List ℕ
  cache : List ℕ
  graph : ℕ
  weights_length : weights.length = n
  cache_length : cache.length = n

/-- `BackendMemory` -/
structure BackendMemory (n : ℕ) where
  inputWeights : ℕ
  cpu : DeviceMemory n
  gpus : List (DeviceMemory n)

def DeviceMemory.hasLayerData {n : ℕ} (m : DeviceMemory n) : Bool :=
  (List.range n).any fun k => m.weights.getD k 0 ≠ 0 ∨ m.cache.getD k 0 ≠ 0

/-! ## §2  Greedy packing -/

def DeviceInfo.space (d : DeviceInfo) (capacity : ℕ) : ℕ :=
  Single.toUint64 (Single.mul (Single.ofNat d.freeMemory) capacity)

/-- The inner loop of `greedyFit`: going on to the next GPUs until a layer fits.
The GPU in use is the head of the layout. -/
def findSpace (capacity size : ℕ) : Layout → ℕ → List DeviceInfo →
    Layout × Option (ℕ × List DeviceInfo)
  | l, free, [] => (l, if size ≤ free then some (free, []) else none)
  | l, free, g :: gpus =>
      if size ≤ free then (l, some (free, g :: gpus))
      else findSpace capacity size (⟨g.deviceID, []⟩ :: l) (g.space capacity) gpus

/-- `gpuLayers[0].Layers = append([]int{i}, gpuLayers[0].Layers...)` -/
def Layout.prepend (i : ℕ) : Layout → Layout
  | [] => []
  | g :: l => { g with layers := i :: g.layers } :: l

/-- The loop over the layers, the last one first. -/
def placeLayers (capacity : ℕ) (requested : ℤ) : List (ℕ × ℕ) → ℕ → Layout → ℕ →
    List DeviceInfo → Layout
  | [], _, l, _, _ => l
  | (size, i) :: todo, placed, l, free, gpus =>
      if 0 ≤ requested ∧ requested ≤ placed then l
      else
        match findSpace capacity size l free gpus with
        | (l, none) => l
        | (l, some (free, gpus)) =>
            placeLayers capacity requested todo (placed + 1) (l.prepend i) (free - size) gpus

def greedyFit (layers : List ℕ) (gpus : List DeviceInfo) (capacity : ℕ) (requested : ℤ) : Layout :=
  match gpus.reverse with
  | [] => []
  | g :: gpus =>
      placeLayers capacity requested layers.zipIdx.reverse 0 [⟨g.deviceID, []⟩] (g.space capacity)
        gpus

/-! ## §3  The smallest capacity -/

/-- `1e-6` -/
def tolerance : ℕ := 8796093 * 2 ^ 106

structure Bracket where
  low : ℕ
  high : ℕ
  best : Layout

/-- One turn of the binary search. -/
def bisect (layers : List ℕ) (gpus : List DeviceInfo) (requested : ℤ) (maxNumGPU : ℕ)
    (b : Bracket) : Option (Bracket ⊕ Layout) :=
  if tolerance < Single.sub b.high b.low then
    let mid := Single.half (Single.add b.low b.high)
    let assignments := greedyFit layers gpus mid requested
    some (.inl (if assignments.sum = maxNumGPU then { b with high := mid, best := assignments }
      else { b with low := mid }))
  else some (.inr b.best)

def upperFactor (requested : ℤ) (force : Bool) : ℕ :=
  if 0 ≤ requested ∧ force then 1000 * Single.one else Single.one

/-- `findBestFit`; `none` when the search does not end. A search that ends does
so within a turn for each multiple of 2⁻¹⁴⁹ in the bracket. -/
def findBestFit (layers : List ℕ) (gpus : List DeviceInfo) (requested : ℤ) (force : Bool) :
    Option Layout :=
  let high := upperFactor requested force
  let best := greedyFit layers gpus high requested
  if best.sum = 0 then some best
  else Loop.run (bisect layers gpus requested best.sum) (high + 1) ⟨0, high, best⟩

/-! ## §4  Assigning layers -/

/-- The loop that tries more and more GPUs; only the last try forces the
requested number of layers. -/
def fitPrefixes (layers : List ℕ) (requested : ℤ) : List (List DeviceInfo × Bool) → Layout →
    Option Layout
  | [], l => some l
  | (gpus, force) :: more, _ =>
      (findBestFit layers gpus requested force).bind fun l =>
        if l.sum = layers.length ∨ (l.sum : ℤ) = requested then some l
        else fitPrefixes layers requested more l

/-- The GPUs of each try: `gpus[:i+1]` from the last one in use on. -/
def prefixes (gpus : List DeviceInfo) (requireFull spread : Bool) (lastUsedGPU : ℕ) :
    List (List DeviceInfo × Bool) :=
  if spread then [(gpus, !requireFull)]
  else (List.range' lastUsedGPU (gpus.length - lastUsedGPU)).map fun i =>
    (gpus.take (i + 1), decide (i + 1 = gpus.length) && !requireFull)

/-- `assignLayers`: a second time without the output layer, if not all layers
fit. -/
def assignLayers (layers : List ℕ) (gpus : List DeviceInfo) (requireFull spread : Bool)
    (requested : ℤ) (lastUsedGPU : ℕ) : Option Layout :=
  let requested := min (layers.length : ℤ) requested
  let tries := prefixes gpus requireFull spread lastUsedGPU
  (fitPrefixes layers requested tries []).bind fun l =>
    if l.sum = layers.length then some l
    else fitPrefixes layers.dropLast (min (layers.dropLast.length : ℤ) requested) tries l

/-! ## §5  `createLayout` -/

structure SystemInfo where
  totalMemory : ℕ
  freeMemory : ℕ
  freeSwap : ℕ

inductive LoadError
  | requiredFull
  | systemMemory
  | launch
  | init
  | numGPU
  | allocate
  | commit
deriving DecidableEq

/-- What a load is given: the arguments of `Load`, environment variables and the
operating system. -/
structure Machine where
  systemInfo : SystemInfo
  gpus : List DeviceInfo
  requireFull : Bool
  gpuOverhead : ℕ
  schedSpread : Bool
  darwin : Bool
  sorter : GpuSort

def layerSize {n : ℕ} (memory : BackendMemory n) (i : ℕ) : ℕ :=
  ((memory.gpus.map fun g => g.weights.getD i 0 + g.cache.getD i 0).sum +
    memory.cpu.weights.getD i 0 + memory.cpu.cache.getD i 0) % 2 ^ 64

/-- `reserved` -/
def DeviceInfo.reserved (d : DeviceInfo) (overhead graph backoff : ℕ) : ℕ :=
  (Single.toUint64 (Single.mul (Single.ofNat d.freeMemory) backoff) + d.minimumMemory + overhead +
    graph) % 2 ^ 64

/-- The free memory that layers may use on a GPU, and whether it has layers now. -/
def reserve {n : ℕ} (overhead : ℕ) (memory : BackendMemory n) (backoff : ℕ) (d : DeviceInfo) :
    DeviceInfo × Bool :=
  match memory.gpus.find? (·.deviceID = d.deviceID) with
  | none => ({ d with freeMemory := 0 }, false)
  | some m =>
      ({ d with freeMemory := d.freeMemory - d.reserved overhead m.graph backoff }, m.hasLayerData)

/-- `lastUsedGPU` -/
def lastUsed (used : List Bool) : ℕ :=
  used.zipIdx.foldl (fun last p => if p.1 then p.2 else last) 0

namespace Machine

variable (m : Machine) {n : ℕ}

/-- A library's part of `buildLayout`. -/
def libraryLayout (memory : BackendMemory n) (numGPU : ℤ) (backoff : ℕ) (gl : List DeviceInfo) :
    Option Layout :=
  let reserved := gl.map (reserve m.gpuOverhead memory backoff)
  assignLayers ((List.range n).map (layerSize memory)) (reserved.map Prod.fst) m.requireFull
    m.schedSpread numGPU (lastUsed (reserved.map Prod.snd))

def libraries : List (List DeviceInfo) := (byLibrary (m.sorter.sort m.gpus)).map Prod.snd

def bestLibrary (memory : BackendMemory n) (numGPU : ℤ) (backoff : ℕ) :
    List (List DeviceInfo) → Layout → Option Layout
  | [], best => some best
  | gl :: more, best =>
      (m.libraryLayout memory numGPU backoff gl).bind fun l =>
        bestLibrary memory numGPU backoff more (if best.sum < l.sum then l else best)

def buildLayout (memory : BackendMemory n) (numGPU : ℤ) (backoff : ℕ) : Option Layout :=
  m.bestLibrary memory numGPU backoff m.libraries []

/-- `verifyLayout`, with the number of layers that is requested from then on. -/
def verifyLayout (memory : BackendMemory n) (numGPU : ℤ) (l : Layout) : Except LoadError Unit × ℤ :=
  let onGPU := fun i => l.any fun g => i ∈ g.layers
  let graphs := (l.map fun g =>
    ((memory.gpus.find? (·.deviceID = g.deviceID)).map DeviceMemory.graph).getD 0).sum
  let vramSize := (graphs + (((List.range n).filter onGPU).map (layerSize memory)).sum) % 2 ^ 64
  let cpuSize := (memory.inputWeights + memory.cpu.graph +
    (((List.range n).filter fun i => !onGPU i).map (layerSize memory)).sum) % 2 ^ 64
  if m.requireFull ∧ l.sum < n ∧ (numGPU < 0 ∨ (l.sum : ℤ) < numGPU) then
    (.error .requiredFull, numGPU)
  else if m.requireFull ∧ m.systemInfo.freeMemory < cpuSize then (.error .requiredFull, numGPU)
  else if ¬m.darwin then
    if (m.systemInfo.freeMemory + m.systemInfo.freeSwap) % 2 ^ 64 < cpuSize then
      (.error .systemMemory, numGPU)
    else (.ok (), numGPU)
  else if m.systemInfo.totalMemory < vramSize then (.ok (), 0)
  else (.ok (), numGPU)

/-- The memory report that stands for none. -/
def noMemory (n : ℕ) : BackendMemory n where
  inputWeights := 0
  cpu := ⟨⟨"", ""⟩, List.replicate n 0, List.replicate n 0, 0, List.length_replicate,
    List.length_replicate⟩
  gpus := []

/-- `createLayout`, with the number of layers that is requested from then on;
`none` when it does not return. -/
def createLayout (memory : Option (BackendMemory n)) (numGPU : ℤ) (backoff : ℕ) :
    Option (Except LoadError Layout × ℤ) :=
  let memory := memory.getD (noMemory n)
  (m.buildLayout memory numGPU backoff).map fun l =>
    match m.verifyLayout memory numGPU l with
    | (.ok (), numGPU) => (.ok l, numGPU)
    | (.error e, numGPU) => (.error e, numGPU)

end Machine

end Ollama.Llm
