import Ollama.Lib.Ledger
import Ollama.Llm.Layout

/-!
# The memory estimate

`estimateGPULayers` of `llm/memory.go`, from the sizes of the parts of a model on: the blocks are
dealt over the GPUs that have space, then the output part. Sums are below 2^64.
-/

namespace Ollama.Llm.Memory

open Lib Ledger List

/-! ## §1  Sizes -/

/-- What the estimate is made of. `layers` has the sizes of `GroupLayers`; the graph sizes have
their margin. -/
structure Inputs where
  gpus : List DeviceInfo
  overhead : ℕ
  numGPU : ℤ
  blockCount : ℕ
  layers : String → Option ℕ
  kv : List ℕ
  partialOffload : ℕ
  fullOffload : ℕ
  llamaEngineProjectorWeights : ℕ
  ollamaEngineProjectorWeights : ℕ
  ollamaEngineProjectorGraph : ℕ

variable (m : Inputs)

def bufferSize : ℕ := (m.layers "blk.0").getD 0 + m.kv.head?.getD 0

def graphPartialOffload : ℕ :=
  if (m.gpus.head?.map fun gpu => gpu.deviceID.library) = some "Metal" then m.fullOffload
  else m.partialOffload

def graphFullOffload : ℕ :=
  if (m.gpus.head?.map fun gpu => gpu.deviceID.library) = some "Metal" then m.fullOffload
  else if 1 < m.gpus.length then m.partialOffload else m.fullOffload

def maxGraph : ℕ := max (graphPartialOffload m) (graphFullOffload m)

def memoryLayerOutput : ℕ :=
  (m.layers "output_norm").getD 0 +
    match m.layers "output" with
    | some size => size
    | none => (m.layers "token_embd").getD 0

def memoryLastLayer : ℕ :=
  memoryLayerOutput m + m.ollamaEngineProjectorWeights + m.ollamaEngineProjectorGraph

def freeMemory (g : ℕ) : ℕ := (m.gpus[g]?.map DeviceInfo.freeMemory).getD 0

def minimumMemory (g : ℕ) : ℕ := (m.gpus[g]?.map DeviceInfo.minimumMemory).getD 0

def initialSpace : List ℕ :=
  (List.range m.gpus.length).foldl (fun gpusWithSpace i =>
    let gzo := if gpusWithSpace = [] then m.llamaEngineProjectorWeights else 0
    if freeMemory m i < m.overhead + gzo + maxGraph m + minimumMemory m i + 2 * bufferSize m then
      gpusWithSpace
    else gpusWithSpace ++ [i]) []

/-! ## §2  Dealing -/

structure Deal where
  gpusWithSpace : List ℕ
  gpuAllocations : ℕ → ℕ
  tensorSplit : ℕ → ℕ
  layerCount : ℕ
  layerSize : ℕ
  overflow : ℕ

def base (g : ℕ) : ℕ :=
  if g ∈ initialSpace m then minimumMemory m g + bufferSize m else 0

def initialDeal : Deal where
  gpusWithSpace := initialSpace m
  gpuAllocations g := base m g +
    if (initialSpace m).head? = some g then m.llamaEngineProjectorWeights else 0
  tensorSplit _ := 0
  layerCount := 0
  layerSize := bufferSize m
  overflow := if initialSpace m = [] then m.llamaEngineProjectorWeights else 0

/-- The loop over `j` for a block: the GPU that takes it, and the GPUs that are left. -/
def chooseGPU (fits : ℕ → Bool) (i : ℕ) : ℕ → List ℕ → Option ℕ × List ℕ
  | 0, gpusWithSpace => (none, gpusWithSpace)
  | j + 1, gpusWithSpace =>
      match gpusWithSpace[i % (j + 1)]? with
      | none => (none, gpusWithSpace)
      | some g =>
          if fits g then (some g, gpusWithSpace)
          else chooseGPU fits i j (gpusWithSpace.eraseIdx (i % (j + 1)))

def fits (d : Deal) (size g : ℕ) : Bool :=
  m.overhead + (d.gpuAllocations g + maxGraph m) + size < freeMemory m g

/-- The size of a part is added to a GPU. -/
def Deal.add (d : Deal) (g size : ℕ) : Deal :=
  { d with
    gpuAllocations := Function.update d.gpuAllocations g (d.gpuAllocations g + size)
    tensorSplit := Function.update d.tensorSplit g (d.tensorSplit g + 1)
    layerCount := d.layerCount + 1 }

def sizeAt (i layerSize : ℕ) : ℕ :=
  match m.layers s!"blk.{i}" with
  | some size => size + m.kv[i]?.getD 0
  | none => layerSize

def limited (layerCount : ℕ) : Bool := 0 ≤ m.numGPU ∧ m.numGPU ≤ layerCount

/-- One block. -/
def dealBlock (d : Deal) (i : ℕ) : Deal :=
  let layerSize := sizeAt m i d.layerSize
  let d := { d with layerSize := layerSize }
  if limited m d.layerCount then { d with overflow := d.overflow + layerSize }
  else
    match chooseGPU (fits m d layerSize) i d.gpusWithSpace.length d.gpusWithSpace with
    | (some g, gpusWithSpace) => { d.add g layerSize with gpusWithSpace := gpusWithSpace }
    | (none, gpusWithSpace) =>
        { d with
          gpusWithSpace := gpusWithSpace
          overflow := if gpusWithSpace = [] then d.overflow + layerSize else d.overflow }

/-- The first `k` blocks that are dealt, from the last one of the model down. -/
def dealBlocks : ℕ → Deal
  | 0 => initialDeal m
  | k + 1 => dealBlock m (dealBlocks k) (m.blockCount - 1 - k)

/-- The loop over `j` for the output part. -/
def chooseOutput (fits : ℕ → Bool) (gpusWithSpace : List ℕ) (layerCount : ℕ) : ℕ → Option ℕ
  | 0 => none
  | j + 1 =>
      match gpusWithSpace[layerCount % (j + 1)]? with
      | none => none
      | some g => if fits g then some g else chooseOutput fits gpusWithSpace layerCount j

def outputGPU (d : Deal) : Option ℕ :=
  if 0 < memoryLastLayer m ∧ limited m d.layerCount = false then
    chooseOutput (fits m d (memoryLastLayer m)) d.gpusWithSpace d.layerCount d.gpusWithSpace.length
  else none

/-- The output part, on a GPU and where layers are missing in the overflow. -/
def dealOutput (d : Deal) : Deal :=
  let d := match outputGPU m d with
    | some g => d.add g (memoryLastLayer m)
    | none => d
  if 0 < memoryLastLayer m ∧ d.layerCount < m.blockCount + 1 then
    { d with overflow := d.overflow + memoryLastLayer m }
  else d

/-! ## §3  The estimate -/

structure MemoryEstimate where
  layers : ℕ
  graph : ℕ
  vramSize : ℕ
  totalSize : ℕ
  tensorSplit : List ℕ
  gpuSizes : List ℕ

def estimateGPULayers : MemoryEstimate :=
  let dealt := dealBlocks m m.blockCount
  let d := dealOutput m dealt
  let fullyLoaded : Bool := m.blockCount ≤ dealt.layerCount ∧
    ¬(0 < memoryLastLayer m ∧ d.layerCount < m.blockCount + 1)
  let graphOffload := if fullyLoaded then graphFullOffload m else graphPartialOffload m
  let gpuAllocations := (List.range m.gpus.length).map fun g =>
    d.gpuAllocations g + if 0 < d.tensorSplit g then graphOffload else 0
  let memoryRequiredPartial := gpuAllocations.sum
  let memoryRequiredTotal := memoryRequiredPartial + d.overflow
  if m.gpus = [] ∨ d.layerCount = 0 then ⟨0, 0, 0, memoryRequiredTotal, [], []⟩
  else ⟨d.layerCount, graphOffload, memoryRequiredPartial, memoryRequiredTotal,
    (List.range m.gpus.length).map d.tensorSplit, gpuAllocations⟩

/-! ## §4  What an estimate should be -/

/-- The layer size at the `k`-th block that is dealt. -/
def dealtSize : ℕ → ℕ
  | 0 => bufferSize m
  | k + 1 => sizeAt m (m.blockCount - 1 - k) (dealtSize k)

def parts : List ℕ :=
  [m.llamaEngineProjectorWeights] ++
    ((List.range m.blockCount).map fun k => dealtSize m (k + 1)) ++ [memoryLastLayer m]

/-- Every part is on one GPU or in the overflow. -/
def Counted (e : MemoryEstimate) : Prop :=
  ∃ ledger : Ledger, ledger.map Prod.fst = parts m ∧ ledger.Within e.gpuSizes.length ∧
    (∀ g split size, e.tensorSplit[g]? = some split → e.gpuSizes[g]? = some size →
      size = base m g + (if 0 < split then e.graph else 0) + ledger.load g) ∧
    e.totalSize = e.gpuSizes.sum + ledger.rest

/-- No GPU holds too much, the layers are those of the split, and every part is counted once. An
estimate without layers has no GPUs, and counts what the GPUs with space would hold. -/
structure Sound (e : MemoryEstimate) : Prop where
  fits : ∀ g split size, e.tensorSplit[g]? = some split → e.gpuSizes[g]? = some size →
    0 < split → size + m.overhead ≤ freeMemory m g
  split : e.tensorSplit.sum = e.layers
  layers : e.layers ≤ m.blockCount + 1
  counted : 0 < e.layers ∨ initialSpace m = [] → Counted m e
  unused : e.layers = 0 → e.gpuSizes = [] ∧
    e.totalSize = (∑ g ∈ Finset.range m.gpus.length, base m g) + (parts m).sum

/-! ## §5  Dealing a block -/

variable {m} {d : Deal} {ledger : Ledger}

/-- The loop takes a GPU with room out of those that are left, or none is left. -/
theorem chooseGPU_spec (fits : ℕ → Bool) (i j : ℕ) {gpusWithSpace : List ℕ}
    (hj : gpusWithSpace.length = j) :
    (∃ g left, chooseGPU fits i j gpusWithSpace = (some g, left) ∧ fits g = true ∧
        g ∈ gpusWithSpace ∧ left ⊆ gpusWithSpace) ∨
      chooseGPU fits i j gpusWithSpace = (none, []) := by
  induction j generalizing gpusWithSpace with
  | zero =>
    rw [eq_nil_of_length_eq_zero hj]
    exact .inr rfl
  | succ j ih =>
    have hlt : i % (j + 1) < gpusWithSpace.length := by
      rw [hj]
      exact Nat.mod_lt _ (Nat.succ_pos j)
    rw [chooseGPU, getElem?_eq_getElem hlt]
    dsimp only
    split
    · next hfits => exact .inl ⟨_, _, rfl, hfits, getElem_mem hlt, fun _ h => h⟩
    have hlen : (gpusWithSpace.eraseIdx (i % (j + 1))).length = j := by
      rw [length_eraseIdx_of_lt hlt, hj, Nat.add_sub_cancel]
    rcases ih hlen with ⟨g, left, heq, hfits, hmem, hsub⟩ | hnone
    · have herase := eraseIdx_subset (l := gpusWithSpace) (k := i % (j + 1))
      exact .inl ⟨g, left, heq, hfits, herase hmem, fun x hx => herase (hsub hx)⟩
    · exact .inr hnone

/-- What a block does: it goes into the overflow, at the limit or with no GPU left, or onto a GPU
with room. -/
theorem dealBlock_cases (d : Deal) (i : ℕ) :
    (∃ left ⊆ d.gpusWithSpace, (limited m d.layerCount = true ∨ left = []) ∧ dealBlock m d i =
        { d with
          gpusWithSpace := left
          layerSize := sizeAt m i d.layerSize
          overflow := d.overflow + sizeAt m i d.layerSize }) ∨
      ∃ g left, limited m d.layerCount = false ∧ g ∈ d.gpusWithSpace ∧ left ⊆ d.gpusWithSpace ∧
        fits m d (sizeAt m i d.layerSize) g = true ∧ dealBlock m d i =
          { d.add g (sizeAt m i d.layerSize) with
            gpusWithSpace := left
            layerSize := sizeAt m i d.layerSize } := by
  unfold dealBlock
  generalize sizeAt m i d.layerSize = size
  by_cases hlimited : limited m d.layerCount = true
  · rw [if_pos hlimited]
    exact .inl ⟨d.gpusWithSpace, fun _ h => h, .inl hlimited, rfl⟩
  rw [if_neg hlimited]
  rcases chooseGPU_spec (fits m { d with layerSize := size } size) i d.gpusWithSpace.length rfl
    with ⟨g, left, heq, hfits, hmem, hsub⟩ | hnone
  · rw [heq]
    exact .inr ⟨g, left, Bool.eq_false_iff.mpr hlimited, hmem, hsub, hfits, rfl⟩
  · rw [hnone]
    exact .inl ⟨[], nil_subset _, .inr rfl, rfl⟩

/-! ## §6  Dealing the blocks -/

structure Dealt (m : Inputs) (ledger : Ledger) (d : Deal) : Prop where
  alloc : ∀ g, d.gpuAllocations g = base m g + ledger.load g
  overflow : d.overflow = ledger.rest
  within : ledger.Within m.gpus.length
  space : ∀ g ∈ d.gpusWithSpace, g < m.gpus.length
  split : ∑ g ∈ Finset.range m.gpus.length, d.tensorSplit g = d.layerCount
  room : ∀ g, 0 < d.tensorSplit g → d.gpuAllocations g + maxGraph m + m.overhead ≤ freeMemory m g

theorem sum_update {n g : ℕ} (f : ℕ → ℕ) (hg : g < n) :
    ∑ x ∈ Finset.range n, Function.update f g (f g + 1) x = (∑ x ∈ Finset.range n, f x) + 1 := by
  have hmem := Finset.mem_range.mpr hg
  rw [Finset.sum_update_of_mem hmem, ← Finset.add_sum_erase _ f hmem,
    Finset.sdiff_singleton_eq_erase]
  omega

/-- A part goes onto a GPU with room. -/
theorem Dealt.add {g size : ℕ} (h : Dealt m ledger d) (hg : g < m.gpus.length)
    (hfits : fits m d size g = true) : Dealt m (ledger ++ [(size, some g)]) (d.add g size) where
  alloc := by
    intro x
    rw [load_append, load_singleton]
    show Function.update d.gpuAllocations g (d.gpuAllocations g + size) x = _
    by_cases hx : x = g
    · subst hx
      rw [Function.update_self, if_pos rfl, h.alloc x, Nat.add_assoc]
    · rw [Function.update_of_ne hx, if_neg fun heq => hx (Option.some.inj heq).symm, h.alloc x,
        Nat.add_zero]
  overflow := by
    rw [rest_append, rest_singleton, if_neg (Option.some_ne_none g), Nat.add_zero]
    exact h.overflow
  within := h.within.append (within_singleton fun x hx => Option.some.inj hx ▸ hg)
  space := h.space
  split := by
    show ∑ x ∈ Finset.range _, Function.update d.tensorSplit g _ x = d.layerCount + 1
    rw [sum_update d.tensorSplit hg, h.split]
  room := by
    intro x hx
    show Function.update d.gpuAllocations g (d.gpuAllocations g + size) x + _ + _ ≤ _
    by_cases heq : x = g
    · subst heq
      have := of_decide_eq_true hfits
      rw [Function.update_self]
      omega
    · rw [Function.update_of_ne heq]
      apply h.room x
      have hsplit : 0 < Function.update d.tensorSplit g (d.tensorSplit g + 1) x := hx
      rwa [Function.update_of_ne heq] at hsplit

/-- A part goes into the overflow. -/
theorem Dealt.over {size : ℕ} (h : Dealt m ledger d) :
    Dealt m (ledger ++ [(size, none)]) { d with overflow := d.overflow + size } where
  alloc := by
    intro g
    rw [load_append, load_singleton, if_neg (Option.some_ne_none g).symm, Nat.add_zero]
    exact h.alloc g
  overflow := by
    rw [rest_append, rest_singleton, if_pos rfl, ← h.overflow]
  within := h.within.append (within_singleton fun _ hg => absurd hg.symm (Option.some_ne_none _))
  space := h.space
  split := h.split
  room := h.room

theorem Dealt.shrink {left : List ℕ} (h : Dealt m ledger d) (hsub : left ⊆ d.gpusWithSpace)
    (layerSize : ℕ) :
    Dealt m ledger { d with gpusWithSpace := left, layerSize := layerSize } where
  alloc := h.alloc
  overflow := h.overflow
  within := h.within
  space g hg := h.space g (hsub hg)
  split := h.split
  room := h.room

theorem initialSpace_lt : ∀ g ∈ initialSpace m, g < m.gpus.length := by
  have hfold : ∀ (is gs : List ℕ), (∀ i ∈ is, i < m.gpus.length) → (∀ g ∈ gs, g < m.gpus.length) →
      ∀ g ∈ is.foldl (fun gpusWithSpace i =>
        let gzo := if gpusWithSpace = [] then m.llamaEngineProjectorWeights else 0
        if freeMemory m i < m.overhead + gzo + maxGraph m + minimumMemory m i + 2 * bufferSize m
        then gpusWithSpace else gpusWithSpace ++ [i]) gs, g < m.gpus.length := by
    intro is
    induction is with
    | nil => exact fun gs _ hgs => hgs
    | cons i is ih =>
      intro gs his hgs
      apply ih _ fun x hx => his x (mem_cons_of_mem _ hx)
      dsimp only
      generalize (if gs = [] then m.llamaEngineProjectorWeights else 0) = gzo
      split
      · exact hgs
      · intro g hg
        rcases mem_append.mp hg with hg | hg
        · exact hgs g hg
        · rw [mem_singleton.mp hg]
          exact his i mem_cons_self
  exact hfold _ [] (fun i hi => mem_range.mp hi) (forall_mem_nil _)

theorem dealt_initial :
    Dealt m [(m.llamaEngineProjectorWeights, (initialSpace m).head?)] (initialDeal m) where
  alloc g := by rw [load_singleton]; rfl
  overflow := by
    rw [rest_singleton]
    simp only [head?_eq_none_iff]
    rfl
  within := within_singleton fun g hg => initialSpace_lt g (mem_of_head? hg)
  space := initialSpace_lt
  split := Finset.sum_const_zero
  room g hg := absurd hg (Nat.lt_irrefl 0)

/-- All of `k` blocks found a place, or the user's limit is reached or no GPU is left. -/
def Complete (m : Inputs) (k : ℕ) (d : Deal) : Prop :=
  d.layerCount = k ∨ limited m d.layerCount = true ∨ d.gpusWithSpace = []

/-- The blocks that are dealt are in the ledger. -/
theorem dealBlocks_spec (m : Inputs) (k : ℕ) : ∃ ledger : Ledger, ledger.map Prod.fst =
        [m.llamaEngineProjectorWeights] ++ (List.range k).map (fun k => dealtSize m (k + 1)) ∧
      Dealt m ledger (dealBlocks m k) ∧ (dealBlocks m k).layerSize = dealtSize m k ∧
      (dealBlocks m k).layerCount ≤ k ∧ Complete m k (dealBlocks m k) := by
  induction k with
  | zero => exact ⟨_, rfl, dealt_initial, rfl, Nat.le_refl 0, .inl rfl⟩
  | succ k ih =>
    obtain ⟨ledger, hsizes, hdealt, hlayer, hcount, hcomplete⟩ := ih
    have hsize : sizeAt m (m.blockCount - 1 - k) (dealBlocks m k).layerSize =
        dealtSize m (k + 1) := by
      rw [hlayer]
      rfl
    have hledger : ∀ place, (ledger ++ [(dealtSize m (k + 1), place)]).map Prod.fst =
        [m.llamaEngineProjectorWeights] ++
          (List.range (k + 1)).map (fun k => dealtSize m (k + 1)) := by
      intro place
      rw [map_append, hsizes, range_succ, map_append, append_assoc]
      rfl
    rw [dealBlocks]
    rcases dealBlock_cases (dealBlocks m k) (m.blockCount - 1 - k) with
      ⟨left, hsub, hover, heq⟩ | ⟨g, left, hlimited, hg, hsub, hfits, heq⟩
    · rw [heq, hsize]
      exact ⟨_, hledger none, hdealt.over.shrink hsub _, rfl, Nat.le_succ_of_le hcount, .inr hover⟩
    rw [hsize] at hfits
    rw [heq, hsize]
    refine ⟨_, hledger (some g), (hdealt.add (hdealt.space g hg) hfits).shrink hsub _, rfl,
      Nat.succ_le_succ hcount, .inl ?_⟩
    rcases hcomplete with hall | hlimit | hnone
    · exact congrArg (· + 1) hall
    · rw [hlimited] at hlimit
      cases hlimit
    · rw [hnone] at hg
      exact absurd hg not_mem_nil

/-! ## §7  The output part -/

theorem chooseOutput_spec {fits : ℕ → Bool} {gpusWithSpace : List ℕ} {layerCount j g : ℕ}
    (h : chooseOutput fits gpusWithSpace layerCount j = some g) :
    g ∈ gpusWithSpace ∧ fits g = true := by
  induction j with
  | zero => cases h
  | succ j ih =>
    rw [chooseOutput] at h
    split at h
    · cases h
    rename_i x hx
    split at h
    · next hfits =>
      cases h
      exact ⟨mem_of_getElem? hx, hfits⟩
    · exact ih h

theorem outputGPU_spec {g : ℕ} (h : outputGPU m d = some g) :
    g ∈ d.gpusWithSpace ∧ fits m d (memoryLastLayer m) g = true ∧ 0 < memoryLastLayer m := by
  unfold outputGPU at h
  split at h
  · next hlast =>
    obtain ⟨hmem, hfits⟩ := chooseOutput_spec h
    exact ⟨hmem, hfits, hlast.1⟩
  · cases h

theorem complete_output {g : ℕ} (h : Complete m m.blockCount d) (hout : outputGPU m d = some g) :
    d.layerCount = m.blockCount := by
  have hmem := (outputGPU_spec hout).1
  rcases h with hall | hlimited | hnone
  · exact hall
  · unfold outputGPU at hout
    rw [if_neg fun h => by rw [hlimited] at h; cases h.2] at hout
    cases hout
  · rw [hnone] at hmem
    exact absurd hmem not_mem_nil

/-- The output part is in the ledger. -/
theorem dealOutput_spec (h : Dealt m ledger d) (hcount : d.layerCount ≤ m.blockCount)
    (hcomplete : Complete m m.blockCount d) :
    Dealt m (ledger ++ [(memoryLastLayer m, outputGPU m d)]) (dealOutput m d) ∧
      (dealOutput m d).layerCount ≤ m.blockCount + 1 := by
  unfold dealOutput
  cases hout : outputGPU m d with
  | none =>
    have hover := @Dealt.over m d ledger (memoryLastLayer m) h
    by_cases hlast : 0 < memoryLastLayer m
    · rw [if_pos ⟨hlast, Nat.lt_succ_of_le hcount⟩]
      exact ⟨hover, Nat.le_succ_of_le hcount⟩
    · rw [Nat.eq_zero_of_not_pos hlast] at hover ⊢
      exact ⟨hover, Nat.le_succ_of_le hcount⟩
  | some g =>
    obtain ⟨hmem, hfits, -⟩ := outputGPU_spec hout
    have hall := complete_output hcomplete hout
    have hlayers : (d.add g (memoryLastLayer m)).layerCount = m.blockCount + 1 :=
      congrArg (· + 1) hall
    rw [if_neg fun h => Nat.ne_of_lt h.2 hlayers]
    exact ⟨h.add (h.space g hmem) hfits, hlayers.le⟩

/-! ## §8  The estimate is sound -/

/-- The ledger in which nothing has a place. -/
theorem exists_unplaced (sizes : List ℕ) :
    ∃ ledger : Ledger, ledger.map Prod.fst = sizes ∧ ledger.Within 0 ∧ ledger.rest = sizes.sum := by
  have hfst : (sizes.map fun size => ((size, none) : ℕ × Option ℕ)).map Prod.fst = sizes := by
    rw [map_map]
    exact map_id _
  have hwithin : Ledger.Within (sizes.map fun size => (size, none)) 0 := by
    intro entry hentry g hg
    obtain ⟨size, -, rfl⟩ := mem_map.mp hentry
    cases hg
  have hsum := sum_load hwithin
  rw [Finset.range_zero, Finset.sum_empty, Nat.zero_add, hfst] at hsum
  exact ⟨_, hfst, hwithin, hsum⟩

theorem getElem?_map_range {f : ℕ → ℕ} {n g x : ℕ} (h : ((List.range n).map f)[g]? = some x) :
    g < n ∧ x = f g := by
  rw [getElem?_map, Option.map_eq_some_iff] at h
  obtain ⟨y, hy, rfl⟩ := h
  obtain ⟨hlt, rfl⟩ := List.getElem?_eq_some_iff.mp hy
  rw [length_range] at hlt
  exact ⟨hlt, by rw [getElem_range]⟩

section Estimate

variable {graph : ℕ} (hdealt : Dealt m ledger d) (hparts : ledger.map Prod.fst = parts m)

def held (m : Inputs) (d : Deal) (graph : ℕ) : List ℕ :=
  (List.range m.gpus.length).map fun g =>
    d.gpuAllocations g + if 0 < d.tensorSplit g then graph else 0

include hdealt hparts in
theorem sound_layers (hgraph : graph ≤ maxGraph m) (hpos : 0 < d.layerCount)
    (hlayers : d.layerCount ≤ m.blockCount + 1) (vram : ℕ) :
    Sound m ⟨d.layerCount, graph, vram, (held m d graph).sum + d.overflow,
      (List.range m.gpus.length).map d.tensorSplit, held m d graph⟩ := by
  have hheld : ∀ g split size, ((List.range m.gpus.length).map d.tensorSplit)[g]? = some split →
      (held m d graph)[g]? = some size → split = d.tensorSplit g ∧
        size = d.gpuAllocations g + if 0 < d.tensorSplit g then graph else 0 := by
    intro g split size hsplit hsize
    exact ⟨(getElem?_map_range hsplit).2, (getElem?_map_range hsize).2⟩
  refine ⟨?_, ?_, hlayers, fun _ => ⟨ledger, hparts, ?_, ?_, ?_⟩, ?_⟩
  · intro g split size hsplit hsize hpos
    obtain ⟨rfl, rfl⟩ := hheld g split size hsplit hsize
    have hroom := hdealt.room g hpos
    rw [if_pos hpos]
    omega
  · dsimp only
    rw [sum_map_range, hdealt.split]
  · dsimp only [held]
    rw [length_map, length_range]
    exact hdealt.within
  · intro g split size hsplit hsize
    obtain ⟨rfl, rfl⟩ := hheld g split size hsplit hsize
    dsimp only
    rw [hdealt.alloc g]
    omega
  · dsimp only
    rw [hdealt.overflow]
  · intro hzero
    exact absurd hzero (Nat.ne_of_gt hpos)

include hdealt hparts in
theorem sound_no_layers (hcount : d.layerCount = 0) (graph : ℕ) :
    Sound m ⟨0, 0, 0, (held m d graph).sum + d.overflow, [], []⟩ := by
  have htotal : (held m d graph).sum + d.overflow =
      (∑ g ∈ Finset.range m.gpus.length, base m g) + (parts m).sum := by
    have hzero : ∀ g ∈ Finset.range m.gpus.length, d.tensorSplit g = 0 :=
      Finset.sum_eq_zero_iff.mp (hdealt.split.trans hcount)
    have hsum := sum_load hdealt.within
    rw [held, sum_map_range, hdealt.overflow, ← hparts, ← hsum, ← Nat.add_assoc,
      ← Finset.sum_add_distrib]
    congr 1
    apply Finset.sum_congr rfl
    intro g hg
    rw [hzero g hg, hdealt.alloc g, if_neg (Nat.lt_irrefl 0), Nat.add_zero]
  rw [htotal]
  refine ⟨fun g split size hsplit => (nomatch hsplit), rfl, Nat.zero_le _, ?_, fun _ => ⟨rfl, rfl⟩⟩
  rintro (hpos | hspace)
  · exact absurd hpos (Nat.lt_irrefl 0)
  have hbase : ∑ g ∈ Finset.range m.gpus.length, base m g = 0 := by
    apply Finset.sum_eq_zero
    intro g _
    rw [base, hspace]
    exact if_neg not_mem_nil
  obtain ⟨ledger', hsizes, hwithin, hrest⟩ := exists_unplaced (parts m)
  refine ⟨ledger', hsizes, hwithin, fun g split size hsplit => (nomatch hsplit), ?_⟩
  dsimp only
  rw [hbase, sum_nil, hrest]

end Estimate

/-- **The memory estimate is sound**, whatever the GPUs, the sizes and the limit. -/
theorem estimateGPULayers_sound (m : Inputs) : Sound m (estimateGPULayers m) := by
  obtain ⟨ledger, hsizes, hdealt, -, hcount, hcomplete⟩ := dealBlocks_spec m m.blockCount
  obtain ⟨hout, hlayers⟩ := dealOutput_spec hdealt hcount hcomplete
  unfold estimateGPULayers
  dsimp only
  generalize dealBlocks m m.blockCount = blocks at *
  generalize dealOutput m blocks = d at *
  generalize hledger : ledger ++ [(memoryLastLayer m, outputGPU m blocks)] = ledger' at *
  have hparts : ledger'.map Prod.fst = parts m := by
    rw [← hledger, map_append, hsizes]
    rfl
  generalize (decide (m.blockCount ≤ blocks.layerCount ∧
    ¬(0 < memoryLastLayer m ∧ d.layerCount < m.blockCount + 1))) = fullyLoaded
  have hgraph : (if fullyLoaded = true then graphFullOffload m else graphPartialOffload m) ≤
      maxGraph m := by
    split
    · exact Nat.le_max_right _ _
    · exact Nat.le_max_left _ _
  generalize (if fullyLoaded = true then graphFullOffload m else graphPartialOffload m) = graph at *
  by_cases hearly : m.gpus = [] ∨ d.layerCount = 0
  · rw [if_pos hearly]
    have hzero : d.layerCount = 0 := by
      rcases hearly with hgpus | hzero
      · have hsplit := hout.split
        rw [hgpus, length_nil, Finset.range_zero, Finset.sum_empty] at hsplit
        exact hsplit.symm
      · exact hzero
    exact sound_no_layers hout hparts hzero graph
  · rw [if_neg hearly]
    have hpos : 0 < d.layerCount := Nat.pos_of_ne_zero fun h => hearly (.inr h)
    exact sound_layers hout hparts hgraph hpos hlayers _

/-- A model of one block on the CPU, next to a GPU with space. -/
def cpuOnly : Inputs where
  gpus := [⟨⟨"0", "CUDA"⟩, false, 2 ^ 30⟩]
  overhead := 0
  numGPU := 0
  blockCount := 1
  layers name := if name = "blk.0" then some 100 else none
  kv := [10]
  partialOffload := 0
  fullOffload := 0
  llamaEngineProjectorWeights := 0
  ollamaEngineProjectorWeights := 0
  ollamaEngineProjectorGraph := 0

/-- The total has the minimum of the GPU that is not used, and the buffer. -/
theorem not_counted_cpuOnly : ¬ Counted cpuOnly (estimateGPULayers cpuOnly) := by
  rintro ⟨ledger, hsizes, hwithin, -, htotal⟩
  have hgpus : (estimateGPULayers cpuOnly).gpuSizes = [] := by decide +kernel
  have hsum := sum_load hwithin
  rw [hgpus, length_nil, Finset.range_zero, Finset.sum_empty, Nat.zero_add, hsizes] at hsum
  rw [hgpus, hsum] at htotal
  exact absurd htotal (by decide +kernel)

end Ollama.Llm.Memory
