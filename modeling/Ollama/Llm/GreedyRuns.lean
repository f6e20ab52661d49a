import Ollama.Llm.Layout
import Ollama.Lib.Packing
import Mathlib.Data.List.GetD

/-!
# Greedy packing places the longest run

`greedyFit` of `llm/server.go` for any space on the GPUs; the code's packing has
the space in single precision. A layout is a run of layers that ends at the last
one, and no longer run fits.
-/

namespace Ollama.Llm

open Lib List

/-! ## §1  Packing for any space -/

section Space

variable (space : DeviceInfo → ℕ)

/-- The inner loop of `greedyFit`. -/
def findSpaceBy (size : ℕ) : Layout → ℕ → List DeviceInfo → Layout × Option (ℕ × List DeviceInfo)
  | l, free, [] => (l, if size ≤ free then some (free, []) else none)
  | l, free, g :: gpus =>
      if size ≤ free then (l, some (free, g :: gpus))
      else findSpaceBy size (⟨g.deviceID, []⟩ :: l) (space g) gpus

/-- The loop over the layers, the last one first. -/
def placeLayersBy (requested : ℤ) : List (ℕ × ℕ) → ℕ → Layout → ℕ → List DeviceInfo → Layout
  | [], _, l, _, _ => l
  | (size, i) :: todo, placed, l, free, gpus =>
      if 0 ≤ requested ∧ requested ≤ placed then l
      else
        match findSpaceBy space size l free gpus with
        | (l, none) => l
        | (l, some (free, gpus)) =>
            placeLayersBy requested todo (placed + 1) (l.prepend i) (free - size) gpus

/-- `greedyFit`, which is not called without a GPU. -/
def greedyFitBy (layers : List ℕ) (gpus : List DeviceInfo) (requested : ℤ) : Layout :=
  match gpus.reverse with
  | [] => []
  | g :: gpus =>
      placeLayersBy space requested layers.zipIdx.reverse 0 [⟨g.deviceID, []⟩] (space g) gpus

end Space

theorem findSpace_eq (capacity size : ℕ) (gpus : List DeviceInfo) : ∀ (l : Layout) (free : ℕ),
    findSpace capacity size l free gpus =
      findSpaceBy (fun d => d.space capacity) size l free gpus := by
  induction gpus with
  | nil => exact fun _ _ => rfl
  | cons g gpus ih =>
    intro l free
    rw [findSpace, findSpaceBy, ih]

theorem placeLayers_eq (capacity : ℕ) (requested : ℤ) (todo : List (ℕ × ℕ)) :
    ∀ (placed : ℕ) (l : Layout) (free : ℕ) (gpus : List DeviceInfo),
      placeLayers capacity requested todo placed l free gpus =
        placeLayersBy (fun d => d.space capacity) requested todo placed l free gpus := by
  induction todo with
  | nil => exact fun _ _ _ _ => rfl
  | cons p todo ih =>
    intro placed l free gpus
    obtain ⟨size, i⟩ := p
    rw [placeLayers, placeLayersBy]
    by_cases hstop : 0 ≤ requested ∧ requested ≤ placed
    · rw [if_pos hstop, if_pos hstop]
    · rw [if_neg hstop, if_neg hstop, findSpace_eq]
      rcases findSpaceBy (fun d => d.space capacity) size l free gpus with ⟨l₁, _ | ⟨free₁, gpus₁⟩⟩
      · rfl
      · exact ih _ _ _ _

theorem greedyFit_eq (layers : List ℕ) (gpus : List DeviceInfo) (capacity : ℕ) (requested : ℤ) :
    greedyFit layers gpus capacity requested =
      greedyFitBy (fun d => d.space capacity) layers gpus requested := by
  unfold greedyFit greedyFitBy
  cases gpus.reverse with
  | nil => rfl
  | cons g gpus => exact placeLayers_eq capacity requested _ _ _ _ _

/-! ## §2  Runs of layers -/

/-- The layers on each GPU; GPUs before the first one of the layout have none. -/
def Layout.blocks (n : ℕ) (l : Layout) : List (List ℕ) :=
  List.replicate (n - l.length) [] ++ l.map GPULayers.layers

def blockSize (layers block : List ℕ) : ℕ := (block.map fun i => layers.getD i 0).sum

theorem blockSize_cons (layers : List ℕ) (i : ℕ) (block : List ℕ) :
    blockSize layers (i :: block) = layers.getD i 0 + blockSize layers block := sum_cons

/-- The last `k` layers in blocks, one for each GPU and no larger than its room. -/
structure Assigned (layers : List ℕ) (gpus : List DeviceInfo) (room : DeviceInfo → ℕ) (k : ℕ)
    (blocks : List (List ℕ)) : Prop where
  fits : List.Forall₂ (fun d block => blockSize layers block ≤ room d) gpus blocks
  run : blocks.flatten = List.range' (layers.length - k) k
  le : k ≤ layers.length

section Runs

variable {layers : List ℕ} {gpus : List DeviceInfo} {room room' : DeviceInfo → ℕ} {k : ℕ}
  {blocks : List (List ℕ)}

theorem Assigned.mono (h : Assigned layers gpus room k blocks) (hle : ∀ d, room d ≤ room' d) :
    Assigned layers gpus room' k blocks :=
  ⟨h.fits.imp fun d _ hd => hd.trans (hle d), h.run, h.le⟩

theorem sizes_of_run (h : k ≤ layers.length) :
    (List.range' (layers.length - k) k).map (fun i => layers.getD i 0) =
      layers.drop (layers.length - k) := by
  apply ext_getElem
  · rw [length_map, length_range', length_drop]
    omega
  · intro i hi _
    rw [length_map, length_range'] at hi
    rw [getElem_map, getElem_range', one_mul, getElem_drop, getD_eq_getElem _ _ (by omega)]

theorem map_fst_take_todo (layers : List ℕ) (k : ℕ) :
    (layers.zipIdx.reverse.take k).map Prod.fst = (layers.drop (layers.length - k)).reverse := by
  rw [map_take, map_reverse, zipIdx_map_fst, take_reverse]

/-- An assignment is a packing of the sizes: from the last GPU to the first, and
in each from its last layer to its first. -/
theorem Assigned.packing (h : Assigned layers gpus room k blocks) :
    Packing.Fits (gpus.reverse.map room) ((layers.zipIdx.reverse.take k).map Prod.fst) := by
  refine ⟨blocks.reverse.map fun b => (b.map fun i => layers.getD i 0).reverse, ?_, ?_⟩
  · refine forall₂_map_left_iff.mpr (forall₂_map_right_iff.mpr ?_)
    refine forall₂_reverse_iff.mpr (h.fits.imp fun d b hb => ?_)
    rw [sum_reverse]
    exact hb
  · rw [map_fst_take_todo, ← sizes_of_run h.le, ← h.run, map_flatten, reverse_flatten,
      map_map, ← map_reverse]
    rfl

end Runs

/-! ## §3  Packing yields a run -/

section Packed

variable {layers : List ℕ} {gpus : List DeviceInfo} {space : DeviceInfo → ℕ}

/-- The state of the packing, with `free` left on the GPU in use and the GPUs
`rest` still to come: the layers placed so far are assigned. -/
inductive Packed (layers : List ℕ) (gpus : List DeviceInfo) (space : DeviceInfo → ℕ) :
    List DeviceInfo → Layout → ℕ → ℕ → Prop
  | mk {rest visited : List DeviceInfo} {d : DeviceInfo} {g : GPULayers} {l : Layout}
      {free placed : ℕ} (order : gpus = rest.reverse ++ d :: visited)
      (ids : g.deviceID = d.deviceID ∧ l.map GPULayers.deviceID = visited.map DeviceInfo.deviceID)
      (inUse : blockSize layers g.layers + free ≤ space d)
      (full : List.Forall₂ (fun d b => blockSize layers b ≤ space d) visited (l.map GPULayers.layers))
      (run : g.layers ++ (l.map GPULayers.layers).flatten =
        List.range' (layers.length - placed) placed) :
      Packed layers gpus space rest (g :: l) free placed

variable {rest : List DeviceInfo} {l : Layout}

theorem Packed.next {d : DeviceInfo} {free placed : ℕ}
    (h : Packed layers gpus space (d :: rest) l free placed) :
    Packed layers gpus space rest (⟨d.deviceID, []⟩ :: l) (space d) placed := by
  rcases h with ⟨order, ⟨hid, hids⟩, inUse, full, run⟩
  refine ⟨?_, ⟨rfl, ?_⟩, ?_, List.Forall₂.cons (Nat.le_of_add_right_le inUse) full, run⟩
  · rw [order, reverse_cons, append_assoc]
    rfl
  · rw [map_cons, map_cons, hid, hids]
  · exact (Nat.zero_add _).le

theorem Packed.place {free placed i : ℕ}
    (h : Packed layers gpus space rest l free placed) (hle : layers.getD i 0 ≤ free)
    (hi : i + 1 + placed = layers.length) :
    Packed layers gpus space rest (l.prepend i) (free - layers.getD i 0) (placed + 1) := by
  rcases h with ⟨order, ids, inUse, full, run⟩
  refine ⟨order, ids, ?_, full, ?_⟩
  · rw [blockSize_cons]
    omega
  · rw [show layers.length - (placed + 1) = i by omega, range'_succ, cons_append, run,
      show layers.length - placed = i + 1 by omega]

/-- The search for space leaves the layers where they are. -/
theorem Packed.findSpaceBy {size placed : ℕ} {rest : List DeviceInfo} :
    ∀ {l : Layout} {free : ℕ}, Packed layers gpus space rest l free placed →
      ∃ rest' free', Packed layers gpus space rest' (findSpaceBy space size l free rest).1 free'
          placed ∧
        ∀ next, (findSpaceBy space size l free rest).2 = some next →
          next = (free', rest') ∧ size ≤ free' := by
  induction rest with
  | nil =>
    intro l free h
    refine ⟨[], free, h, fun next hnext => ?_⟩
    rw [Llm.findSpaceBy] at hnext
    split at hnext
    · rename_i hle
      exact ⟨(Option.some.inj hnext).symm, hle⟩
    · cases hnext
  | cons d rest ih =>
    intro l free h
    rw [Llm.findSpaceBy]
    split
    · rename_i hle
      exact ⟨d :: rest, free, h, fun next hnext => ⟨(Option.some.inj hnext).symm, hle⟩⟩
    · exact ih h.next

/-- What is still to be placed. -/
theorem todo_cons {todo : List (ℕ × ℕ)} {size i placed : ℕ}
    (h : layers.zipIdx.reverse.drop placed = (size, i) :: todo) :
    size = layers.getD i 0 ∧ i + 1 + placed = layers.length ∧
      layers.zipIdx.reverse.drop (placed + 1) = todo := by
  have hlt : placed < layers.zipIdx.reverse.length := by
    by_contra hge
    rw [drop_eq_nil_of_le (not_lt.mp hge)] at h
    cases h
  rw [drop_eq_getElem_cons hlt] at h
  obtain ⟨hp, hrest⟩ := List.cons.inj h
  rw [length_reverse, length_zipIdx] at hlt
  rw [getElem_reverse, getElem_zipIdx] at hp
  obtain ⟨hsize, hi⟩ := Prod.mk.inj hp
  simp only [length_zipIdx, Nat.zero_add] at hsize hi
  subst hi
  refine ⟨?_, by omega, hrest⟩
  rw [getD_eq_getElem _ _ (by omega)]
  exact hsize.symm

theorem Packed.placeLayersBy {requested : ℤ} {todo : List (ℕ × ℕ)} :
    ∀ {placed : ℕ} {l : Layout} {free : ℕ} {rest : List DeviceInfo},
      layers.zipIdx.reverse.drop placed = todo → Packed layers gpus space rest l free placed →
        placed ≤ layers.length → (0 ≤ requested → (placed : ℤ) ≤ requested) →
          ∃ rest' free' placed', Packed layers gpus space rest'
              (placeLayersBy space requested todo placed l free rest) free' placed' ∧
            placed' ≤ layers.length ∧ (0 ≤ requested → (placed' : ℤ) ≤ requested) := by
  induction todo with
  | nil => exact fun _ h hle hreq => ⟨_, _, _, h, hle, hreq⟩
  | cons p todo ih =>
    obtain ⟨size, i⟩ := p
    intro placed l free rest htodo h hle hreq
    obtain ⟨rfl, hi, hrest⟩ := todo_cons htodo
    rw [Llm.placeLayersBy]
    split
    · exact ⟨_, _, _, h, hle, hreq⟩
    rename_i hstop
    obtain ⟨rest', free', h', hnext⟩ := h.findSpaceBy
    split
    · rename_i heq
      rw [heq] at h'
      exact ⟨_, _, _, h', hle, hreq⟩
    rename_i l₁ free₁ rest₁ heq
    rw [heq] at h' hnext
    obtain ⟨hpair, hsize⟩ := hnext _ rfl
    obtain ⟨rfl, rfl⟩ := Prod.mk.inj hpair
    refine ih hrest (h'.place hsize hi) (by omega) fun h0 => ?_
    have : ¬requested ≤ placed := fun hle => hstop ⟨h0, hle⟩
    push_cast
    omega

theorem unused_fit (layers : List ℕ) (space : DeviceInfo → ℕ) (unused : List DeviceInfo) :
    List.Forall₂ (fun d b => blockSize layers b ≤ space d) unused
      (List.replicate unused.length []) := by
  induction unused with
  | nil => exact List.Forall₂.nil
  | cons d unused ih => exact List.Forall₂.cons (Nat.zero_le _) ih

/-- What has been placed is a run of layers on the GPUs that were visited. -/
theorem Packed.assigned {free placed : ℕ}
    (h : Packed layers gpus space rest l free placed) (hle : placed ≤ layers.length) :
    l.sum = placed ∧ Assigned layers gpus space placed (l.blocks gpus.length) ∧
      l.map GPULayers.deviceID = (gpus.drop (gpus.length - l.length)).map DeviceInfo.deviceID := by
  obtain ⟨order, ⟨hid, hids⟩, inUse, full, run⟩ := h
  rename_i visited d g l
  have hlen : l.length = visited.length := by
    rw [← length_map GPULayers.deviceID, hids, length_map]
  have hunused : gpus.length - (g :: l).length = rest.reverse.length := by
    rw [order, length_append, length_cons, length_cons]
    omega
  refine ⟨?_, ⟨?_, ?_, hle⟩, ?_⟩
  · have := congrArg List.length run
    rw [length_range', length_append, length_flatten, map_map] at this
    exact this
  · rw [Layout.blocks, hunused, order]
    exact rel_append (unused_fit layers space _)
      (List.Forall₂.cons (Nat.le_of_add_right_le inUse) full)
  · rw [Layout.blocks, flatten_append, flatten_replicate_nil, nil_append]
    exact run
  · rw [hunused, order, drop_left, map_cons, map_cons, hid, hids]

end Packed

/-! ## §4  No longer run fits -/

@[simp] theorem sum_cons (g : GPULayers) (l : Layout) :
    Layout.sum (g :: l) = g.layers.length + Layout.sum l := rfl

theorem sum_prepend (i : ℕ) {l : Layout} (h : l ≠ []) : (l.prepend i).sum = l.sum + 1 := by
  obtain ⟨g, l, rfl⟩ := exists_cons_of_ne_nil h
  rw [Layout.prepend, sum_cons, sum_cons, length_cons]
  omega

theorem prepend_ne_nil (i : ℕ) {l : Layout} (h : l ≠ []) : l.prepend i ≠ [] := by
  obtain ⟨g, l, rfl⟩ := exists_cons_of_ne_nil h
  exact cons_ne_nil _ _

section Longest

variable {space : DeviceInfo → ℕ}

/-- Looking for space places no layer. -/
theorem findSpaceBy_sum (space : DeviceInfo → ℕ) (size : ℕ) (gpus : List DeviceInfo) :
    ∀ (l : Layout) (free : ℕ), l ≠ [] → (findSpaceBy space size l free gpus).1.sum = l.sum ∧
        (findSpaceBy space size l free gpus).1 ≠ [] := by
  induction gpus with
  | nil => exact fun l free hl => ⟨rfl, hl⟩
  | cons g gpus ih =>
    intro l free hl
    unfold findSpaceBy
    split
    · exact ⟨rfl, hl⟩
    · obtain ⟨hsum, hne⟩ := ih (⟨g.deviceID, []⟩ :: l) (space g) (cons_ne_nil _ _)
      exact ⟨hsum.trans (Nat.zero_add _), hne⟩

theorem sum_le_placeLayersBy (space : DeviceInfo → ℕ) (requested : ℤ) (todo : List (ℕ × ℕ)) :
    ∀ (placed : ℕ) (l : Layout) (free : ℕ) (gpus : List DeviceInfo), l ≠ [] →
      l.sum ≤ (placeLayersBy space requested todo placed l free gpus).sum := by
  induction todo with
  | nil => exact fun _ _ _ _ _ => le_rfl
  | cons p todo ih =>
    intro placed l free gpus hl
    obtain ⟨hsum, hne⟩ := findSpaceBy_sum space p.1 gpus l free hl
    unfold placeLayersBy
    split
    · exact le_rfl
    split
    · rename_i heq
      rw [heq] at hsum
      exact hsum.ge
    · rename_i l₁ free₁ gpus₁ heq
      rw [heq] at hsum hne
      have hrest := ih (placed + 1) (l₁.prepend p.2) (free₁ - p.1) gpus₁ (prepend_ne_nil p.2 hne)
      rw [sum_prepend p.2 hne] at hrest
      exact (hsum.ge.trans (Nat.le_succ _)).trans hrest

/-- Where the sizes fit, there is space for the first of them, and the others
still fit when it is taken. -/
theorem findSpaceBy_of_fits {size : ℕ} {items : List ℕ} {gpus : List DeviceInfo} :
    ∀ {l : Layout} {free : ℕ}, Packing.Fits (free :: gpus.map space) (size :: items) →
      ∃ l₁ free₁ gpus₁, findSpaceBy space size l free gpus = (l₁, some (free₁, gpus₁)) ∧
        Packing.Fits ((free₁ - size) :: gpus₁.map space) items := by
  induction gpus with
  | nil =>
    intro l free h
    have hle : size ≤ free := by
      by_contra hlt
      exact cons_ne_nil _ _ (Packing.eq_nil_of_fits (h.skip hlt))
    exact ⟨l, free, [], by rw [findSpaceBy, if_pos hle], h.fill⟩
  | cons g gpus ih =>
    intro l free h
    rw [findSpaceBy]
    by_cases hle : size ≤ free
    · exact ⟨l, free, g :: gpus, if_pos hle, h.fill⟩
    · rw [if_neg hle]
      exact ih (h.skip hle)

/-- **The packing places as many layers as fit.** -/
theorem le_sum_placeLayersBy {requested : ℤ} {todo : List (ℕ × ℕ)} :
    ∀ {k placed : ℕ} {l : Layout} {free : ℕ} {gpus : List DeviceInfo}, l ≠ [] →
      (0 ≤ requested → ((placed + k : ℕ) : ℤ) ≤ requested) → k ≤ todo.length →
        Packing.Fits (free :: gpus.map space) ((todo.take k).map Prod.fst) →
          l.sum + k ≤ (placeLayersBy space requested todo placed l free gpus).sum := by
  induction todo with
  | nil =>
    intro k placed l free gpus _ _ hk _
    exact (congrArg (l.sum + ·) (Nat.le_zero.mp hk)).le
  | cons p todo ih =>
    obtain ⟨size, i⟩ := p
    intro k placed l free gpus hl hreq hk h
    cases k with
    | zero => exact sum_le_placeLayersBy space requested _ _ _ _ _ hl
    | succ k =>
      obtain ⟨l₁, free₁, gpus₁, hfind, hrest⟩ := @findSpaceBy_of_fits _ _ _ _ l free h
      obtain ⟨hsum, hne⟩ := findSpaceBy_sum space size gpus l free hl
      rw [hfind] at hsum hne
      have hgo : ¬(0 ≤ requested ∧ requested ≤ placed) := by
        rintro ⟨h0, hle⟩
        omega
      rw [placeLayersBy, if_neg hgo, hfind]
      have hmore := @ih k (placed + 1) (l₁.prepend i) (free₁ - size) gpus₁ (prepend_ne_nil i hne)
        (fun h0 => by rw [Nat.add_right_comm]; exact hreq h0) (Nat.le_of_succ_le_succ hk) hrest
      rw [sum_prepend i hne, hsum, Nat.add_right_comm] at hmore
      exact hmore

end Longest

/-- A layout is a run of layers that ends at the last one, within the room of
the GPUs and the number requested, and no longer run fits on them. -/
structure Best (layers : List ℕ) (gpus : List DeviceInfo) (room : DeviceInfo → ℕ) (requested : ℤ)
    (l : Layout) : Prop where
  ids : l.map GPULayers.deviceID = (gpus.drop (gpus.length - l.length)).map DeviceInfo.deviceID
  assigned : Assigned layers gpus room l.sum (l.blocks gpus.length)
  within : 0 ≤ requested → (l.sum : ℤ) ≤ requested
  longest : ∀ (k : ℕ) blocks, (0 ≤ requested → (k : ℤ) ≤ requested) →
    Assigned layers gpus room k blocks → k ≤ l.sum

theorem greedyFitBy_best (space : DeviceInfo → ℕ) (layers : List ℕ) (gpus : List DeviceInfo)
    (requested : ℤ) : Best layers gpus space requested (greedyFitBy space layers gpus requested) := by
  unfold greedyFitBy
  cases hrev : gpus.reverse with
  | nil =>
    obtain rfl : gpus = [] := reverse_eq_nil_iff.mp hrev
    refine ⟨rfl, ⟨List.Forall₂.nil, rfl, Nat.zero_le _⟩, id, fun k blocks _ h => ?_⟩
    have hrun := h.run
    have hfits := h.fits
    cases hfits
    have := congrArg List.length hrun
    rw [length_range'] at this
    exact this.ge
  | cons g rest =>
    have horder : gpus = rest.reverse ++ [g] := by
      rw [← reverse_reverse gpus, hrev, reverse_cons]
    have hstart : Packed layers gpus space rest [⟨g.deviceID, []⟩] (space g) 0 :=
      ⟨horder, ⟨rfl, rfl⟩, (Nat.zero_add _).le, List.Forall₂.nil, rfl⟩
    obtain ⟨rest', free', placed, hpacked, hle, hreq⟩ :=
      @Packed.placeLayersBy _ _ _ requested layers.zipIdx.reverse 0 _ _ _ rfl hstart
        (Nat.zero_le _) id
    obtain ⟨hsum, hassigned, hids⟩ := hpacked.assigned hle
    rw [← hsum] at hassigned hreq
    refine ⟨hids, hassigned, hreq, fun k blocks hk h => ?_⟩
    have hfits := h.packing
    rw [hrev] at hfits
    have := @le_sum_placeLayersBy space requested layers.zipIdx.reverse k 0 [⟨g.deviceID, []⟩]
      (space g) rest (cons_ne_nil _ _) (by rwa [Nat.zero_add])
      (by rw [length_reverse, length_zipIdx]; exact h.le) hfits
    exact (Nat.zero_add k).ge.trans this

theorem Best.sum_le {layers : List ℕ} {gpus : List DeviceInfo} {room room' : DeviceInfo → ℕ}
    {requested : ℤ} {l l' : Layout} (h : Best layers gpus room requested l)
    (h' : Best layers gpus room' requested l') (hle : ∀ d, room d ≤ room' d) : l.sum ≤ l'.sum :=
  h'.longest _ _ h.within (h.assigned.mono hle)

end Ollama.Llm
