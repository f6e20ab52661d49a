import Ollama.Llm.CapacitySearch
import Mathlib.Data.Set.Finite.Lattice
import Mathlib.Data.Finite.Prod
import Mathlib.Order.Interval.Finset.Nat

/-!
# Finitely many layouts

Every layout that `createLayout` makes consists of at most as many GPUs as there
are, each with at most the layers of the model.
-/

namespace Ollama.Llm

open Lib List DeviceInfo

/-! ## §1  Layouts of bounded size -/

/-- At most `k` GPUs out of `ids`, with at most `n` layers each. -/
structure Fits (ids : List DeviceID) (n k : ℕ) (l : Layout) : Prop where
  length : l.length ≤ k
  id : ∀ g ∈ l, g.deviceID ∈ ids
  layers : ∀ g ∈ l, g.layers.length ≤ n ∧ ∀ i ∈ g.layers, i < n

theorem Fits.nil (ids : List DeviceID) (n k : ℕ) : Fits ids n k [] :=
  ⟨Nat.zero_le k, fun _ h => absurd h not_mem_nil, fun _ h => absurd h not_mem_nil⟩

variable {l : Layout}

theorem Fits.mono {ids ids' : List DeviceID} {n n' k k' : ℕ} (h : Fits ids n k l)
    (hids : ids ⊆ ids') (hn : n ≤ n') (hk : k ≤ k') : Fits ids' n' k' l :=
  ⟨h.length.trans hk, fun g hg => hids (h.id g hg), fun g hg =>
    ⟨(h.layers g hg).1.trans hn, fun i hi => ((h.layers g hg).2 i hi).trans_le hn⟩⟩

/-- Lists of bounded length over a finite set. -/
theorem finite_lists {α : Type} {s : Set α} (hs : s.Finite) (k : ℕ) :
    {l : List α | l.length ≤ k ∧ ∀ x ∈ l, x ∈ s}.Finite := by
  induction k with
  | zero =>
    refine (Set.finite_singleton []).subset fun l hl => ?_
    exact length_eq_zero_iff.mp (Nat.le_zero.mp hl.1)
  | succ k ih =>
    refine ((Set.finite_singleton []).union (hs.image2 List.cons ih)).subset ?_
    rintro l ⟨hlen, hmem⟩
    cases l with
    | nil => exact Or.inl rfl
    | cons x l =>
      exact Or.inr ⟨x, hmem x mem_cons_self, l,
        ⟨Nat.le_of_succ_le_succ hlen, fun y hy => hmem y (mem_cons_of_mem _ hy)⟩, rfl⟩

theorem finite_fits (ids : List DeviceID) (n k : ℕ) : {l | Fits ids n k l}.Finite := by
  have hlayers : {l : List ℕ | l.length ≤ n ∧ ∀ i ∈ l, i ∈ Set.Iio n}.Finite :=
    finite_lists (Set.finite_Iio n) n
  have hgpus := (finite_toSet ids).image2 GPULayers.mk hlayers
  refine (finite_lists hgpus k).subset fun l hl => ⟨hl.length, fun g hg => ?_⟩
  exact ⟨g.deviceID, hl.id g hg, g.layers, hl.layers g hg, rfl⟩

theorem Fits.sum_le {ids : List DeviceID} {n k : ℕ} (h : Fits ids n k l) :
    l.sum ≤ k * n := by
  have hsum : ∀ l : Layout, (∀ g ∈ l, g.layers.length ≤ n) → l.sum ≤ l.length * n := by
    intro l
    induction l with
    | nil => exact fun _ => Nat.zero_le _
    | cons g l ih =>
      intro hl
      rw [sum_cons, length_cons, Nat.succ_mul, add_comm]
      exact Nat.add_le_add (ih fun g hg => hl g (mem_cons_of_mem _ hg)) (hl g mem_cons_self)
  exact (hsum l fun g hg => (h.layers g hg).1).trans (Nat.mul_le_mul_right n h.length)

/-! ## §2  What is packed fits -/

/-- Each GPU that is tried takes a place in the layout. -/
theorem findSpace_length (capacity size : ℕ) (gpus : List DeviceInfo) : ∀ (l : Layout) (free : ℕ),
      (findSpace capacity size l free gpus).1.length ≤ l.length + gpus.length ∧
        ∀ free₁ gpus₁, (findSpace capacity size l free gpus).2 = some (free₁, gpus₁) →
          (findSpace capacity size l free gpus).1.length + gpus₁.length ≤
            l.length + gpus.length ∧ gpus₁ ⊆ gpus := by
  induction gpus with
  | nil =>
    intro l free
    refine ⟨le_rfl, fun free₁ gpus₁ h => ?_⟩
    unfold findSpace at h
    split at h
    · cases h
      exact ⟨le_rfl, fun _ h => h⟩
    · cases h
  | cons g gpus ih =>
    intro l free
    obtain ⟨hle, hfound⟩ := ih (⟨g.deviceID, []⟩ :: l) (g.space capacity)
    unfold findSpace
    split
    · refine ⟨Nat.le_add_right _ _, fun free₁ gpus₁ h => ?_⟩
      cases h
      exact ⟨le_rfl, fun _ h => h⟩
    · rw [length_cons] at hle hfound
      rw [length_cons]
      refine ⟨by omega, fun free₁ gpus₁ h => ?_⟩
      obtain ⟨hlen, hsub⟩ := hfound free₁ gpus₁ h
      exact ⟨by omega, fun d hd => mem_cons_of_mem _ (hsub hd)⟩

theorem findSpace_forall {P : GPULayers → Prop} (capacity size : ℕ) (gpus : List DeviceInfo) :
    ∀ (l : Layout) (free : ℕ), (∀ g ∈ l, P g) → (∀ d ∈ gpus, P ⟨d.deviceID, []⟩) →
      ∀ g ∈ (findSpace capacity size l free gpus).1, P g := by
  induction gpus with
  | nil => exact fun l free hl _ => hl
  | cons g gpus ih =>
    intro l free hl hgpus
    unfold findSpace
    split
    · exact hl
    · exact ih _ _ (forall_mem_cons.mpr ⟨hgpus g mem_cons_self, hl⟩)
        fun d hd => hgpus d (mem_cons_of_mem _ hd)

variable {requested : ℤ}

theorem placeLayers_fits {capacity : ℕ} {ids : List DeviceID} {n k : ℕ}
    (todo : List (ℕ × ℕ)) :
    ∀ (placed : ℕ) (l : Layout) (free : ℕ) (gpus : List DeviceInfo),
      l.length + gpus.length ≤ k → (∀ p ∈ todo, p.2 < n) → (∀ d ∈ gpus, d.deviceID ∈ ids) →
      todo.length ≤ n →
      (∀ g ∈ l, g.deviceID ∈ ids ∧ g.layers.length + todo.length ≤ n ∧ ∀ i ∈ g.layers, i < n) →
        Fits ids n k (placeLayers capacity requested todo placed l free gpus) := by
  induction todo with
  | nil =>
    intro placed l free gpus hk _ _ _ hl
    exact ⟨by rw [placeLayers]; omega, fun g hg => (hl g hg).1, fun g hg => (hl g hg).2⟩
  | cons p todo ih =>
    intro placed l free gpus hk hp hids hn hl
    obtain ⟨hlen, hfound⟩ := findSpace_length capacity p.1 gpus l free
    have hall := findSpace_forall capacity p.1 gpus l free hl fun d hd =>
      ⟨hids d hd, by rwa [length_nil, Nat.zero_add], fun i hi => absurd hi not_mem_nil⟩
    have hstop : ∀ l₁ : Layout, l₁.length ≤ k →
        (∀ g ∈ l₁, g.deviceID ∈ ids ∧ g.layers.length + (p :: todo).length ≤ n ∧
          ∀ i ∈ g.layers, i < n) → Fits ids n k l₁ := fun l₁ hlen hl₁ =>
      ⟨hlen, fun g hg => (hl₁ g hg).1,
        fun g hg => ⟨(Nat.le_add_right _ _).trans (hl₁ g hg).2.1, (hl₁ g hg).2.2⟩⟩
    unfold placeLayers
    split
    · exact hstop l (by omega) hl
    split
    · rename_i l₁ heq
      rw [heq] at hlen hall
      exact hstop l₁ (hlen.trans hk) hall
    rename_i l₁ free₁ gpus₁ heq
    rw [heq] at hall hfound
    obtain ⟨hlen₁, hsub⟩ := hfound free₁ gpus₁ rfl
    rw [length_cons] at hn
    refine ih _ _ _ _ ?_ (fun q hq => hp q (mem_cons_of_mem _ hq))
      (fun d hd => hids d (hsub hd)) (by omega) ?_
    · refine le_trans ?_ (hlen₁.trans hk)
      cases l₁ with
      | nil => exact le_rfl
      | cons g l₁ => exact le_rfl
    cases l₁ with
    | nil => exact fun g hg => absurd hg not_mem_nil
    | cons g l₁ =>
      rw [forall_mem_cons] at hall
      rw [Layout.prepend, forall_mem_cons]
      obtain ⟨⟨hid, hlayers, hlt⟩, hrest⟩ := hall
      rw [length_cons] at hlayers
      refine ⟨⟨hid, ?_, ?_⟩, fun g' hg' => ?_⟩
      · rw [length_cons]
        omega
      · exact forall_mem_cons.mpr ⟨hp p mem_cons_self, hlt⟩
      · obtain ⟨hid', hlayers', hlt'⟩ := hrest g' hg'
        rw [length_cons] at hlayers'
        exact ⟨hid', by omega, hlt'⟩

theorem greedyFit_fits (layers : List ℕ) (gpus : List DeviceInfo) (capacity : ℕ) (requested : ℤ) :
    Fits (gpus.map deviceID) layers.length gpus.length
      (greedyFit layers gpus capacity requested) := by
  unfold greedyFit
  have hids : ∀ d ∈ gpus.reverse, d.deviceID ∈ gpus.map deviceID :=
    fun d hd => mem_map_of_mem (mem_reverse.mp hd)
  have hlen : gpus.reverse.length = gpus.length := length_reverse
  split
  · exact Fits.nil _ _ _
  rename_i g rest heq
  rw [heq] at hids hlen
  rw [length_cons] at hlen
  have htodo : layers.zipIdx.reverse.length = layers.length := by
    rw [length_reverse, length_zipIdx]
  refine placeLayers_fits _ _ _ _ _ ?_ ?_ (fun d hd => hids d (mem_cons_of_mem _ hd)) htodo.le ?_
  · rw [length_singleton]
    omega
  · intro p hp
    have := mem_zipIdx (mem_reverse.mp hp)
    omega
  · intro g' hg'
    rw [mem_singleton.mp hg']
    refine ⟨hids g mem_cons_self, ?_, fun i hi => absurd hi not_mem_nil⟩
    rw [htodo]
    exact (Nat.zero_add _).le

/-- The search returns one of the layouts it has tried. -/
theorem findBestFit_fits {layers : List ℕ} {gpus : List DeviceInfo} {force : Bool}
    (h : findBestFit layers gpus requested force = some l) :
    Fits (gpus.map deviceID) layers.length gpus.length l := by
  unfold findBestFit at h
  simp only at h
  split at h
  · cases h
    exact greedyFit_fits _ _ _ _
  obtain ⟨b, hb, hlast⟩ := Loop.exists_last h
  have hbest : Fits (gpus.map deviceID) layers.length gpus.length b.best := by
    refine @Loop.Reaches.invariant _ _ _ _ _ (fun b : Bracket =>
      Fits (gpus.map deviceID) layers.length gpus.length b.best)
      (greedyFit_fits _ _ _ _) ?_ hb
    intro t t' ht hturn
    unfold bisect at hturn
    split at hturn
    · cases hturn
      split
      · exact greedyFit_fits _ _ _ _
      · exact ht
    · cases hturn
  unfold bisect at hlast
  split at hlast
  · cases hlast
  · cases hlast
    exact hbest

theorem fitPrefixes_fits {layers : List ℕ} {ids : List DeviceID} {n k : ℕ}
    (hn : layers.length ≤ n) (tries : List (List DeviceInfo × Bool)) :
    ∀ l l', (∀ t ∈ tries, t.1.map deviceID ⊆ ids ∧ t.1.length ≤ k) → Fits ids n k l →
      fitPrefixes layers requested tries l = some l' → Fits ids n k l' := by
  induction tries with
  | nil =>
    intro l l' _ hl h
    cases h
    exact hl
  | cons t tries ih =>
    intro l l' ht hl h
    obtain ⟨gpus, force⟩ := t
    obtain ⟨best, hbest, hrest⟩ := Option.bind_eq_some_iff.mp h
    obtain ⟨hids, hk⟩ := ht (gpus, force) mem_cons_self
    have hfits := (findBestFit_fits hbest).mono hids hn hk
    split at hrest
    · cases hrest
      exact hfits
    · exact ih best l' (fun t ht' => ht t (mem_cons_of_mem _ ht')) hfits hrest

theorem assignLayers_fits {layers : List ℕ} {gpus : List DeviceInfo} {requireFull spread : Bool}
    {lastUsedGPU : ℕ}
    (h : assignLayers layers gpus requireFull spread requested lastUsedGPU = some l) :
    Fits (gpus.map deviceID) layers.length gpus.length l := by
  have htries : ∀ t ∈ prefixes gpus requireFull spread lastUsedGPU,
      t.1.map deviceID ⊆ gpus.map deviceID ∧ t.1.length ≤ gpus.length := by
    intro t ht
    unfold prefixes at ht
    split at ht
    · rw [mem_singleton.mp ht]
      exact ⟨fun _ h => h, le_rfl⟩
    · obtain ⟨i, -, rfl⟩ := mem_map.mp ht
      exact ⟨((take_sublist _ _).map _).subset, (take_sublist _ _).length_le⟩
  obtain ⟨first, hfirst, hrest⟩ := Option.bind_eq_some_iff.mp h
  have hfits := fitPrefixes_fits le_rfl _ _ _ htries (Fits.nil _ _ _) hfirst
  split at hrest
  · cases hrest
    exact hfits
  · refine fitPrefixes_fits ?_ _ _ _ htries hfits hrest
    rw [length_dropLast]
    exact Nat.sub_le _ _

/-! ## §3  What `createLayout` makes fits -/

/-- Each library has some of the GPUs. -/
theorem byLibrary_sublist (l : List DeviceInfo) : ∀ p ∈ byLibrary l, p.2.Sublist l := by
  induction l using List.reverseRecOn with
  | nil => exact fun p hp => absurd hp not_mem_nil
  | append_singleton l x ih =>
    intro p hp
    unfold byLibrary at hp ih
    rw [foldl_append, foldl_cons, foldl_nil] at hp
    split at hp
    · obtain ⟨q, hq, rfl⟩ := mem_map.mp hp
      split
      · exact (ih q hq).append (List.Sublist.refl [x])
      · exact (ih q hq).trans (sublist_append_left l [x])
    · rcases mem_append.mp hp with hp | hp
      · exact (ih p hp).trans (sublist_append_left l [x])
      · rw [mem_singleton.mp hp]
        exact sublist_append_right l [x]

theorem mk_deviceID (id : DeviceID) (integrated : Bool) (freeMemory : ℕ) :
    (mk id integrated freeMemory).deviceID = id := rfl

theorem reserve_deviceID {n : ℕ} (overhead : ℕ) (memory : BackendMemory n) (backoff : ℕ)
    (d : DeviceInfo) : (reserve overhead memory backoff d).1.deviceID = d.deviceID := by
  unfold reserve
  cases memory.gpus.find? (·.deviceID = d.deviceID) with
  | none => exact mk_deviceID d.deviceID d.integrated 0
  | some m =>
    exact mk_deviceID d.deviceID d.integrated (d.freeMemory - d.reserved overhead m.graph backoff)

namespace Machine

variable (m : Machine) {n : ℕ}

/-- The GPUs that may have layers. -/
def ids : List DeviceID := m.gpus.map deviceID

theorem libraryLayout_fits {memory : BackendMemory n} {numGPU : ℤ} {backoff : ℕ}
    {gl : List DeviceInfo} (hgl : gl ∈ m.libraries)
    (h : m.libraryLayout memory numGPU backoff gl = some l) : Fits m.ids n m.gpus.length l := by
  have hfits := assignLayers_fits h
  obtain ⟨p, hp, rfl⟩ := mem_map.mp hgl
  have hsub := byLibrary_sublist _ p hp
  have hperm := m.sorter.perm m.gpus
  refine hfits.mono ?_ ?_ ?_
  · intro id hid
    rw [map_map, map_map] at hid
    obtain ⟨d, hd, rfl⟩ := mem_map.mp hid
    simp only [Function.comp_apply, reserve_deviceID]
    exact mem_map_of_mem (hperm.subset (hsub.subset hd))
  · rw [length_map, length_range]
  · rw [length_map, length_map]
    exact hsub.length_le.trans hperm.length_eq.le

/-- **There are finitely many layouts**: each fits the GPUs and the layers. -/
theorem createLayout_fits {memory : Option (BackendMemory n)} {numGPU numGPU' : ℤ} {backoff : ℕ}
    (h : m.createLayout memory numGPU backoff = some (.ok l, numGPU')) :
    Fits m.ids n m.gpus.length l := by
  have hbest : ∀ libraries, libraries ⊆ m.libraries → ∀ best l, Fits m.ids n m.gpus.length best →
      m.bestLibrary (memory.getD (noMemory n)) numGPU backoff libraries best = some l →
        Fits m.ids n m.gpus.length l := by
    intro libraries
    induction libraries with
    | nil =>
      intro _ best l hbest h
      cases h
      exact hbest
    | cons gl libraries ih =>
      intro hsub best l hbest h
      obtain ⟨new, hnew, hrest⟩ := Option.bind_eq_some_iff.mp h
      refine ih (fun x hx => hsub (mem_cons_of_mem _ hx)) _ l ?_ hrest
      split
      · exact m.libraryLayout_fits (hsub mem_cons_self) hnew
      · exact hbest
  obtain ⟨l', hl', heq⟩ := Option.map_eq_some_iff.mp h
  split at heq
  · cases heq
    exact hbest _ (fun _ h => h) [] _ (Fits.nil _ _ _) hl'
  · cases heq

end Machine

end Ollama.Llm
