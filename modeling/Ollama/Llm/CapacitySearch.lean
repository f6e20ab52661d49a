import Ollama.Llm.GreedyRuns

/-!
# When the capacity search ends

The binary search of `findBestFit` halves a bracket of capacity factors until it
is narrower than the tolerance. Above 16, neighbouring single precision values
are further apart than the tolerance.
-/

namespace Ollama.Llm

open Lib Single

/-! ## §1  A greater factor places more layers -/

theorem space_mono (d : DeviceInfo) {c c' : ℕ} (h : c ≤ c') : d.space c ≤ d.space c' := by
  unfold DeviceInfo.space toUint64 mul
  have hmul := Nat.mul_le_mul_left (ofNat d.freeMemory) h
  exact min_le_min_right _ (Nat.div_le_div_right (round_mono (Nat.two_pow_pos 149) hmul))

theorem greedyFit_mono (layers : List ℕ) (gpus : List DeviceInfo) (requested : ℤ) {c c' : ℕ}
    (hc : c ≤ c') :
    (greedyFit layers gpus c requested).sum ≤ (greedyFit layers gpus c' requested).sum := by
  rw [greedyFit_eq, greedyFit_eq]
  exact (greedyFitBy_best _ layers gpus requested).sum_le (greedyFitBy_best _ layers gpus requested)
    fun d => space_mono d hc

/-! ## §2  The bracket -/

def enough : ℕ := 16 * one

theorem value_tolerance : Value tolerance :=
  value_of_dvd (k := 106) (Dvd.intro_left _ rfl) (by decide +kernel)

theorem value_enough : Value enough :=
  value_of_dvd (k := 149) (Dvd.intro_left _ rfl) (by decide +kernel)

theorem value_upperFactor (requested : ℤ) (force : Bool) : Value (upperFactor requested force) := by
  unfold upperFactor
  split
  · exact value_of_dvd (k := 149) (Dvd.intro_left _ rfl) (by decide +kernel)
  · exact value_of_dvd (k := 149) dvd_rfl (by decide +kernel)

theorem value_zero : Value 0 := dvd_zero _

theorem lt_of_tolerance_lt_sub {low high : ℕ} (h : tolerance < sub high low) :
    tolerance < high - low := by
  by_contra hle
  have := round_mono Nat.one_pos (not_lt.mp hle)
  rw [value_tolerance.round_one] at this
  exact absurd h (not_lt.mpr this)

section Bracket

variable {layers : List ℕ} {gpus : List DeviceInfo} {requested : ℤ} {maxNumGPU : ℕ}

structure Bracketed (layers : List ℕ) (gpus : List DeviceInfo) (requested : ℤ) (maxNumGPU : ℕ)
    (b : Bracket) : Prop where
  low_value : Value b.low
  high_value : Value b.high
  high_max : (greedyFit layers gpus b.high requested).sum = maxNumGPU
  low_lt : b.low = 0 ∨ (greedyFit layers gpus b.low requested).sum < maxNumGPU

theorem Bracketed.lt {b : Bracket} (hb : Bracketed layers gpus requested maxNumGPU b) {c : ℕ}
    (hpos : 0 < c) (hc : maxNumGPU ≤ (greedyFit layers gpus c requested).sum) : b.low < c := by
  rcases hb.low_lt with h0 | hlt
  · rwa [h0]
  · by_contra hle
    have := greedyFit_mono layers gpus requested (not_lt.mp hle)
    omega

/-- A turn of the search. -/
theorem Bracketed.turn {b : Bracket} (hb : Bracketed layers gpus requested maxNumGPU b)
    (hgap : tolerance < sub b.high b.low) :
    ∃ b', bisect layers gpus requested maxNumGPU b = some (.inl b') ∧
      Bracketed layers gpus requested maxNumGPU b' ∧
      ((b'.low = b.low ∧ b'.high = half (add b.low b.high)) ∨
        (b'.low = half (add b.low b.high) ∧ b'.high = b.high)) := by
  have hdist := lt_of_tolerance_lt_sub hgap
  have hbig : 2 ^ 24 ≤ b.high := by
    have : 2 ^ 24 ≤ tolerance := by decide +kernel
    omega
  have hvalue : Value (half (add b.low b.high)) :=
    round_value Nat.two_pos _
  have hmid := mid_le (show b.low ≤ b.high by omega) hb.high_value hbig
  have hmax := greedyFit_mono layers gpus requested hmid
  rw [hb.high_max] at hmax
  unfold bisect
  rw [if_pos hgap]
  simp only
  split
  · rename_i h
    exact ⟨_, rfl, ⟨hb.low_value, hvalue, h, hb.low_lt⟩, Or.inl ⟨rfl, rfl⟩⟩
  · rename_i h
    exact ⟨_, rfl, ⟨hvalue, hb.high_value, hb.high_max, Or.inr (lt_of_le_of_ne hmax h)⟩,
      Or.inr ⟨rfl, rfl⟩⟩

theorem Bracketed.exists_within {b : Bracket} (hb : Bracketed layers gpus requested maxNumGPU b)
    (henough : maxNumGPU ≤ (greedyFit layers gpus enough requested).sum)
    (hgap : tolerance < b.high - b.low) :
    ∃ f, Value f ∧ b.low < f ∧ f < b.high := by
  rcases Nat.lt_or_ge enough b.high with hlt | hge
  · exact ⟨enough, value_enough, hb.lt (by decide +kernel) henough, hlt⟩
  · have htol : 2 ^ 129 < tolerance := by decide +kernel
    refine ⟨b.high - 2 ^ 129, hb.high_value.sub_pow ?_, by omega, ?_⟩
    · exact hge.trans (by decide +kernel)
    · have hpos : 0 < 2 ^ 129 := Nat.two_pow_pos 129
      omega

end Bracket

/-! ## §3  When the search ends -/

def Converges (layers : List ℕ) (gpus : List DeviceInfo) (requested : ℤ) (force : Bool) : Prop :=
  (greedyFit layers gpus (upperFactor requested force) requested).sum ≤
    (greedyFit layers gpus enough requested).sum

instance (layers : List ℕ) (gpus : List DeviceInfo) (requested : ℤ) (force : Bool) :
    Decidable (Converges layers gpus requested force) := Nat.decLe _ _

/-- **The capacity search ends exactly when a factor of 16 is enough.** -/
theorem findBestFit_isSome_iff (layers : List ℕ) (gpus : List DeviceInfo) (requested : ℤ)
    (force : Bool) :
    (∃ l, findBestFit layers gpus requested force = some l) ↔
      Converges layers gpus requested force := by
  unfold findBestFit Converges
  simp only
  have hupper : 0 < upperFactor requested force := by
    unfold upperFactor
    split <;> decide +kernel
  have hvalue := value_upperFactor requested force
  generalize upperFactor requested force = high at hupper hvalue ⊢
  split
  · rename_i h0
    exact iff_of_true ⟨_, rfl⟩ (h0 ▸ Nat.zero_le _)
  have hstart : Bracketed layers gpus requested (greedyFit layers gpus high requested).sum
      ⟨0, high, greedyFit layers gpus high requested⟩ :=
    ⟨value_zero, hvalue, rfl, Or.inl rfl⟩
  constructor
  · rintro ⟨l, hl⟩
    by_contra hlt
    push Not at hlt
    -- the bracket stays above 16, where it does not get narrow enough
    have hnone := @Loop.run_eq_none _ _ (bisect layers gpus requested _)
      (Bracketed layers gpus requested (greedyFit layers gpus high requested).sum) (by
        intro b hb
        refine Or.inr ?_
        have habove : enough < b.high := by
          by_contra hle
          have := greedyFit_mono layers gpus requested (not_lt.mp hle)
          have := hb.high_max
          omega
        have hpos : 0 < b.high := (Nat.zero_le _).trans_lt habove
        have hpow : 2 ^ (130 + 23) < b.high :=
          lt_of_eq_of_lt (show 2 ^ (130 + 23) = enough by decide +kernel) habove
        have hgap := hb.low_value.gap hb.high_value (hb.lt hpos hb.high_max.ge) hpow
        have hvalue130 : Value (2 ^ 130) :=
          value_of_dvd dvd_rfl (Nat.pow_lt_pow_right (by decide) (by omega))
        have hsub : 2 ^ 130 ≤ sub b.high b.low := by
          have := round_mono Nat.one_pos (show 2 ^ 130 ≤ b.high - b.low by omega)
          rwa [hvalue130.round_one] at this
        have htol : tolerance < 2 ^ 130 := by decide +kernel
        obtain ⟨b', hturn, hb', -⟩ := hb.turn (htol.trans_le hsub)
        exact ⟨b', hturn, hb'⟩) (high + 1) _ hstart
    rw [hnone] at hl
    cases hl
  · intro henough
    exact @Loop.run_of_variant _ _ (bisect layers gpus requested _) _
      (Bracketed layers gpus requested (greedyFit layers gpus high requested).sum)
      (fun b => b.high - b.low) (by
        intro b hb
        by_cases hgap : tolerance < sub b.high b.low
        · refine Or.inr ?_
          have hdist := lt_of_tolerance_lt_sub hgap
          obtain ⟨f, hf, hlf, hfh⟩ := hb.exists_within henough hdist
          have hbig : 2 ^ 24 ≤ b.high := by
            have : 2 ^ 24 ≤ tolerance := by decide +kernel
            omega
          obtain ⟨hlow, hhigh⟩ := mid_between hb.high_value hf hlf hfh hbig
          obtain ⟨b', hturn, hb', ⟨h₁, h₂⟩ | ⟨h₁, h₂⟩⟩ := hb.turn hgap
          · exact ⟨b', hturn, hb', by rw [h₁, h₂]; omega⟩
          · exact ⟨b', hturn, hb', by rw [h₁, h₂]; omega⟩
        · exact Or.inl ⟨b.best, by rw [bisect, if_neg hgap]⟩) hstart

/-! ## §4  When `createLayout` returns -/

def TriesConverge (layers : List ℕ) (requested : ℤ) : List (List DeviceInfo × Bool) → Prop
  | [] => True
  | (gpus, force) :: more =>
      Converges layers gpus requested force ∧
        ∀ l, findBestFit layers gpus requested force = some l →
          ¬(l.sum = layers.length ∨ (l.sum : ℤ) = requested) → TriesConverge layers requested more

local instance decidableForallSome {α : Type} (o : Option α) (P : α → Prop) [∀ a, Decidable (P a)] :
    Decidable (∀ a, o = some a → P a) :=
  match o with
  | none => isTrue nofun
  | some a => decidable_of_iff (P a) ⟨fun h _ ha => Option.some.inj ha ▸ h, fun h => h a rfl⟩

instance decidableTriesConverge (layers : List ℕ) (requested : ℤ) :
    ∀ tries, Decidable (TriesConverge layers requested tries)
  | [] => isTrue trivial
  | (_, _) :: more =>
      have : ∀ l : Layout, Decidable (¬(l.sum = layers.length ∨ (l.sum : ℤ) = requested) →
          TriesConverge layers requested more) := fun _ =>
        have := decidableTriesConverge layers requested more
        inferInstance
      inferInstanceAs (Decidable (_ ∧ _))

theorem fitPrefixes_isSome_iff (layers : List ℕ) (requested : ℤ)
    (tries : List (List DeviceInfo × Bool)) :
    ∀ l, (∃ l', fitPrefixes layers requested tries l = some l') ↔
      TriesConverge layers requested tries := by
  induction tries with
  | nil => exact fun l => iff_of_true ⟨l, rfl⟩ trivial
  | cons p tries ih =>
    intro l
    obtain ⟨gpus, force⟩ := p
    rw [TriesConverge, ← findBestFit_isSome_iff, fitPrefixes]
    cases hfit : findBestFit layers gpus requested force with
    | none => simp
    | some best =>
      simp only [Option.bind_some, Option.some.injEq, exists_eq', true_and, forall_eq']
      split
      · rename_i hdone
        exact iff_of_true ⟨best, rfl⟩ fun h => absurd hdone h
      · rename_i hdone
        rw [ih best]
        exact ⟨fun h _ => h, fun h => h hdone⟩

/-- The searches of `assignLayers` all end. -/
def AssignConverges (layers : List ℕ) (gpus : List DeviceInfo) (requireFull spread : Bool)
    (requested : ℤ) (lastUsedGPU : ℕ) : Prop :=
  let requested := min (layers.length : ℤ) requested
  let tries := prefixes gpus requireFull spread lastUsedGPU
  TriesConverge layers requested tries ∧
    ∀ l, fitPrefixes layers requested tries [] = some l → l.sum ≠ layers.length →
      TriesConverge layers.dropLast (min (layers.dropLast.length : ℤ) requested) tries

instance (layers : List ℕ) (gpus : List DeviceInfo) (requireFull spread : Bool) (requested : ℤ)
    (lastUsedGPU : ℕ) :
    Decidable (AssignConverges layers gpus requireFull spread requested lastUsedGPU) :=
  inferInstanceAs (Decidable (_ ∧ _))

theorem assignLayers_isSome_iff (layers : List ℕ) (gpus : List DeviceInfo)
    (requireFull spread : Bool) (requested : ℤ) (lastUsedGPU : ℕ) :
    (∃ l, assignLayers layers gpus requireFull spread requested lastUsedGPU = some l) ↔
      AssignConverges layers gpus requireFull spread requested lastUsedGPU := by
  unfold assignLayers AssignConverges
  simp only
  rw [← fitPrefixes_isSome_iff layers _ _ []]
  cases hfit : fitPrefixes layers (min (layers.length : ℤ) requested)
      (prefixes gpus requireFull spread lastUsedGPU) [] with
  | none => simp
  | some l =>
    simp only [Option.bind_some, Option.some.injEq, exists_eq', true_and, forall_eq']
    split
    · rename_i hall
      exact iff_of_true ⟨l, rfl⟩ fun h => absurd hall h
    · rename_i hall
      rw [fitPrefixes_isSome_iff]
      exact ⟨fun h _ => h, fun h => h hall⟩

namespace Machine

variable (m : Machine) {n : ℕ}

def LibraryConverges (memory : BackendMemory n) (numGPU : ℤ) (backoff : ℕ)
    (gl : List DeviceInfo) : Prop :=
  let reserved := gl.map (reserve m.gpuOverhead memory backoff)
  AssignConverges ((List.range n).map (layerSize memory)) (reserved.map Prod.fst) m.requireFull
    m.schedSpread numGPU (lastUsed (reserved.map Prod.snd))

/-- Every capacity search that `createLayout` makes places as many layers with a
factor of 16 as with the greatest one. -/
def LayoutConverges (memory : Option (BackendMemory n)) (numGPU : ℤ) (backoff : ℕ) : Prop :=
  ∀ gl ∈ m.libraries, m.LibraryConverges (memory.getD (noMemory n)) numGPU backoff gl

instance (memory : Option (BackendMemory n)) (numGPU : ℤ) (backoff : ℕ) :
    Decidable (m.LayoutConverges memory numGPU backoff) :=
  List.decidableBAll (fun _ => AssignConverges _ _ _ _ _ _) _

theorem bestLibrary_isSome_iff (memory : BackendMemory n) (numGPU : ℤ) (backoff : ℕ)
    (libraries : List (List DeviceInfo)) :
    ∀ best, (∃ l, m.bestLibrary memory numGPU backoff libraries best = some l) ↔
      ∀ gl ∈ libraries, m.LibraryConverges memory numGPU backoff gl := by
  induction libraries with
  | nil => exact fun best => iff_of_true ⟨best, rfl⟩ fun gl hgl => absurd hgl List.not_mem_nil
  | cons gl libraries ih =>
    intro best
    rw [List.forall_mem_cons, bestLibrary]
    have hlib : (∃ l, m.libraryLayout memory numGPU backoff gl = some l) ↔
        m.LibraryConverges memory numGPU backoff gl :=
      assignLayers_isSome_iff _ _ _ _ _ _
    rw [← hlib]
    cases m.libraryLayout memory numGPU backoff gl with
    | none => simp
    | some l =>
      rw [Option.bind_some, ih]
      exact ⟨fun h => ⟨⟨l, rfl⟩, h⟩, fun h => h.2⟩

/-- **When `createLayout` returns.** -/
theorem createLayout_isSome_iff (memory : Option (BackendMemory n)) (numGPU : ℤ) (backoff : ℕ) :
    (∃ r, m.createLayout memory numGPU backoff = some r) ↔
      m.LayoutConverges memory numGPU backoff := by
  unfold createLayout LayoutConverges
  rw [← bestLibrary_isSome_iff m (memory.getD (noMemory n)) numGPU backoff m.libraries []]
  unfold buildLayout
  simp only
  cases m.bestLibrary (memory.getD (noMemory n)) numGPU backoff m.libraries [] with
  | none => simp
  | some l => exact iff_of_true ⟨_, rfl⟩ ⟨l, rfl⟩

end Machine

end Ollama.Llm
