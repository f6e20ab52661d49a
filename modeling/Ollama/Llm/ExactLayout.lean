import Ollama.Llm.GreedyRuns
import Mathlib.Data.Rat.Floor

/-!
# Layouts with exact capacities

`findBestFit` and `assignLayers` of `llm/server.go` with capacity factors that are
rational numbers.
-/

namespace Ollama.Llm

open Lib

/-! ## §1  Assigning layers for any search -/

/-- What searches for the smallest capacity, as `findBestFit` does. -/
abbrev Search := List ℕ → List DeviceInfo → ℤ → Bool → Option Layout

/-- The loop of `assignLayers` over the GPUs. -/
def fitPrefixesBy (search : Search) (layers : List ℕ) (requested : ℤ) :
    List (List DeviceInfo × Bool) → Layout → Option Layout
  | [], l => some l
  | (gpus, force) :: more, _ =>
      (search layers gpus requested force).bind fun l =>
        if l.sum = layers.length ∨ (l.sum : ℤ) = requested then some l
        else fitPrefixesBy search layers requested more l

/-- `assignLayers` -/
def assignLayersBy (search : Search) (layers : List ℕ) (gpus : List DeviceInfo)
    (requireFull spread : Bool) (requested : ℤ) (lastUsedGPU : ℕ) : Option Layout :=
  let requested := min (layers.length : ℤ) requested
  let tries := prefixes gpus requireFull spread lastUsedGPU
  (fitPrefixesBy search layers requested tries []).bind fun l =>
    if l.sum = layers.length then some l
    else fitPrefixesBy search layers.dropLast (min (layers.dropLast.length : ℤ) requested) tries l

/-! ## §2  Exact capacities -/

namespace Exact

def space (capacity : ℚ) (d : DeviceInfo) : ℕ := ⌊(d.freeMemory : ℚ) * capacity⌋₊

def greedyFit (layers : List ℕ) (gpus : List DeviceInfo) (capacity : ℚ) (requested : ℤ) : Layout :=
  greedyFitBy (space capacity) layers gpus requested

/-- `1e-6` -/
def tolerance : ℚ := 1 / 10 ^ 6

structure Bracket where
  low : ℚ
  high : ℚ
  best : Layout

/-- One turn of the binary search. -/
def bisect (layers : List ℕ) (gpus : List DeviceInfo) (requested : ℤ) (maxNumGPU : ℕ)
    (b : Bracket) : Option (Bracket ⊕ Layout) :=
  if tolerance < b.high - b.low then
    let mid := (b.low + b.high) / 2
    let assignments := greedyFit layers gpus mid requested
    some (.inl (if assignments.sum = maxNumGPU then { b with high := mid, best := assignments }
      else { b with low := mid }))
  else some (.inr b.best)

def upperFactor (requested : ℤ) (force : Bool) : ℚ := if 0 ≤ requested ∧ force then 1000 else 1

/-- The turns within which the search ends: 1000 halved 30 times is less than the
tolerance. -/
def turns : ℕ := 31

/-- `findBestFit` -/
def findBestFit : Search := fun layers gpus requested force =>
  let high := upperFactor requested force
  let best := greedyFit layers gpus high requested
  if best.sum = 0 then some best
  else Loop.run (bisect layers gpus requested best.sum) turns ⟨0, high, best⟩

def assignLayers (layers : List ℕ) (gpus : List DeviceInfo) (requireFull spread : Bool)
    (requested : ℤ) (lastUsedGPU : ℕ) : Option Layout :=
  assignLayersBy findBestFit layers gpus requireFull spread requested lastUsedGPU

theorem space_mono {c c' : ℚ} (h : c ≤ c') (d : DeviceInfo) : space c d ≤ space c' d :=
  Nat.floor_mono (mul_le_mul_of_nonneg_left h (Nat.cast_nonneg _))

theorem space_one (d : DeviceInfo) : space 1 d = d.freeMemory := by
  rw [space, mul_one, Nat.floor_natCast]

theorem greedyFit_best (layers : List ℕ) (gpus : List DeviceInfo) (c : ℚ) (requested : ℤ) :
    Best layers gpus (space c) requested (greedyFit layers gpus c requested) :=
  greedyFitBy_best _ _ _ _

theorem greedyFit_mono (layers : List ℕ) (gpus : List DeviceInfo) (requested : ℤ) {c c' : ℚ}
    (h : c ≤ c') :
    (greedyFit layers gpus c requested).sum ≤ (greedyFit layers gpus c' requested).sum :=
  (greedyFit_best layers gpus c requested).sum_le (greedyFit_best layers gpus c' requested)
    (space_mono h)

/-! ## §3  The search for the capacity -/

section Search

variable {layers : List ℕ} {gpus : List DeviceInfo} {requested : ℤ} {upper : ℚ}

/-- The layout at hand is that of a capacity factor up to the greatest one, and
has the most layers. -/
def Found (layers : List ℕ) (gpus : List DeviceInfo) (requested : ℤ) (upper : ℚ) (l : Layout) :
    Prop :=
  (∃ c, c ≤ upper ∧ l = greedyFit layers gpus c requested) ∧
    l.sum = (greedyFit layers gpus upper requested).sum

structure Bracketed (layers : List ℕ) (gpus : List DeviceInfo) (requested : ℤ) (upper : ℚ)
    (b : Bracket) : Prop where
  order : b.low ≤ b.high
  high_le : b.high ≤ upper
  best : Found layers gpus requested upper b.best

/-- A turn halves the bracket. -/
theorem Bracketed.turn {b : Bracket} (hb : Bracketed layers gpus requested upper b)
    (hgap : tolerance < b.high - b.low) :
    ∃ b', bisect layers gpus requested (greedyFit layers gpus upper requested).sum b =
        some (.inl b') ∧
      Bracketed layers gpus requested upper b' ∧ b'.high - b'.low = (b.high - b.low) / 2 := by
  have horder := hb.order
  have hmid : b.low ≤ (b.low + b.high) / 2 ∧ (b.low + b.high) / 2 ≤ b.high := by
    constructor <;> linarith
  unfold bisect
  rw [if_pos hgap]
  simp only
  split
  · rename_i hmax
    have hle := hmid.2.trans hb.high_le
    refine ⟨_, rfl, ⟨hmid.1, hle, ⟨_, hle, rfl⟩, hmax⟩, ?_⟩
    ring
  · refine ⟨_, rfl, ⟨hmid.2, hb.high_le, hb.best⟩, ?_⟩
    ring

/-- After `n` more turns the bracket is narrow enough. -/
theorem Bracketed.run {n : ℕ} : ∀ {b : Bracket}, Bracketed layers gpus requested upper b →
    b.high - b.low ≤ tolerance * 2 ^ n →
      ∃ l, Loop.run (bisect layers gpus requested (greedyFit layers gpus upper requested).sum)
          (n + 1) b = some l ∧ Found layers gpus requested upper l := by
  induction n with
  | zero =>
    intro b hb hwidth
    rw [pow_zero, mul_one] at hwidth
    exact ⟨b.best, Loop.run_inr (by rw [bisect, if_neg (not_lt.mpr hwidth)]), hb.best⟩
  | succ n ih =>
    intro b hb hwidth
    by_cases hgap : tolerance < b.high - b.low
    · obtain ⟨b', hturn, hb', hhalf⟩ := hb.turn hgap
      rw [Loop.run_inl hturn]
      refine ih hb' ?_
      rw [pow_succ] at hwidth
      linarith
    · exact ⟨b.best, Loop.run_inr (by rw [bisect, if_neg hgap]), hb.best⟩

end Search

/-- **The search ends with as many layers as the greatest capacity factor
places.** -/
theorem exists_findBestFit (layers : List ℕ) (gpus : List DeviceInfo) (requested : ℤ)
    (force : Bool) :
    ∃ l, findBestFit layers gpus requested force = some l ∧
      Found layers gpus requested (upperFactor requested force) l := by
  have hupper : 0 ≤ upperFactor requested force ∧ upperFactor requested force ≤ 1000 := by
    unfold upperFactor
    split <;> norm_num
  unfold findBestFit
  generalize upperFactor requested force = upper at hupper ⊢
  have hstart : Found layers gpus requested upper (greedyFit layers gpus upper requested) :=
    ⟨⟨upper, le_rfl, rfl⟩, rfl⟩
  simp only
  split
  · exact ⟨_, rfl, hstart⟩
  · refine Bracketed.run (n := 30) ⟨hupper.1, le_rfl, hstart⟩ ?_
    have : (1000 : ℚ) ≤ tolerance * 2 ^ 30 := by norm_num [tolerance]
    exact (sub_zero upper).le.trans (hupper.2.trans this)

variable {layers : List ℕ} {gpus : List DeviceInfo} {requested : ℤ}

/-- **Unless the request is forced, no longer run of layers fits in the free
memory.** -/
theorem Found.best {l : Layout} (h : Found layers gpus requested 1 l) :
    Best layers gpus DeviceInfo.freeMemory requested l := by
  obtain ⟨⟨c, hc, rfl⟩, hsum⟩ := h
  have hone := greedyFit_best layers gpus 1 requested
  rw [show space 1 = DeviceInfo.freeMemory from funext space_one] at hone
  have hbest := greedyFit_best layers gpus c requested
  refine ⟨hbest.ids, hbest.assigned.mono fun d => ?_, hbest.within, ?_⟩
  · rw [← space_one d]
    exact space_mono hc d
  · rw [hsum]
    exact hone.longest

theorem upperFactor_of_not_forced {force : Bool}
    (h : ¬(0 ≤ requested ∧ force = true)) : upperFactor requested force = 1 := if_neg h

/-! ## §4  Assigning layers -/

def HoldsAll (layers : List ℕ) (gpus : List DeviceInfo) : Prop :=
  ∃ blocks, Assigned layers gpus DeviceInfo.freeMemory layers.length blocks

/-- A search that is not forced places all layers exactly when they fit. -/
theorem sum_findBestFit (hreq : requested < 0) (force : Bool) :
    ∃ l, findBestFit layers gpus requested force = some l ∧
      (l.sum = layers.length ↔ HoldsAll layers gpus) := by
  obtain ⟨l, hl, hfound⟩ := exists_findBestFit layers gpus requested force
  rw [upperFactor_of_not_forced fun h => absurd h.1 (not_le.mpr hreq)] at hfound
  have hbest := hfound.best
  refine ⟨l, hl, fun hall => ?_, ?_⟩
  · have hassigned := hbest.assigned
    rw [hall] at hassigned
    exact ⟨_, hassigned⟩
  · rintro ⟨blocks, h⟩
    exact le_antisymm hbest.assigned.le
      (hbest.longest _ blocks (fun h0 => absurd h0 (not_le.mpr hreq)) h)

/-- The tries go on while the layers do not fit. -/
theorem fitPrefixesBy_append (hreq : requested < 0)
    {tries : List (List DeviceInfo × Bool)} (more : List (List DeviceInfo × Bool))
    (h : ∀ t ∈ tries, ¬HoldsAll layers t.1) :
    ∀ l, ∃ l', fitPrefixesBy findBestFit layers requested (tries ++ more) l =
      fitPrefixesBy findBestFit layers requested more l' := by
  induction tries with
  | nil => exact fun l => ⟨l, rfl⟩
  | cons t tries ih =>
    obtain ⟨gpus, force⟩ := t
    intro l
    obtain ⟨l₁, hl₁, hiff⟩ := @sum_findBestFit layers gpus requested hreq force
    obtain ⟨l', hl'⟩ := ih (fun t ht => h t (List.mem_cons_of_mem _ ht)) l₁
    refine ⟨l', ?_⟩
    rw [List.cons_append, fitPrefixesBy, hl₁, Option.bind_some, if_neg, hl']
    rintro (hall | hall)
    · exact h _ List.mem_cons_self (hiff.mp hall)
    · exact absurd (Int.natCast_nonneg l₁.sum) (by rw [hall]; exact not_le.mpr hreq)

def Enough (layers : List ℕ) (gpus : List DeviceInfo) (lastUsedGPU i : ℕ) : Prop :=
  lastUsedGPU ≤ i ∧ i < gpus.length ∧ HoldsAll layers (gpus.take (i + 1))

/-- The tries up to the first GPUs that hold all layers. -/
theorem assignLayers_of_isLeast {lastUsedGPU i : ℕ} (hreq : requested < 0)
    (hi : IsLeast {i | Enough layers gpus lastUsedGPU i} i) :
    ∃ l, assignLayers layers gpus true false requested lastUsedGPU = some l ∧
      findBestFit layers (gpus.take (i + 1)) requested false = some l ∧ l.sum = layers.length := by
  obtain ⟨⟨hle, hlt, hholds⟩, hleast⟩ := hi
  obtain ⟨l, hl, hiff⟩ := @sum_findBestFit layers (gpus.take (i + 1)) requested hreq false
  have hall := hiff.mpr hholds
  refine ⟨l, ?_, hl, hall⟩
  have htries : prefixes gpus true false lastUsedGPU =
      ((List.range' lastUsedGPU (i - lastUsedGPU)).map fun j => (gpus.take (j + 1), false)) ++
        (gpus.take (i + 1), false) ::
          (List.range' (i + 1) (gpus.length - (i + 1))).map fun j => (gpus.take (j + 1), false) := by
    have hrange : List.range' lastUsedGPU (gpus.length - lastUsedGPU) =
        List.range' lastUsedGPU (i - lastUsedGPU) ++
          i :: List.range' (i + 1) (gpus.length - (i + 1)) := by
      rw [← List.range'_succ, show gpus.length - lastUsedGPU =
        (i - lastUsedGPU) + (gpus.length - (i + 1) + 1) by omega, ← List.range'_append_1,
        show lastUsedGPU + (i - lastUsedGPU) = i by omega]
    simp [prefixes, hrange]
  have hbefore : ∀ t ∈ (List.range' lastUsedGPU (i - lastUsedGPU)).map fun j =>
      (gpus.take (j + 1), false), ¬HoldsAll layers t.1 := by
    intro t ht hall
    obtain ⟨j, hj, rfl⟩ := List.mem_map.mp ht
    obtain ⟨hlo, hhi⟩ := List.mem_range'_1.mp hj
    have := hleast ⟨hlo, by omega, hall⟩
    omega
  have hmin : min (layers.length : ℤ) requested = requested := by omega
  obtain ⟨l', hl'⟩ := fitPrefixesBy_append hreq _ hbefore []
  rw [assignLayers, assignLayersBy, hmin, htries, hl', fitPrefixesBy, hl, Option.bind_some,
    if_pos (Or.inl hall), Option.bind_some, if_pos hall]

/-- What makes the placement of layers optimal for an order of the GPUs. -/
structure Optimal (layers : List ℕ) (gpus : List DeviceInfo) (requested : ℤ) : Prop where
  mono : ∀ c c', c ≤ c' →
    (greedyFit layers gpus c requested).sum ≤ (greedyFit layers gpus c' requested).sum
  most : ∀ force, ∃ l, findBestFit layers gpus requested force = some l ∧
    l.sum = (greedyFit layers gpus (upperFactor requested force) requested).sum
  best : ∀ force l, ¬(0 ≤ requested ∧ force = true) →
    findBestFit layers gpus requested force = some l →
      Best layers gpus DeviceInfo.freeMemory requested l
  fewest : requested < 0 → ∀ lastUsedGPU, (∃ i, Enough layers gpus lastUsedGPU i) →
    ∃ i l, IsLeast {i | Enough layers gpus lastUsedGPU i} i ∧
      assignLayers layers gpus true false requested lastUsedGPU = some l ∧
        findBestFit layers (gpus.take (i + 1)) requested false = some l ∧ l.sum = layers.length

/-- **The placement of layers is optimal.** -/
theorem placement_optimal (layers : List ℕ) (gpus : List DeviceInfo) (requested : ℤ) :
    Optimal layers gpus requested := by
  constructor
  · exact fun c c' h => greedyFit_mono layers gpus requested h
  · intro force
    obtain ⟨l, hl, hfound⟩ := exists_findBestFit layers gpus requested force
    exact ⟨l, hl, hfound.2⟩
  · intro force l hforce hl
    obtain ⟨l', hl', hfound⟩ := exists_findBestFit layers gpus requested force
    rw [upperFactor_of_not_forced hforce] at hfound
    rw [hl'] at hl
    exact Option.some.inj hl ▸ hfound.best
  · intro hreq lastUsedGPU hex
    classical
    have hleast : IsLeast {i | Enough layers gpus lastUsedGPU i} (Nat.find hex) :=
      ⟨Nat.find_spec hex, fun j hj => Nat.find_min' hex hj⟩
    obtain ⟨l, hassign, hfit, hall⟩ := assignLayers_of_isLeast hreq hleast
    exact ⟨_, l, hleast, hassign, hfit, hall⟩

end Exact

end Ollama.Llm
