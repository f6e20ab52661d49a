import Ollama.Lib.Groups
import Ollama.KvCache.Frame
import Ollama.Runner.LoadSlot
import Ollama.Runner.RotaryRuns

/-!
# Inputs of the same batch

An input with `SameBatch` ties itself to the inputs after it. A context shift
and the truncation of a prompt are to discard such a group as a whole. Both
follow the groups with one countdown, which every group sets anew.
-/

namespace Ollama.Runner

open Lib.Groups List KvCache.Causal
open KvCache (maxInt32 toInt32)

/-! ## §1  `ShiftDiscard` -/

/-- The countdown that `ShiftDiscard` starts for a value of `SameBatch`. -/
def discardStart (sameBatch : Int) : Option Int :=
  if 0 < sameBatch then some (toInt32 sameBatch) else none

def sameBatches (inputs : List Input) : List Int := inputs.map (·.sameBatch)

def targetFree (numCtx numKeep : Int) : Int := max ((numCtx - numKeep) / 2) 1

/-- A number of inputs after the first `numKeep` that can be discarded: no
group that starts after them is torn, and enough places are free. -/
structure Discardable (numCtx : Int) (inputs : List Input) (numKeep discard : ℕ) : Prop where
  le : numKeep + discard ≤ inputs.length
  together : ¬ Separates (sameBatches inputs) numKeep (numKeep + discard)
  free : targetFree numCtx numKeep ≤ numCtx - inputs.length + discard ∨
    numKeep + discard = inputs.length

/-- How many inputs have to go. -/
def needed (numCtx : Int) (inputs : List Input) (numKeep : ℕ) : ℕ :=
  (targetFree numCtx numKeep - (numCtx - inputs.length)).toNat

theorem discardStart_le (k w : Int) (h : discardStart k = some w) : w ≤ k := by
  unfold discardStart at h
  split at h
  · obtain rfl := Option.some.inj h
    unfold toInt32
    omega
  · cases h

/-- What the loop finds, after the inputs `pre`. -/
theorem discardLoop_firstCut (target : Int) : ∀ (rest pre : List Input) (free sameBatch d : Int),
    sameBatch = countdown ((sameBatches pre).map discardStart) →
    ∃ r : ℕ, discardLoop target free sameBatch d rest = d + r ∧
      FirstCut (fun j => target ≤ free + j ∧
        LastOver ((sameBatches (pre ++ rest)).map discardStart) (pre.length + j)) rest.length r := by
  intro rest
  induction rest with
  | nil =>
      intro pre free sameBatch d _
      exact ⟨0, (Int.add_zero d).symm, Nat.le_refl 0, fun j hj => absurd hj (Nat.not_lt_zero j),
        fun h => absurd h (Nat.lt_irrefl 0)⟩
  | cons x rest ih =>
      intro pre free sameBatch d hcount
      have hover : sameBatch ≤ 0 ↔
          LastOver ((sameBatches (pre ++ x :: rest)).map discardStart) pre.length := by
        have htake : ((sameBatches (pre ++ x :: rest)).map discardStart).take pre.length =
            (sameBatches pre).map discardStart := by
          unfold sameBatches
          rw [map_append, map_append]
          refine take_left' ?_
          rw [length_map, length_map]
        rw [hcount, ← htake]
        refine countdown_take ?_
        unfold sameBatches
        rw [length_map, length_map, length_append]
        exact Nat.le_add_right _ _
      unfold discardLoop
      by_cases hstop : sameBatch ≤ 0 ∧ target ≤ free
      · rw [if_pos hstop]
        refine ⟨0, (Int.add_zero d).symm, Nat.zero_le _, fun j hj => absurd hj (Nat.not_lt_zero j),
          fun _ => ⟨?_, hover.mp hstop.1⟩⟩
        exact Int.le_trans hstop.2 (Int.le_of_eq (Int.add_zero free).symm)
      have hnext : (if 0 < x.sameBatch then toInt32 x.sameBatch else sameBatch - 1) =
          countdown ((sameBatches (pre ++ [x])).map discardStart) := by
        unfold sameBatches at hcount ⊢
        rw [map_append, map_append, map_singleton, map_singleton, countdown_snoc, ← hcount]
        unfold discardStart
        split <;> rfl
      obtain ⟨r, hr, hcut⟩ := ih (pre ++ [x]) (free + 1) _ (d + 1) hnext
      refine ⟨r + 1, ?_, FirstCut.cons ?_ ?_⟩
      · push_cast
        omega
      · rintro ⟨hfree, hlast⟩
        refine hstop ⟨hover.mpr hlast, ?_⟩
        omega
      rw [append_assoc, singleton_append, length_append, length_singleton] at hcut
      refine ⟨hcut.le, fun j hj hP => hcut.before j hj ⟨?_, ?_⟩, fun hlt => ?_⟩
      · have := hP.1
        push_cast at this
        omega
      · rw [Nat.add_assoc, Nat.add_comm 1 j]
        exact hP.2
      obtain ⟨hfree, hlast⟩ := hcut.cut hlt
      refine ⟨?_, ?_⟩
      · push_cast
        omega
      · rw [Nat.add_assoc, Nat.add_comm 1 r] at hlast
        exact hlast

variable {numCtx : Int} {inputs : List Input} {numKeep : ℕ}

/-- The shift discards up to the first place, after enough inputs, where the
group started last is over. -/
theorem shiftDiscard_firstCut (hkeep : (numKeep : Int) < numCtx) :
    ∃ r : ℕ, shiftDiscard numCtx inputs numKeep = r ∧
      FirstCut (fun j => needed numCtx inputs numKeep ≤ j ∧
        LastOver (((sameBatches inputs).drop numKeep).map discardStart) j)
        ((sameBatches inputs).drop numKeep).length r := by
  obtain ⟨r, hr, hcut⟩ := discardLoop_firstCut (targetFree numCtx numKeep)
    (inputs.drop numKeep) [] (numCtx - inputs.length) 0 0 rfl
  refine ⟨r, ?_, ?_⟩
  · unfold shiftDiscard
    have htarget : max ((numCtx - (numKeep : Int)).tdiv 2) 1 = targetFree numCtx numKeep := by
      unfold targetFree
      rw [Int.tdiv_eq_ediv_of_nonneg (by omega)]
    rw [htarget, Int.toNat_natCast, hr, Int.zero_add]
  · have hsizes : (sameBatches inputs).drop numKeep = sameBatches (inputs.drop numKeep) :=
      map_drop.symm
    have hlen : (sameBatches (inputs.drop numKeep)).length = (inputs.drop numKeep).length :=
      length_map _
    rw [hsizes, hlen]
    have hiff : ∀ j : ℕ, needed numCtx inputs numKeep ≤ j ↔
        targetFree numCtx numKeep ≤ numCtx - inputs.length + j := by
      intro j
      unfold needed
      omega
    simpa only [hiff, nil_append, length_nil, Nat.zero_add] using hcut

/-- What can be discarded, in terms of the inputs after the kept ones. -/
theorem discardable_iff (hlen : numKeep ≤ inputs.length)
    (d : ℕ) : Discardable numCtx inputs numKeep d ↔ d ≤ ((sameBatches inputs).drop numKeep).length ∧
        (d < ((sameBatches inputs).drop numKeep).length →
          needed numCtx inputs numKeep ≤ d ∧ ¬ Within ((sameBatches inputs).drop numKeep) d) := by
  have hdrop : ((sameBatches inputs).drop numKeep).length = inputs.length - numKeep := by
    unfold sameBatches
    rw [length_drop, length_map]
  have hneed : needed numCtx inputs numKeep ≤ d ↔
      targetFree numCtx numKeep ≤ numCtx - inputs.length + d := by
    unfold needed
    omega
  constructor
  · rintro ⟨hle, htogether, hfree⟩
    rw [separates_iff] at htogether
    refine ⟨by omega, fun hlt => ⟨?_, fun hin => htogether ⟨hlt, hin⟩⟩⟩
    rcases hfree with hfree | hall
    · exact hneed.mpr hfree
    · omega
  · rintro ⟨hle, hcut⟩
    refine ⟨by omega, ?_, ?_⟩
    · rw [separates_iff]
      rintro ⟨hlt, hin⟩
      exact (hcut hlt).2 hin
    · rcases Nat.lt_or_ge d ((sameBatches inputs).drop numKeep).length with hlt | hge
      · exact Or.inl (hneed.mp (hcut hlt).1)
      · exact Or.inr (by omega)

/-- The discard of a shift is the least that can be discarded. -/
def LeastDiscard (numCtx : Int) (inputs : List Input) (numKeep : ℕ) : Prop :=
  ∃ d : ℕ, shiftDiscard numCtx inputs numKeep = d ∧ Discardable numCtx inputs numKeep d ∧
    ∀ d', Discardable numCtx inputs numKeep d' → d ≤ d'

theorem leastDiscard_iff (hkeep : (numKeep : Int) < numCtx) (hlen : numKeep ≤ inputs.length) :
    LeastDiscard numCtx inputs numKeep ↔
      ¬ Nested ((sameBatches inputs).drop numKeep) discardStart (needed numCtx inputs numKeep) := by
  obtain ⟨r, hr, hcut⟩ := @shiftDiscard_firstCut numCtx inputs numKeep hkeep
  rw [← firstCut_within discardStart_le hcut, FirstCut.iff_least]
  unfold LeastDiscard
  rw [hr]
  constructor
  · rintro ⟨d, hd, hdisc, hleast⟩
    obtain rfl : r = d := Int.ofNat.inj hd
    exact ⟨(discardable_iff hlen r).mp hdisc, fun j hj hP =>
      hleast j ((discardable_iff hlen j).mpr ⟨hj, hP⟩)⟩
  · rintro ⟨hdisc, hleast⟩
    refine ⟨r, rfl, (discardable_iff hlen r).mpr hdisc, fun j hj => ?_⟩
    obtain ⟨hle, hP⟩ := (discardable_iff hlen j).mp hj
    exact hleast j hle hP

/-! ## §2  `ShiftCacheSlot` -/

/-- What the documentation of `Remove` says of the end `math.MaxInt32`:
everything from the first index on is removed. -/
structure Clears {σ : Type} (ops : CacheOps σ) (Inv : σ → Prop) (cached : σ → Int → Set Int) :
    Prop where
  keeps : ∀ s seq b e, Inv s → 0 ≤ b → b ≤ e → Inv (ops.remove s seq b e).1
  clears : ∀ s seq, Inv s → cached (ops.remove s seq 0 maxInt32).1 seq = ∅

theorem causal_clears (shiftFails : Bool) : Clears (causalOps shiftFails) Ranged fun c seq =>
      stored c.cells seq where
  keeps s seq b e hs hb hbe := hs.remove hb hbe shiftFails
  clears s seq hs := by
    obtain ⟨-, hgone, -⟩ := @remove_whole s [] none seq (hs seq)
    have hcache := @removeShifting_cache s [] none seq 0 maxInt32 shiftFails
    rw [hcache] at hgone
    refine Set.eq_empty_iff_forall_notMem.mpr ?_
    rintro p ⟨i, hi, -⟩
    exact hgone i hi

section Slot

variable {σ : Type} {ops : CacheOps σ} {Inv : σ → Prop} {cached : σ → Int → Set Int}

/-- What `ShiftCacheSlot` leaves and returns: the slot without the discarded
inputs, or an empty slot and these inputs to process again. -/
def SlotShifted (ops : CacheOps σ) (cached : σ → Int → Set Int) (numCtx : Int) (cache : Option σ)
    (id : ℕ) (inputs : List Input) (numKeep : ℕ) : Prop :=
  let discard := (shiftDiscard numCtx inputs numKeep).toNat
  let kept := inputs.take numKeep ++ inputs.drop (numKeep + discard)
  match shiftCacheSlot ops numCtx cache id inputs numKeep with
  | (_, left, none) => left = kept
  | (cache', left, some e) =>
      e = .reprocess kept ∧ left = [] ∧ ∀ s, cache' = some s → cached s id = ∅

theorem slotShifted (law : Clears ops Inv cached) {cache : Option σ} {id : ℕ}
    (hkeep : (numKeep : Int) < numCtx) (hinv : ∀ s, cache = some s → Inv s) :
    SlotShifted ops cached numCtx cache id inputs numKeep := by
  obtain ⟨r, hr, hcut⟩ := @shiftDiscard_firstCut numCtx inputs numKeep hkeep
  unfold SlotShifted shiftCacheSlot
  dsimp only
  rw [if_neg (Int.not_le.mpr hkeep), hr]
  have hkept : inputs.drop ((numKeep : Int) + (r : Int)).toNat = inputs.drop (numKeep + r) := by
    congr 1
  rw [hkept, Int.toNat_natCast, Int.toNat_natCast]
  by_cases hr0 : (r : Int) ≤ 0
  · -- nothing to discard
    rw [if_pos hr0]
    have hr0' : r = 0 := by omega
    rw [hr0', Nat.add_zero, take_append_drop]
  · rw [if_neg hr0]
    cases cache with
    | none => rfl
    | some s =>
        have hkeeps := law.keeps s id numKeep (numKeep + r) (hinv s rfl) (by omega) (by omega)
        dsimp only
        generalize ops.remove s id numKeep (numKeep + r) = removed at hkeeps
        obtain ⟨s', failed⟩ := removed
        cases failed with
        | false => rfl
        | true =>
            refine ⟨rfl, rfl, fun s'' hs'' => ?_⟩
            cases hs''
            exact law.clears s' id hkeeps

end Slot

/-- Six inputs, the third of which is tied to the next two. -/
def tiedInputs : List Input :=
  [{ token := 1 }, { token := 2 }, { token := 3, sameBatch := 2 }, { token := 4 }, { token := 5 },
    { token := 6 }]

namespace Rotary

def sameBatches (inputs : List Model.Input) : List Int := inputs.map (·.sameBatch)

/-- The countdown that `NewSequence` starts for a value of `SameBatch`. -/
def promptCount (sameBatch : Int) : Option Int :=
  if sameBatch ≠ 0 then some sameBatch else none

theorem promptCount_le (k w : Int) (h : promptCount k = some w) : w ≤ k := by
  unfold promptCount at h
  split at h
  · cases h
    exact Int.le_refl _
  · cases h

/-- How many inputs are kept at the beginning. -/
def clampedKeep (numCtx numKeep : Int) (inputs : List Model.Input) : ℕ :=
  (min (if numKeep < 0 then (inputs.length : Int) else numKeep) (numCtx - 1)).toNat

/-- No group starts inside the kept inputs. -/
def NoneWithinKeep (inputs : List Model.Input) (keep : ℕ) : Prop :=
  ∀ i, i < keep → ∀ inp, inputs[i]? = some inp → inp.sameBatch = 0

/-- A place where the rest of the prompt can start: something is left after
the kept inputs, all fits, and no group is torn. -/
structure PromptStart (numCtx : Int) (inputs : List Model.Input) (keep p : ℕ) : Prop where
  left : keep ≤ p ∧ p < inputs.length
  fits : (keep : Int) + (inputs.length - p) ≤ numCtx
  together : ¬ ∃ i a b, InGroup (sameBatches inputs) i a ∧ InGroup (sameBatches inputs) i b ∧
    keep ≤ a ∧ a < p ∧ p ≤ b

def starts (inputs : List Model.Input) : List (Option Int) := (sameBatches inputs).map promptCount

theorem starts_length (inputs : List Model.Input) : (starts inputs).length = inputs.length :=
  (length_map _).trans (length_map _)

/-- What the loop finds from input `n` on: an input inside the kept ones that
starts a group, or the first place where the last group is over. -/
def Found (numKeep : Int) (inputs : List Model.Input) (start n : ℕ)
    (res : Except NewSequenceError Int) : Prop :=
  (res = .error .sameBatchWithinKeep ∧
    ∃ i inp, n ≤ i ∧ inputs[i]? = some inp ∧ (i : Int) < numKeep ∧ inp.sameBatch ≠ 0) ∨
  (∀ i inp, n ≤ i → inputs[i]? = some inp → (i : Int) < numKeep → inp.sameBatch = 0) ∧
    ∃ r : ℕ, res = .ok r ∧
      FirstCut (fun j => start ≤ j ∧ LastOver (starts inputs) j) inputs.length r

variable {numKeep : Int} {inputs : List Model.Input} {start start' n : ℕ}
  {res : Except NewSequenceError Int}

theorem Found.of_start (h : Found numKeep inputs start' n res) (hle : start ≤ start')
    (hskip : ∀ j, start ≤ j → j < start' → ¬ LastOver (starts inputs) j) :
    Found numKeep inputs start n res := by
  rcases h with herr | ⟨hnone, r, hr, hcut⟩
  · exact Or.inl herr
  · refine Or.inr ⟨hnone, r, hr, hcut.le, fun j hj hP => ?_, fun hlt => ?_⟩
    · by_cases hj' : start' ≤ j
      · exact hcut.before j hj ⟨hj', hP.2⟩
      · exact hskip j hP.1 (Nat.not_le.mp hj') hP.2
    · exact ⟨Nat.le_trans hle (hcut.cut hlt).1, (hcut.cut hlt).2⟩

/-- One input: it must not start a group inside the kept ones. -/
theorem Found.of_next {x : Model.Input} (hx : inputs[n]? = some x) {sameBatch : Int}
    {rest : List Model.Input}
    (h : Found numKeep inputs start (n + 1) (promptStartLoop numKeep (n + 1)
      (if x.sameBatch ≠ 0 then x.sameBatch else sameBatch) start rest)) :
    Found numKeep inputs start n (if x.sameBatch ≠ 0 then
        if (n : Int) < numKeep then .error .sameBatchWithinKeep
        else promptStartLoop numKeep (n + 1) x.sameBatch start rest
      else promptStartLoop numKeep (n + 1) sameBatch start rest) := by
  by_cases hbad : x.sameBatch ≠ 0 ∧ (n : Int) < numKeep
  · rw [if_pos hbad.1, if_pos hbad.2]
    exact Or.inl ⟨rfl, n, x, Nat.le_refl n, hx, hbad.2, hbad.1⟩
  have hsame : (if x.sameBatch ≠ 0 then
        if (n : Int) < numKeep then (.error .sameBatchWithinKeep)
        else promptStartLoop numKeep (n + 1) x.sameBatch start rest
      else promptStartLoop numKeep (n + 1) sameBatch start rest) =
      promptStartLoop numKeep (n + 1)
        (if x.sameBatch ≠ 0 then x.sameBatch else sameBatch) start rest := by
    by_cases hne : x.sameBatch ≠ 0
    · rw [if_pos hne, if_pos hne, if_neg fun hlt => hbad ⟨hne, hlt⟩]
    · rw [if_neg hne, if_neg hne]
  rw [hsame]
  rcases h with ⟨herr, i, inp, hi, hrest⟩ | ⟨hnone, hfound⟩
  · exact Or.inl ⟨herr, i, inp, Nat.le_of_succ_le hi, hrest⟩
  refine Or.inr ⟨fun i inp hi hinp hlt => ?_, hfound⟩
  rcases Nat.eq_or_lt_of_le hi with rfl | hi
  · rw [hx] at hinp
    cases hinp
    by_contra hne
    exact hbad ⟨hne, hlt⟩
  · exact hnone i inp hi hinp hlt

/-- The countdown after one more input. -/
theorem countdown_next {x : Model.Input} (hx : inputs[n]? = some x) {sameBatch : Int}
    (hcount : x.sameBatch = 0 → max sameBatch 0 = max (countdown ((starts inputs).take n) - 1) 0) :
    max (if x.sameBatch ≠ 0 then x.sameBatch else sameBatch) 0 =
      max (countdown ((starts inputs).take (n + 1))) 0 := by
  have hstart : (starts inputs)[n]? = some (promptCount x.sameBatch) := by
    unfold starts sameBatches
    rw [getElem?_map, getElem?_map, hx]
    rfl
  rw [take_add_one, hstart, Option.toList_some, countdown_snoc]
  unfold promptCount
  by_cases hne : x.sameBatch ≠ 0
  · rw [if_pos hne, if_pos hne]
    rfl
  · rw [if_neg hne, if_neg hne]
    exact hcount (not_not.mp hne)

/-- **What the loop finds**, from input `n` on, when its countdown is that of
the inputs before. -/
theorem promptStartLoop_found (numKeep : Int) (inputs : List Model.Input) :
    ∀ (rest : List Model.Input) (n start : ℕ) (sameBatch : Int), inputs.drop n = rest →
      n ≤ start → start ≤ inputs.length → numKeep ≤ start →
      max sameBatch 0 = max (countdown ((starts inputs).take n)) 0 →
      Found numKeep inputs start n (promptStartLoop numKeep n sameBatch start rest) := by
  intro rest
  induction rest with
  | nil =>
      intro n start sameBatch hrest hn hend _ _
      have hlen : inputs.length ≤ n := drop_eq_nil_iff.mp hrest
      refine Or.inr ⟨fun i inp hi hinp => ?_, start, rfl, hend, fun j hj hP => ?_, fun hlt => ?_⟩
      · rw [getElem?_eq_none (Nat.le_trans hlen hi)] at hinp
        cases hinp
      · exact absurd hP.1 (Nat.not_le.mpr hj)
      · omega
  | cons x rest ih =>
      intro n start sameBatch hrest hn hend hkeep hcount
      have hx : inputs[n]? = some x := by
        rw [← head?_drop, hrest]
        rfl
      have hlt : n < inputs.length := (List.getElem?_eq_some_iff.mp hx).1
      have hrest' : inputs.drop (n + 1) = rest := by
        rw [← tail_drop, hrest]
        rfl
      have hover : sameBatch ≤ 0 ↔ LastOver (starts inputs) n := by
        rw [← countdown_take (by rw [starts_length]; exact Nat.le_of_lt hlt)]
        omega
      unfold promptStartLoop
      by_cases hsame : 0 < sameBatch
      · rw [if_pos hsame]
        by_cases hat : (start : Int) = n
        · -- inside a group: the start is pushed on
          obtain rfl : start = n := Int.ofNat.inj hat
          rw [if_pos hat]
          have hnext := Found.of_next hx (ih (start + 1) (start + 1) _ hrest' (by omega) (by omega)
            (by push_cast; omega) (@countdown_next inputs start x hx (sameBatch - 1) (by omega)))
          refine hnext.of_start (Nat.le_succ start) fun j hj hj' hlast => ?_
          obtain rfl : j = start := by omega
          exact absurd (hover.mpr hlast) (Int.not_le.mpr hsame)
        · rw [if_neg hat]
          exact Found.of_next hx (ih (n + 1) start _ hrest' (by omega) hend hkeep
            (countdown_next hx (by omega)))
      · rw [if_neg hsame]
        by_cases hat : (start : Int) = n
        · -- the first place where the last group is over
          obtain rfl : start = n := Int.ofNat.inj hat
          rw [if_pos hat]
          refine Or.inr ⟨fun i inp hi _ hlt => ?_, start, rfl, hend, fun j hj hP => ?_, fun _ => ?_⟩
          · omega
          · exact absurd hP.1 (Nat.not_le.mpr hj)
          · exact ⟨Nat.le_refl _, hover.mp (Int.not_lt.mp hsame)⟩
        · rw [if_neg hat]
          exact Found.of_next hx (ih (n + 1) start _ hrest' (by omega) hend hkeep
            (countdown_next hx (by omega)))

/-- What can start the rest of the prompt, when no group starts inside the
kept inputs. -/
theorem promptStart_iff {numCtx : Int} {keep p : ℕ} (hnone : NoneWithinKeep inputs keep)
    (hlong : numCtx < inputs.length) :
    PromptStart numCtx inputs keep p ↔
      p < inputs.length ∧ (keep : Int) + (inputs.length - numCtx) ≤ p ∧
        ¬ Within (sameBatches inputs) p := by
  have hlen : (sameBatches inputs).length = inputs.length := length_map _
  constructor
  · rintro ⟨⟨hkp, hp⟩, hfits, htogether⟩
    refine ⟨hp, by omega, ?_⟩
    rintro ⟨i, k, hi, hk, hle⟩
    have hik : keep ≤ i := by
      by_contra hlt
      unfold sameBatches at hk
      rw [getElem?_map] at hk
      obtain ⟨inp, hinp, rfl⟩ := Option.map_eq_some_iff.mp hk
      have := hnone i (Nat.not_le.mp hlt) inp hinp
      omega
    exact htogether ⟨i, i, p, ⟨Nat.le_refl i, by omega, k, hk, by omega⟩,
      ⟨Nat.le_of_lt hi, by omega, k, hk, hle⟩, hik, hi, Nat.le_refl p⟩
  · rintro ⟨hp, hfits, hwithin⟩
    refine ⟨⟨by omega, hp⟩, by omega, ?_⟩
    rintro ⟨i, a, b, ⟨hia, -, -⟩, ⟨-, -, k, hk, hbk⟩, -, hap, hpb⟩
    exact hwithin ⟨i, k, by omega, hk, by omega⟩

/-- What the claim of a truncated prompt is: the first inputs, and the rest
from the least place where it can start; or there is no such place, or a group
starts inside the first inputs. -/
def TruncatesWhole (numCtx numKeep : Int) (inputs : List Model.Input) : Prop :=
  let keep := clampedKeep numCtx numKeep inputs
  match newSequence numCtx numKeep true inputs with
  | .ok (k, some start) => ∃ p : ℕ,
      truncated inputs k (some start) = inputs.take keep ++ inputs.drop p ∧
      NoneWithinKeep inputs keep ∧ PromptStart numCtx inputs keep p ∧
      ∀ q, PromptStart numCtx inputs keep q → p ≤ q
  | .ok (_, none) => False
  | .error _ => (∀ q, ¬ PromptStart numCtx inputs keep q) ∨ ¬ NoneWithinKeep inputs keep

/-- **Truncation keeps groups whole**, exactly when a group starts inside the
kept inputs or no groups are nested where it cuts. -/
theorem newSequence_truncatesWhole_iff (numCtx numKeep : Int) (inputs : List Model.Input)
    (hctx : 1 ≤ numCtx) (hlong : numCtx < inputs.length) :
    TruncatesWhole numCtx numKeep inputs ↔
      ¬ NoneWithinKeep inputs (clampedKeep numCtx numKeep inputs) ∨
      ¬ Nested (sameBatches inputs) promptCount
        (clampedKeep numCtx numKeep inputs + (inputs.length - numCtx).toNat) := by
  have hclamp : min (if numKeep < 0 then (inputs.length : Int) else numKeep) (numCtx - 1) =
      (clampedKeep numCtx numKeep inputs : ℕ) := by
    unfold clampedKeep
    split <;> omega
  have hsmall : (clampedKeep numCtx numKeep inputs : Int) < numCtx := by
    omega
  unfold TruncatesWhole newSequence
  dsimp only
  rw [if_neg (by omega), hclamp, if_pos hlong, if_neg (by decide)]
  generalize clampedKeep numCtx numKeep inputs = keep at hsmall
  have hstart : (keep : Int) + ((inputs.length : Int) - numCtx) =
      ((keep + (inputs.length - numCtx).toNat : ℕ) : Int) := by
    push_cast
    omega
  rw [hstart]
  generalize hneed : keep + (inputs.length - numCtx).toNat = need
  have hsizes : (sameBatches inputs).length = inputs.length := length_map _
  have hprompt : ∀ {p}, NoneWithinKeep inputs keep → (PromptStart numCtx inputs keep p ↔
        p < inputs.length ∧ need ≤ p ∧ ¬ Within (sameBatches inputs) p) := by
    intro p hnone
    rw [promptStart_iff hnone hlong]
    have : (keep : Int) + (inputs.length - numCtx) ≤ p ↔ need ≤ p := by omega
    rw [this]
  rcases promptStartLoop_found keep inputs inputs 0 need 0 rfl (Nat.zero_le _) (by omega)
    (by omega) rfl with ⟨herr, i, inp, -, hinp, hlt, hne⟩ | ⟨hnone, r, hr, hcut⟩
  · have hnot : ¬ NoneWithinKeep inputs keep := fun h => hne (h i (by omega) inp hinp)
    have hzero : promptStartLoop keep 0 0 need inputs = .error .sameBatchWithinKeep := herr
    rw [hzero]
    exact iff_of_true (Or.inr hnot) (Or.inl hnot)
  have hnone' : NoneWithinKeep inputs keep := fun i hi inp hinp =>
    hnone i inp (Nat.zero_le i) hinp (by omega)
  have hcut' := hcut
  rw [← hsizes] at hcut'
  have hnested := firstCut_within promptCount_le hcut'
  have hzero : promptStartLoop keep 0 0 need inputs = .ok r := hr
  rw [hzero, or_iff_right (not_not.mpr hnone'), ← hnested, hsizes]
  dsimp only
  by_cases hend : (inputs.length : Int) ≤ r
  · rw [if_pos hend]
    have hre : r = inputs.length := by have := hcut.le; omega
    rw [or_iff_left (not_not.mpr hnone')]
    constructor
    · intro hq
      refine ⟨hcut.le, fun j hj hP => hq j ((hprompt hnone').mpr ⟨by omega, hP⟩), fun h => ?_⟩
      omega
    · rintro hq q hstart
      obtain ⟨hlt, hP⟩ := (hprompt hnone').mp hstart
      exact hq.before q (by omega) hP
  · rw [if_neg hend]
    have hlt : r < inputs.length := by omega
    constructor
    · rintro ⟨p, htrunc, -, hp, hleast⟩
      have hpr : p = r := by
        have hdrop := append_cancel_left htrunc
        have hl := congrArg List.length hdrop
        rw [length_drop, length_drop, Int.toNat_natCast] at hl
        omega
      rw [hpr] at hp hleast
      refine ⟨hcut.le, fun j hj hP => ?_, fun _ => ((hprompt hnone').mp hp).2⟩
      have := hleast j ((hprompt hnone').mpr ⟨by omega, hP⟩)
      omega
    · intro hq
      refine ⟨r, rfl, hnone', (hprompt hnone').mpr ⟨hlt, hq.cut hlt⟩, fun q hqs => ?_⟩
      exact hq.le_of ((hprompt hnone').mp hqs).2

/-- Eight inputs, the third of which is tied to the next two. -/
def tiedPrompt : List Model.Input :=
  [{ token := 0 }, { token := 1 }, { token := 2, sameBatch := 2 }, { token := 3 }, { token := 4 },
    { token := 5 }, { token := 6 }, { token := 7 }]

/-- Six places and one kept input: the rest starts after the group. -/
theorem newSequence_truncatesWhole_tied : TruncatesWhole 6 1 tiedPrompt := by
  refine (newSequence_truncatesWhole_iff 6 1 tiedPrompt (by decide) (by decide)).mpr (Or.inr ?_)
  rintro ⟨j, hj, hneed, hover, ⟨i, k, hi, hk, hle⟩, -⟩
  have hneed' : 3 ≤ j := hneed
  have hj' : j < 8 := hj
  -- only the group at index 2 reaches that far
  have hgroup : j ≤ 4 := by
    have hk' : [0, 0, 2, 0, 0, 0, 0, 0][i]? = some k := hk
    obtain rfl | rfl | rfl | rfl | rfl | rfl | rfl :
      i = 0 ∨ i = 1 ∨ i = 2 ∨ i = 3 ∨ i = 4 ∨ i = 5 ∨ i = 6 := by omega
    all_goals
      cases hk'
      omega
  have hlast := hover 2 2 (by omega) rfl fun m hm hmj => by
    have hm' : m = 3 := by omega
    rw [hm']
    rfl
  omega

/-- A group of two inside a group of seven: the rest starts inside the
outer one. -/
theorem not_truncatesWhole_nested :
    ¬ TruncatesWhole 8 0 [{ token := 0, sameBatch := 6 }, { token := 1, sameBatch := 1 },
      { token := 2 }, { token := 3 }, { token := 4 }, { token := 5 }, { token := 6 },
      { token := 7 }, { token := 8 }, { token := 9 }, { token := 10 }, { token := 11 }] := by
  rintro ⟨p, htrunc, -, hp, -⟩
  have hp4 : p = 4 := by
    have hlen := congrArg List.length htrunc
    have hlt := hp.left.2
    simp [truncated, clampedKeep] at hlen hlt
    omega
  subst hp4
  refine hp.together ⟨0, 0, 4, ⟨?_, ?_, 6, rfl, ?_⟩, ⟨?_, ?_, 6, rfl, ?_⟩, ?_, ?_, ?_⟩
  all_goals decide

end Rotary

end Ollama.Runner
