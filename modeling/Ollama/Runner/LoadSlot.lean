import Ollama.KvCache.Runs
import Ollama.Lib.FirstMax
import Ollama.Runner.InputCache

/-!
# `LoadCacheSlot` over a plain causal cache

A slot that is handed out holds exactly a part of the prompt that was computed
from that part, one input at least remains to be processed, and no other slot
is touched. With the policy for several users this needs a slot the search can
settle on: `findBestCacheSlot` dereferences a nil slot otherwise.
-/

namespace Ollama.Runner

open KvCache KvCache.Causal Lib List FirstMax

/-! ## §1  What a slot holds -/

/-- What an input is compared by. -/
def Input.key (i : Input) : Int × Nat := (i.token, i.multimodalHash)

/-- The cells of `seq` hold the positions `0, …, keys.length - 1`, once each,
and the row of each was computed from the keys up to its position. `rows` says
what the row of a location was computed from. -/
structure Holds (c : Causal) (rows : Nat → List (Int × Nat)) (seq : Int)
    (keys : List (Int × Nat)) : Prop where
  stored : ∀ p : Nat, p < keys.length →
    ∃ j, seq ∈ (cellAt c.cells j).sequences ∧ (cellAt c.cells j).pos = p
  only : ∀ j, seq ∈ (cellAt c.cells j).sequences →
    ∃ p : Nat, p < keys.length ∧ (cellAt c.cells j).pos = p ∧ rows j = keys.take (p + 1)
  once : ∀ i j, seq ∈ (cellAt c.cells i).sequences → seq ∈ (cellAt c.cells j).sequences →
    (cellAt c.cells i).pos = (cellAt c.cells j).pos → i = j

/-- The cells of `seq` are the same in both caches. -/
def SameFor (seq : Int) (c c' : Causal) : Prop :=
  ∀ j, (seq ∈ (cellAt c'.cells j).sequences ↔ seq ∈ (cellAt c.cells j).sequences) ∧
    (cellAt c'.cells j).pos = (cellAt c.cells j).pos

theorem SameFor.refl (seq : Int) (c : Causal) : SameFor seq c c :=
  fun _ => ⟨Iff.rfl, rfl⟩

variable {seq : Int}

theorem SameFor.trans {a b d : Causal} (h₁ : SameFor seq a b)
    (h₂ : SameFor seq b d) : SameFor seq a d :=
  fun j => ⟨(h₂ j).1.trans (h₁ j).1, (h₂ j).2.trans (h₁ j).2⟩

variable {rows : Nat → List (Int × Nat)} {keys : List (Int × Nat)}

theorem Holds.of_sameFor {c c' : Causal} (h : Holds c rows seq keys) (hs : SameFor seq c c') :
    Holds c' rows seq keys where
  stored p hp := by
    obtain ⟨j, hj, hpos⟩ := h.stored p hp
    exact ⟨j, (hs j).1.mpr hj, (hs j).2.trans hpos⟩
  only j hj := by
    obtain ⟨p, hp, hpos, hrow⟩ := h.only j ((hs j).1.mp hj)
    exact ⟨p, hp, (hs j).2.trans hpos, hrow⟩
  once i j hi hj heq := by
    rw [(hs i).2, (hs j).2] at heq
    exact h.once i j ((hs i).1.mp hi) ((hs j).1.mp hj) heq

variable {c : Causal}

/-- Trimming a sequence to `n` inputs. -/
theorem Holds.remove (h : Holds c rows seq keys)
    (hsize : (keys.length : Int) ≤ maxInt32) (n : Nat) (shiftFails : Bool) :
    (c.remove seq n maxInt32 shiftFails).2 = none ∧
    SameSetup c (c.remove seq n maxInt32 shiftFails).1 ∧
    Holds (c.remove seq n maxInt32 shiftFails).1 rows seq (keys.take n) ∧
    ∀ s, s ≠ seq → SameFor s c (c.remove seq n maxInt32 shiftFails).1 := by
  obtain ⟨hnil, hsetup, hcell⟩ := @remove_tail c seq n shiftFails (fun i hi => by
      obtain ⟨p, hp, hpos, _⟩ := h.only i hi
      omega)
  generalize c.remove seq n maxInt32 shiftFails = r at hnil hsetup hcell
  have hpos : ∀ j, (cellAt r.1.cells j).pos = (cellAt c.cells j).pos := by
    intro j
    rw [hcell j]
    split <;> rfl
  have hmem : ∀ j, seq ∈ (cellAt r.1.cells j).sequences ↔
      seq ∈ (cellAt c.cells j).sequences ∧ (cellAt c.cells j).pos < n := by
    intro j
    rw [hcell j]
    by_cases hc : seq ∈ (cellAt c.cells j).sequences ∧ (n : Int) ≤ (cellAt c.cells j).pos
    · rw [if_pos hc, CacheCell.mem_drop]
      exact iff_of_false (fun hm => hm.2 rfl) (fun hm => absurd hc.2 (Int.not_le.mpr hm.2))
    · rw [if_neg hc]
      exact ⟨fun hm => ⟨hm, Int.not_le.mp fun hle => hc ⟨hm, hle⟩⟩, fun hm => hm.1⟩
  refine ⟨hnil, hsetup, ⟨?_, ?_, ?_⟩, ?_⟩
  · intro p hp
    rw [length_take] at hp
    obtain ⟨j, hj, hjp⟩ := h.stored p (by omega)
    exact ⟨j, (hmem j).mpr ⟨hj, by omega⟩, (hpos j).trans hjp⟩
  · intro j hj
    obtain ⟨hj', hlt⟩ := (hmem j).mp hj
    obtain ⟨p, hp, hjp, hrow⟩ := h.only j hj'
    refine ⟨p, by rw [length_take]; omega, (hpos j).trans hjp, ?_⟩
    rw [hrow, take_take, Nat.min_eq_left (by omega)]
  · intro i j hi hj heq
    rw [hpos i, hpos j] at heq
    exact h.once i j ((hmem i).mp hi).1 ((hmem j).mp hj).1 heq
  intro s hs j
  refine ⟨?_, hpos j⟩
  rw [hcell j]
  split
  · rw [CacheCell.mem_drop]
    exact ⟨fun hm => hm.1, fun hm => ⟨hm, hs⟩⟩
  · exact Iff.rfl

/-- Forking the first `n` inputs of a sequence. -/
theorem Holds.copyPrefix {src dst : Int} (h : Holds c rows src keys) (hne : src ≠ dst) (n : Nat) :
    Holds (c.copyPrefix src dst n) rows dst (keys.take n) ∧
    ∀ s, s ≠ dst → SameFor s c (c.copyPrefix src dst n) := by
  have hcell : ∀ i, cellAt (c.copyPrefix src dst n).cells i =
      copyCell src dst n (cellAt c.cells i) :=
    cellAt_map (copyCell_empty src dst n)
  have hpos : ∀ j, (cellAt (c.copyPrefix src dst n).cells j).pos = (cellAt c.cells j).pos :=
    fun j => by rw [hcell j, copyCell_pos]
  have hmem : ∀ j, dst ∈ (cellAt (c.copyPrefix src dst n).cells j).sequences ↔
      src ∈ (cellAt c.cells j).sequences ∧ (cellAt c.cells j).pos < n := by
    intro j
    rw [hcell j, mem_copyCell, if_pos rfl]
    exact ⟨fun hm => hm.2, fun hm => ⟨hne, hm⟩⟩
  refine ⟨⟨?_, ?_, ?_⟩, ?_⟩
  · intro p hp
    rw [length_take] at hp
    obtain ⟨j, hj, hjp⟩ := h.stored p (by omega)
    exact ⟨j, (hmem j).mpr ⟨hj, by omega⟩, (hpos j).trans hjp⟩
  · intro j hj
    obtain ⟨hj', hlt⟩ := (hmem j).mp hj
    obtain ⟨p, hp, hjp, hrow⟩ := h.only j hj'
    refine ⟨p, by rw [length_take]; omega, (hpos j).trans hjp, ?_⟩
    rw [hrow, take_take, Nat.min_eq_left (by omega)]
  · intro i j hi hj heq
    rw [hpos i, hpos j] at heq
    exact h.once i j ((hmem i).mp hi).1 ((hmem j).mp hj).1 heq
  · intro s hs j
    refine ⟨?_, hpos j⟩
    rw [hcell j, mem_copyCell, if_neg hs]

/-! ## §2  The state of the slots -/

/-- The causal cache behind the slots. `shiftFails` is what the shift function
of the model does; no call below shifts. -/
def causalOps (shiftFails : Bool) : CacheOps Causal where
  canResume := Causal.canResume
  prepareRestore := none
  remove c seq beginIndex endIndex :=
    ((c.remove seq beginIndex endIndex shiftFails).1,
      (c.remove seq beginIndex endIndex shiftFails).2.isSome)
  copyPrefix := Causal.copyPrefix

/-- The invariant of the slots over a plain causal cache `c`: each slot's
inputs are stored under its id and were computed from them. -/
structure Consistent (st : InputCache Causal) (c : Causal)
    (rows : Nat → List (Int × Nat)) : Prop where
  cache : st.cache = some c
  plain : c.swaMemorySize = maxInt32
  ids : ∀ (i : Nat) s, st.slots[i]? = some s → s.id = i
  /-- Positions are `int32`. -/
  size : ∀ (i : Nat) s, st.slots[i]? = some s → (s.inputs.length : Int) ≤ maxInt32
  holds : ∀ (i : Nat) s, st.slots[i]? = some s → Holds c rows i (s.inputs.map Input.key)

/-- What handing out slot `i` means: it was free, it and the remaining inputs
make up the prompt, something remains, the cache holds exactly the slot's
inputs, and nothing else has changed. -/
structure HandsOut (st : InputCache Causal) (c : Causal) (rows : Nat → List (Int × Nat))
    (prompt : List Input) (st' : InputCache Causal) (i : Nat) (remaining : List Input) :
    Prop where
  free : ∃ s, st.slots[i]? = some s ∧ s.inUse = false
  nonempty : remaining ≠ []
  slot : ∃ s, st'.slots[i]? = some s ∧ s.inUse = true ∧ s.inputs ++ remaining = prompt ∧
    ∃ c', st'.cache = some c' ∧ Holds c' rows i (s.inputs.map Input.key) ∧
      ∀ k, k ≠ (i : Int) → SameFor k c c'
  others : ∀ k, k ≠ i → st'.slots[k]? = st.slots[k]?

/-- **What `LoadCacheSlot` is to do**: hand out a slot when one is free, and
otherwise return an error and change nothing. -/
structure LoadsPrefix (st : InputCache Causal) (c : Causal) (rows : Nat → List (Int × Nat))
    (prompt : List Input) (r : Loaded Causal) : Prop where
  found : (∃ (i : Nat) (s : InputCacheSlot), st.slots[i]? = some s ∧ s.inUse = false) →
    ∃ i remaining, r.result = .ok (i, remaining) ∧ HandsOut st c rows prompt r.cache i remaining
  full : (∀ (i : Nat) (s : InputCacheSlot), st.slots[i]? = some s → s.inUse = true) →
    (∃ e, r.result = .err e) ∧ r.cache = st

/-! ## §3  The common prefix -/

theorem countCommonPrefix_le_left : ∀ (a b : List Input), countCommonPrefix a b ≤ a.length
  | [], _ => by simp [countCommonPrefix]
  | _ :: _, [] => by simp [countCommonPrefix]
  | a :: as, b :: bs => by
      have ih := countCommonPrefix_le_left as bs
      rw [countCommonPrefix, length_cons]
      split
      · omega
      · omega

theorem countCommonPrefix_le_right : ∀ (a b : List Input), countCommonPrefix a b ≤ b.length
  | [], _ => by simp [countCommonPrefix]
  | _ :: _, [] => by simp [countCommonPrefix]
  | a :: as, b :: bs => by
      have ih := countCommonPrefix_le_right as bs
      rw [countCommonPrefix, length_cons]
      split
      · omega
      · omega

/-- The common prefix is common. -/
theorem take_countCommonPrefix : ∀ (a b : List Input),
    (a.take (countCommonPrefix a b)).map Input.key = (b.take (countCommonPrefix a b)).map Input.key
  | [], b => by simp [countCommonPrefix]
  | _ :: _, [] => by simp [countCommonPrefix]
  | a :: as, b :: bs => by
      have ih := take_countCommonPrefix as bs
      rw [countCommonPrefix]
      by_cases h : a.token ≠ b.token ∨ a.multimodalHash ≠ b.multimodalHash
      · rw [if_pos h]
        rfl
      · rw [if_neg h, take_succ_cons, take_succ_cons, map_cons, map_cons, ih]
        obtain ⟨h₁, h₂⟩ := not_or.mp h
        rw [Input.key, Input.key, Decidable.not_not.mp h₁, Decidable.not_not.mp h₂]

/-! ## §4  Loading a slot the search returned -/

/-- The inputs of a slot agree with the prompt up to `n`. -/
structure Matches (slot : InputCacheSlot) (prompt : List Input) (n : Nat) : Prop where
  slotLength : n ≤ slot.inputs.length
  promptLength : n ≤ prompt.length
  keys : (slot.inputs.take n).map Input.key = (prompt.take n).map Input.key

variable {prompt : List Input}

theorem Matches.mono {slot : InputCacheSlot} {m n : Nat}
    (h : Matches slot prompt n) (hle : m ≤ n) : Matches slot prompt m where
  slotLength := Nat.le_trans hle h.slotLength
  promptLength := Nat.le_trans hle h.promptLength
  keys := by
    have := congrArg (List.take m) h.keys
    rwa [← map_take, ← map_take, take_take, take_take, Nat.min_eq_left hle] at this

theorem matches_countCommonPrefix (slot : InputCacheSlot) (prompt : List Input) :
    Matches slot prompt (countCommonPrefix slot.inputs prompt) :=
  ⟨countCommonPrefix_le_left _ _, countCommonPrefix_le_right _ _, take_countCommonPrefix _ _⟩

/-- The number of inputs that are kept: none without `cachePrompt`, and one
less than all when everything matched. -/
def keptInputs (cachePrompt : Bool) (prompt : List Input) (n : Nat) : Nat :=
  let n := if cachePrompt then n else 0
  if n = prompt.length then n - 1 else n

variable {n : Nat}

theorem keptInputs_lt (cachePrompt : Bool) (hne : prompt ≠ []) (h : n ≤ prompt.length) :
    keptInputs cachePrompt prompt n < prompt.length ∧ keptInputs cachePrompt prompt n ≤ n := by
  have hpos : 0 < prompt.length := length_pos_iff.mpr hne
  unfold keptInputs
  cases cachePrompt with
  | true =>
      simp only [if_true]
      split <;> omega
  | false =>
      simp only [Bool.false_eq_true, if_false]
      split <;> omega

theorem keptInputs_cast (cachePrompt : Bool) (n : Nat) (hne : prompt ≠ []) :
    (if (if cachePrompt then (n : Int) else 0) = prompt.length then
      (if cachePrompt then (n : Int) else 0) - 1
    else if cachePrompt then (n : Int) else 0) = (keptInputs cachePrompt prompt n : Nat) := by
  have hpos : 0 < prompt.length := length_pos_iff.mpr hne
  unfold keptInputs
  cases cachePrompt with
  | true =>
      simp only [if_true]
      split <;> split <;> omega
  | false =>
      simp only [Bool.false_eq_true, if_false]
      split <;> split <;> omega

variable {st : InputCache Causal} {i : Nat}

/-- **Loading.** The slot the search returned is handed out. -/
theorem loadSlot_spec (h : Consistent st c rows) (hne : prompt ≠ [])
    {slot : InputCacheSlot} (hi : st.slots[i]? = some slot) (hfree : slot.inUse = false)
    (hm : Matches slot prompt n) (cachePrompt : Bool) (now : Int) (shiftFails : Bool) :
    ∃ st' remaining, loadSlot (causalOps shiftFails) st prompt cachePrompt now i n =
        ⟨st', .ok (i, remaining)⟩ ∧ HandsOut st c rows prompt st' i remaining := by
  obtain ⟨hlt, hle⟩ := keptInputs_lt cachePrompt hne hm.promptLength
  have hcast := keptInputs_cast cachePrompt n hne
  have hmatch := hm.mono hle
  generalize keptInputs cachePrompt prompt n = m at hlt hle hcast hmatch
  have hid := h.ids i slot hi
  have hresume : resumeAt (causalOps shiftFails) c slot.id m = (c, (m : Int)) := by
    have hcan : c.canResume slot.id m = true := by
      unfold Causal.canResume
      rw [if_pos h.plain]
    unfold resumeAt causalOps
    split <;> rfl
  have hsize : ((slot.inputs.map Input.key).length : Int) ≤ maxInt32 := by
    rw [length_map]
    exact h.size i slot hi
  obtain ⟨hnil, _, hholds, hsame⟩ := (h.holds i slot hi).remove hsize m shiftFails
  have htrim : trimTo (causalOps shiftFails) c slot.id m =
      ((c.remove i m maxInt32 shiftFails).1, (m : Int), false) := by
    unfold trimTo causalOps
    simp only
    rw [hid, hnil]
    rfl
  have hlen : i < st.slots.length := (List.getElem?_eq_some_iff.mp hi).1
  have hload : loadSlot (causalOps shiftFails) st prompt cachePrompt now i n = ⟨{ st with
          slots := (st.slots.set i { slot with inUse := true, lastUsed := now }).set i
            { slot with inUse := true, lastUsed := now, inputs := prompt.take m }
          cache := some (c.remove i m maxInt32 shiftFails).1 },
        .ok (i, prompt.drop m)⟩ := by
    unfold loadSlot
    rw [hi]
    simp only
    rw [hcast, h.cache]
    simp only
    rw [hresume]
    rw [htrim]
    simp only [Bool.false_eq_true, if_false, Int.toNat_natCast]
    rw [if_neg (by omega)]
  have hkeys : (slot.inputs.map Input.key).take m = (prompt.take m).map Input.key := by
    rw [← map_take]
    exact hmatch.keys
  rw [hkeys] at hholds
  refine ⟨_, _, hload, ⟨slot, hi, hfree⟩, ?_, ⟨{ slot with
      inUse := true, lastUsed := now, inputs := prompt.take m }, ?_, rfl,
      take_append_drop m prompt, _, rfl, hholds, hsame⟩, ?_⟩
  · exact fun hc => absurd (drop_eq_nil_iff.mp hc) (Nat.not_le.mpr hlt)
  · simp [hlen]
  · intro k hk
    simp [hk.symm]

/-! ## §5  The searches -/

def freeKey (prompt : List Input) (s : InputCacheSlot) : Option Int :=
  if s.inUse then none else some (countCommonPrefix s.inputs prompt)

def matchKey (prompt : List Input) (s : InputCacheSlot) : Option Int :=
  some (countCommonPrefix s.inputs prompt)

def ageKey (s : InputCacheSlot) : Option Int :=
  if s.inUse then none else some (-s.lastUsed)

theorem longestStep_eq (prompt : List Input) : longestStep prompt = step (freeKey prompt) := by
  funext best p
  unfold longestStep step freeKey
  by_cases h : p.1.inUse = true
  · rw [if_pos h, if_pos h]
  · rw [if_neg h, if_neg h]

/-- The loop of `findBestCacheSlot` runs two searches at once. -/
theorem foldl_bestStep (prompt : List Input) (now : Int) (slots : List InputCacheSlot) :
    slots.zipIdx.foldl (bestStep prompt) { oldest := now } =
      { oldest := -(scan ageKey (-now) slots).1
        oldestSlot := (scan ageKey (-now) slots).2
        longest := (scan (matchKey prompt) (-1) slots).1
        longestSlot := (scan (matchKey prompt) (-1) slots).2 } := by
  induction slots using List.reverseRecOn with
  | nil => simp [scan]
  | append_singleton slots s ih =>
      rw [zipIdx_append, foldl_append, ih, scan_snoc, scan_snoc]
      generalize scan ageKey (-now) slots = a
      generalize scan (matchKey prompt) (-1) slots = m
      unfold bestStep step matchKey ageKey
      by_cases hm : m.1 < (countCommonPrefix s.inputs prompt : Int)
      · by_cases hu : s.inUse = true
        · simp [hm, hu]
        · by_cases ha : a.1 < -s.lastUsed
          · have ha' : s.lastUsed < -a.1 := by omega
            simp [hm, hu, ha, ha']
          · have ha' : ¬ s.lastUsed < -a.1 := by omega
            simp [hm, hu, ha, ha']
      · by_cases hu : s.inUse = true
        · simp [hm, hu]
        · by_cases ha : a.1 < -s.lastUsed
          · have ha' : s.lastUsed < -a.1 := by omega
            simp [hm, hu, ha, ha']
          · have ha' : ¬ s.lastUsed < -a.1 := by omega
            simp [hm, hu, ha, ha']

/-- The search for the longest match finds a free slot if there is one. -/
theorem findLongestCacheSlot_spec (st : InputCache Causal) (prompt : List Input) :
    ((∀ (i : Nat) (s : InputCacheSlot), st.slots[i]? = some s → s.inUse = true) ∧
      findLongestCacheSlot st prompt = .err .noSlots) ∨
    ∃ (i : Nat) (s : InputCacheSlot), st.slots[i]? = some s ∧ s.inUse = false ∧
      findLongestCacheSlot st prompt = .ok (st, i, (countCommonPrefix s.inputs prompt : Int)) := by
  unfold findLongestCacheSlot
  rw [longestStep_eq, show st.slots.zipIdx.foldl (step (freeKey prompt)) (-1, none) =
    scan (freeKey prompt) (-1) st.slots from rfl]
  have hnone := @scan_eq_none _ (freeKey prompt) (-1) st.slots
  have hmax := scan_isFirstMax (freeKey prompt) (-1) st.slots
  generalize scan (freeKey prompt) (-1) st.slots = best at hnone hmax
  obtain ⟨longest, longestSlot⟩ := best
  cases longestSlot with
  | none =>
      refine Or.inl ⟨fun i s hs => ?_, rfl⟩
      by_contra hu
      have := hnone.mp rfl i s _ hs (if_neg hu)
      omega
  | some i =>
      obtain ⟨_, ⟨s, hs, hkey⟩, _⟩ := hmax.some i rfl
      unfold freeKey at hkey
      by_cases hu : s.inUse = true
      · rw [if_pos hu] at hkey
        cases hkey
      · rw [if_neg hu] at hkey
        cases hkey
        exact Or.inr ⟨i, s, hs, Bool.eq_false_iff.mpr hu, rfl⟩

/-- Slot `i` is the first of those that match most of the prompt. -/
structure FirstLongest (slots : List InputCacheSlot) (prompt : List Input) (i : Nat)
    (s : InputCacheSlot) : Prop where
  slot : slots[i]? = some s
  longest : ∀ (j : Nat) t, slots[j]? = some t →
    countCommonPrefix t.inputs prompt ≤ countCommonPrefix s.inputs prompt
  first : ∀ (j : Nat) t, j < i → slots[j]? = some t →
    countCommonPrefix t.inputs prompt < countCommonPrefix s.inputs prompt

/-- The search of the policy for several users has a slot to settle on: the
first longest match is free and matches with all its inputs, or some free slot
was used before now. -/
def Settles (slots : List InputCacheSlot) (prompt : List Input) (now : Int) : Prop :=
  (∃ i s, FirstLongest slots prompt i s ∧ s.inUse = false ∧
    countCommonPrefix s.inputs prompt = s.inputs.length) ∨
  ∃ (i : Nat) (s : InputCacheSlot), slots[i]? = some s ∧ s.inUse = false ∧ s.lastUsed < now

variable {slots : List InputCacheSlot}

theorem firstLongest_of_scan
    {longest : Int} (h : scan (matchKey prompt) (-1) slots = (longest, some i)) :
    ∃ s, FirstLongest slots prompt i s ∧ longest = countCommonPrefix s.inputs prompt := by
  have hmax := scan_isFirstMax (matchKey prompt) (-1) slots
  rw [h] at hmax
  obtain ⟨_, ⟨s, hs, hkey⟩, hfirst⟩ := hmax.some i rfl
  have hlongest : longest = countCommonPrefix s.inputs prompt := (Option.some.inj hkey).symm
  refine ⟨s, ⟨hs, fun j t ht => ?_, fun j t hj ht => ?_⟩, hlongest⟩
  · have hle := hmax.above j t _ ht rfl
    omega
  · have hlt := hfirst j hj t _ ht rfl
    omega

theorem scan_of_firstLongest {s : InputCacheSlot} (h : FirstLongest slots prompt i s) :
    scan (matchKey prompt) (-1) slots = ((countCommonPrefix s.inputs prompt : Int), some i) := by
  refine scan_eq_some h.slot rfl (by omega) ?_ ?_
  · intro j t k ht hk
    cases hk
    exact_mod_cast h.longest j t ht
  · intro j hj t k ht hk
    cases hk
    exact_mod_cast h.first j t hj ht

variable {now : Int}

/-- The search for the oldest slot fails exactly when no free slot was used
before now. -/
theorem scan_ageKey : (scan ageKey (-now) slots).2 = none ↔
      ¬ ∃ (i : Nat) (s : InputCacheSlot), slots[i]? = some s ∧ s.inUse = false ∧
        s.lastUsed < now := by
  rw [scan_eq_none]
  constructor
  · rintro h ⟨i, s, hs, hu, hlt⟩
    have := h i s (-s.lastUsed) hs (if_neg (by rw [hu]; exact Bool.false_ne_true))
    omega
  intro h j s k hs hk
  unfold ageKey at hk
  by_cases hu : s.inUse = true
  · rw [if_pos hu] at hk
    cases hk
  · rw [if_neg hu] at hk
    cases hk
    by_contra hlt
    exact h ⟨j, s, hs, Bool.eq_false_iff.mpr hu, by omega⟩

/-- What a search leaves when it returns slot `i` with `n` matching inputs. -/
structure Found (st : InputCache Causal) (c : Causal) (rows : Nat → List (Int × Nat))
    (prompt : List Input) (st' : InputCache Causal) (c' : Causal) (i n : Nat) : Prop where
  consistent : Consistent st' c' rows
  free : ∃ s, st.slots[i]? = some s ∧ s.inUse = false
  slot : ∃ s, st'.slots[i]? = some s ∧ s.inUse = false ∧ Matches s prompt n
  others : ∀ k, k ≠ i → st'.slots[k]? = st.slots[k]?
  same : ∀ k, k ≠ (i : Int) → SameFor k c c'

/-- Forking the longest match over the oldest slot. -/
theorem fork_found (h : Consistent st c rows) {i k : Nat} {s t : InputCacheSlot}
    (hs : st.slots[i]? = some s) (ht : st.slots[k]? = some t) (hfree : t.inUse = false)
    (hik : i ≠ k) (hm : Matches s prompt n) :
    Found st c rows prompt { st with
        slots := st.slots.set k { t with inputs := s.inputs.take n }
        cache := some (c.copyPrefix i k n) }
      (c.copyPrefix i k n) k n := by
  have hlen : k < st.slots.length := (List.getElem?_eq_some_iff.mp ht).1
  have hne : (i : Int) ≠ k := by exact_mod_cast hik
  obtain ⟨hcopy, hsame⟩ := (h.holds i s hs).copyPrefix hne n
  have hslot : ∀ j, (st.slots.set k { t with inputs := s.inputs.take n })[j]? =
      if j = k then some { t with inputs := s.inputs.take n } else st.slots[j]? := by
    intro j
    rw [getElem?_set]
    by_cases hj : k = j
    · rw [if_pos hj, if_pos hj.symm, if_pos (hj ▸ hlen)]
    · rw [if_neg hj, if_neg (Ne.symm hj)]
  refine ⟨⟨rfl, h.plain, ?_, ?_, ?_⟩, ⟨t, ht, hfree⟩, ⟨{ t with inputs := s.inputs.take n },
    ?_, hfree, ?_, hm.promptLength, ?_⟩, ?_, hsame⟩
  · intro j r hr
    have hr' := (hslot j).symm.trans hr
    by_cases hj : j = k
    · rw [if_pos hj] at hr'
      cases hr'
      exact (h.ids k t ht).trans hj.symm
    · rw [if_neg hj] at hr'
      exact h.ids j r hr'
  · intro j r hr
    have hr' := (hslot j).symm.trans hr
    by_cases hj : j = k
    · rw [if_pos hj] at hr'
      cases hr'
      have := h.size i s hs
      rw [length_take]
      omega
    · rw [if_neg hj] at hr'
      exact h.size j r hr'
  · intro j r hr
    have hr' := (hslot j).symm.trans hr
    by_cases hj : j = k
    · rw [if_pos hj] at hr'
      cases hr'
      rw [hj]
      rw [map_take]
      exact hcopy
    · rw [if_neg hj] at hr'
      refine (h.holds j r hr').of_sameFor (hsame j ?_)
      exact_mod_cast hj
  · rw [hslot k, if_pos rfl]
  · rw [length_take]
    exact Nat.le_min.mpr ⟨Nat.le_refl _, hm.slotLength⟩
  · rw [take_take, Nat.min_self]
    exact hm.keys
  · intro j hj
    rw [hslot j, if_neg hj]

theorem self_found (h : Consistent st c rows) {s : InputCacheSlot}
    (hs : st.slots[i]? = some s) (hfree : s.inUse = false)
    (hm : Matches s prompt n) : Found st c rows prompt st c i n :=
  ⟨h, ⟨s, hs, hfree⟩, ⟨s, hs, hfree, hm⟩, fun _ _ => rfl, fun k _ => SameFor.refl k c⟩

/-- With a slot to settle on, the search of the policy for several users
returns one. -/
theorem findBestCacheSlot_of_settles (h : Consistent st c rows)
    (shiftFails : Bool) (hset : Settles st.slots prompt now) :
    ∃ (st' : InputCache Causal) (c' : Causal) (i n : Nat),
      findBestCacheSlot (causalOps shiftFails) st prompt now =
        .ok (st', i, (n : Int)) ∧ Found st c rows prompt st' c' i n := by
  unfold findBestCacheSlot
  rw [foldl_bestStep]
  cases hlong : scan (matchKey prompt) (-1) st.slots with
  | mk longest longestSlot =>
  cases longestSlot with
  | none =>
      -- there is no slot at all, so none to settle on
      exfalso
      have hnone := scan_eq_none.mp (congrArg Prod.snd hlong)
      rcases hset with ⟨i, s, hfl, _⟩ | ⟨i, s, hs, _⟩
      · have := hnone i s _ hfl.slot rfl
        omega
      · have := hnone i s _ hs rfl
        omega
  | some i =>
      obtain ⟨s, hfl, hlongest⟩ := firstLongest_of_scan hlong
      simp only [Option.bind_some, hfl.slot, Option.map_some]
      by_cases hfull : longest = s.inputs.length ∧ (!s.inUse) = true
      · rw [if_pos hfull]
        refine ⟨st, c, i, countCommonPrefix s.inputs prompt, by rw [hlongest], ?_⟩
        exact self_found h hfl.slot (by simpa using hfull.2) (matches_countCommonPrefix s prompt)
      rw [if_neg hfull]
      cases hage : scan ageKey (-now) st.slots with
      | mk oldest oldestSlot =>
      cases oldestSlot with
      | none =>
          exfalso
          have hnone := scan_ageKey.mp (congrArg Prod.snd hage)
          rcases hset with ⟨j, t, hfl', hfree, hall⟩ | hex
          · have heq := (scan_of_firstLongest hfl').symm.trans hlong
            have hij : j = i := Option.some.inj (congrArg Prod.snd heq)
            have hst := hfl'.slot
            rw [hij, hfl.slot] at hst
            cases hst
            exact hfull ⟨by rw [hlongest, hall], by rw [hfree]; rfl⟩
          · exact hnone hex
      | some k =>
          have hmax := scan_isFirstMax ageKey (-now) st.slots
          rw [hage] at hmax
          obtain ⟨_, ⟨t, ht, hkey⟩, _⟩ := hmax.some k rfl
          have hfree : t.inUse = false := by
            unfold ageKey at hkey
            by_contra hu
            rw [if_pos (Bool.not_eq_false _ ▸ hu)] at hkey
            cases hkey
          simp only [Option.bind_some, ht, Option.map_some]
          rw [if_neg (by rw [hfree]; exact Bool.false_ne_true)]
          by_cases hfork : 0 < longest ∧ i ≠ k
          · rw [if_pos hfork]
            refine ⟨_, _, k, countCommonPrefix s.inputs prompt, ?_,
              fork_found h hfl.slot ht hfree hfork.2 (matches_countCommonPrefix s prompt)⟩
            rw [hlongest, h.cache, h.ids i s hfl.slot, h.ids k t ht, Int.toNat_natCast]
            rfl
          · rw [if_neg hfork]
            refine ⟨st, c, k, countCommonPrefix s.inputs prompt, by rw [hlongest], ?_⟩
            refine self_found h ht hfree ?_
            by_cases hik : i = k
            · have hst := hfl.slot
              rw [hik, ht] at hst
              rw [Option.some.inj hst]
              exact matches_countCommonPrefix s prompt
            · have hzero : countCommonPrefix s.inputs prompt = 0 := by
                omega
              rw [hzero]
              exact (matches_countCommonPrefix t prompt).mono (Nat.zero_le _)

/-- Without one it dereferences a nil slot. -/
theorem findBestCacheSlot_of_not_settles
    (ops : CacheOps Causal) (hset : ¬ Settles st.slots prompt now) :
    findBestCacheSlot ops st prompt now = .panic := by
  obtain ⟨hlongest, holdest⟩ := not_or.mp hset
  unfold findBestCacheSlot
  rw [foldl_bestStep, scan_ageKey.mpr holdest]
  cases hlong : scan (matchKey prompt) (-1) st.slots with
  | mk longest longestSlot =>
  cases longestSlot with
  | none => rfl
  | some i =>
      obtain ⟨s, hfl, hcount⟩ := firstLongest_of_scan hlong
      simp only [Option.bind_some, hfl.slot, Option.map_some]
      rw [if_neg]
      · rfl
      · rintro ⟨hfull, hfree⟩
        refine hlongest ⟨i, s, hfl, by simpa using hfree, ?_⟩
        omega

/-! ## §6  `LoadCacheSlot` -/

/-- Whatever a search returns is handed out. -/
theorem Found.handsOut {st st' : InputCache Causal} {c c' : Causal} {i n : Nat}
    (h : Found st c rows prompt st' c' i n) (hne : prompt ≠ []) (cachePrompt : Bool)
    (now : Int) (shiftFails : Bool) :
    ∃ st'' remaining, loadSlot (causalOps shiftFails) st' prompt cachePrompt now i n =
        ⟨st'', .ok (i, remaining)⟩ ∧ HandsOut st c rows prompt st'' i remaining := by
  obtain ⟨s, hs, hfree, hm⟩ := h.slot
  obtain ⟨st'', remaining, hload, hout⟩ :=
    loadSlot_spec h.consistent hne hs hfree hm cachePrompt now shiftFails
  refine ⟨st'', remaining, hload, h.free, hout.nonempty, ?_, ?_⟩
  · obtain ⟨s', hs', huse, hprompt, c'', hc, hholds, hsame⟩ := hout.slot
    exact ⟨s', hs', huse, hprompt, c'', hc, hholds, fun k hk => (h.same k hk).trans (hsame k hk)⟩
  · exact fun k hk => (hout.others k hk).trans (h.others k hk)

/-- **`LoadCacheSlot` hands out a correct part of the prompt, exactly when the
search has a slot to settle on**: always with the policy for one user, and
under `Settles` with the one for several. -/
theorem loadCacheSlot_iff {st : InputCache Causal} {c : Causal}
    {rows : Nat → List (Int × Nat)} (h : Consistent st c rows) {prompt : List Input}
    (hne : prompt ≠ []) (cachePrompt : Bool) (nowSearch now : Int) (shiftFails : Bool) :
    LoadsPrefix st c rows prompt
        (loadCacheSlot (causalOps shiftFails) st prompt cachePrompt nowSearch now) ↔
      (st.multiUserCache = true → Settles st.slots prompt nowSearch) := by
  have hok : ∀ {st' : InputCache Causal} {c' : Causal} {i n : Nat},
      Found st c rows prompt st' c' i n →
      LoadsPrefix st c rows prompt
        (loadSlot (causalOps shiftFails) st' prompt cachePrompt now i n) := by
    intro st' c' i n hf
    obtain ⟨st'', remaining, hload, hout⟩ := hf.handsOut hne cachePrompt now shiftFails
    rw [hload]
    refine ⟨fun _ => ⟨i, remaining, rfl, hout⟩, fun hfull => ?_⟩
    obtain ⟨s, hs, hfree⟩ := hf.free
    rw [hfull i s hs] at hfree
    cases hfree
  unfold loadCacheSlot
  cases hmulti : st.multiUserCache with
  | false =>
      refine iff_of_true ?_ (fun hc => by cases hc)
      rcases findLongestCacheSlot_spec st prompt with ⟨hfull, herr⟩ | ⟨i, s, hs, hfree, hfound⟩
      · rw [herr]
        refine ⟨fun hex => ?_, fun _ => ⟨⟨_, rfl⟩, rfl⟩⟩
        obtain ⟨i, s, hs, hfree⟩ := hex
        rw [hfull i s hs] at hfree
        cases hfree
      · rw [hfound]
        exact hok (self_found h hs hfree (matches_countCommonPrefix s prompt))
  | true =>
      simp only [if_true, forall_const]
      constructor
      · intro hload
        by_contra hset
        rw [findBestCacheSlot_of_not_settles _ hset] at hload
        by_cases hex : ∃ (i : Nat) (s : InputCacheSlot), st.slots[i]? = some s ∧ s.inUse = false
        · obtain ⟨i, remaining, hres, _⟩ := hload.found hex
          cases hres
        · obtain ⟨⟨e, hres⟩, _⟩ := hload.full (fun i s hs => by
            by_contra hu
            exact hex ⟨i, s, hs, Bool.eq_false_iff.mpr hu⟩)
          cases hres
      · intro hset
        obtain ⟨st', c', i, n, hfound, hf⟩ :=
          findBestCacheSlot_of_settles h shiftFails hset
        rw [hfound]
        exact hok hf

/-- Two slots over an empty cache, both in use. -/
def bothInUse : InputCache Causal where
  numCtx := 3
  slots := [{ id := 0, inUse := true }, { id := 1, inUse := true }]
  multiUserCache := true
  cache := some sixCells

theorem sixCells_holds (rows : Nat → List (Int × Nat)) (seq : Int) :
    Holds sixCells rows seq [] := by
  have hempty : ∀ j, (cellAt sixCells.cells j).sequences = [] := by
    intro j
    show (cellAt (List.replicate 6 {}) j).sequences = []
    rw [cellAt_replicate]
  refine ⟨?_, ?_, ?_⟩
  · intro p hp
    cases hp
  · intro j hj
    rw [hempty j] at hj
    cases hj
  · intro i j hi
    rw [hempty i] at hi
    cases hi

theorem bothInUse_consistent (rows : Nat → List (Int × Nat)) :
    Consistent bothInUse sixCells rows := by
  have hslot : ∀ (i : Nat) s, bothInUse.slots[i]? = some s → s.id = i ∧ s.inputs = [] := by
    intro i s hs
    match i with
    | 0 =>
        cases hs
        exact ⟨rfl, rfl⟩
    | 1 =>
        cases hs
        exact ⟨rfl, rfl⟩
    | i + 2 => cases hs
  refine ⟨rfl, rfl, fun i s hs => (hslot i s hs).1, fun i s hs => ?_, fun i s hs => ?_⟩
  · rw [(hslot i s hs).2]
    decide
  · rw [(hslot i s hs).2]
    exact sixCells_holds rows i

/-- With the policy for one user a third request gets an error there. -/
theorem loadCacheSlot_iff_bothInUse :
    LoadsPrefix { bothInUse with multiUserCache := false } sixCells (fun _ => []) [⟨1, 0, 0⟩]
      (loadCacheSlot (causalOps false) { bothInUse with multiUserCache := false }
        [⟨1, 0, 0⟩] true 1 2) :=
  (@loadCacheSlot_iff { bothInUse with multiUserCache := false } sixCells _
    (have h := bothInUse_consistent (fun _ => []); ⟨h.cache, h.plain, h.ids, h.size, h.holds⟩)
    _ (by decide) true 1 2 false).mpr (fun h => by cases h)

/-- With the policy for several users it panics. -/
theorem loadCacheSlot_panics :
    ¬ ∀ (st : InputCache Causal) (c : Causal) (rows : Nat → List (Int × Nat))
        (prompt : List Input) (cachePrompt : Bool) (nowSearch now : Int),
      Consistent st c rows → prompt ≠ [] →
      LoadsPrefix st c rows prompt
        (loadCacheSlot (causalOps false) st prompt cachePrompt nowSearch now) := by
  intro h
  have hload := h bothInUse sixCells (fun _ => []) [⟨1, 0, 0⟩] true 1 2
    (bothInUse_consistent _) (by decide)
  obtain ⟨⟨e, hres⟩, _⟩ := hload.full (fun i s hs => by
    match i with
    | 0 =>
        cases hs
        rfl
    | 1 =>
        cases hs
        rfl
    | i + 2 => cases hs)
  cases hres

end Ollama.Runner
