import Ollama.Lib.FirstMax
import Ollama.LlamaRunner.Memory

/-!
# The input cache of the llama.cpp runner: model of `runner/llamarunner/cache.go`

Slot `i` has the sequence id `i`.
-/

namespace Ollama.LlamaRunner

open Lib List FirstMax

/-! ## §1  State -/

/-- `InputCacheSlot`. Times are integers on the clock of `time.Now`. -/
structure InputCacheSlot where
  inputs : List Input := []
  inUse : Bool := false
  lastUsed : Int := 0
deriving DecidableEq, Repr

/-- What is fixed when the model is loaded. `size` is the number of cells of a
stream, `canShift` what `KvCacheCanShift` returns. -/
structure Params where
  numCtx : Nat
  batchSize : Nat
  nEmbd : Nat
  size : Nat
  image : Bool
  multiUserCache : Bool
  canShift : Bool
  window : Window
  /-- `NewInputCache` refuses anything less. -/
  numCtx_pos : 0 < numCtx
  nEmbd_pos : 0 < nEmbd

/-- How a call ends; `abort` is a failed assertion of llama.cpp, which ends the
process. -/
inductive Outcome (α : Type) where
  | ok (a : α)
  | err
  | panic
  | abort
deriving DecidableEq, Repr

/-! ## §2  `findLongestCacheSlot` and `findBestCacheSlot` -/

def countCommonPrefix : List Input → List Input → Nat
  | a :: as, b :: bs => if a ≠ b then 0 else countCommonPrefix as bs + 1
  | _, _ => 0

/-- What a search returns: the slot to use, the slot its inputs come from, and
how many. -/
structure Choice where
  dst : Nat
  src : Nat
  numPast : Int
deriving DecidableEq, Repr

def longestStep (prompt : List Input) (best : Int × Option Nat)
    (p : InputCacheSlot × Nat) : Int × Option Nat :=
  if p.1.inUse then best
  else
    let count : Int := countCommonPrefix p.1.inputs prompt
    if best.1 < count then (count, some p.2) else best

def findLongestCacheSlot (slots : List InputCacheSlot) (prompt : List Input) : Outcome Choice :=
  let (longest, longestSlot) := slots.zipIdx.foldl (longestStep prompt) (-1, none)
  match longestSlot with
  | none => .err
  | some i => .ok { dst := i, src := i, numPast := longest }

/-- The variables of the loop of `findBestCacheSlot`. -/
structure BestSlots where
  oldest : Int
  oldestSlot : Option Nat := none
  longest : Int := -1
  longestSlot : Option Nat := none

def bestStep (prompt : List Input) (b : BestSlots) (p : InputCacheSlot × Nat) : BestSlots :=
  let count : Int := countCommonPrefix p.1.inputs prompt
  let b := if b.longest < count then { b with longest := count, longestSlot := some p.2 } else b
  if p.1.lastUsed < b.oldest ∧ !p.1.inUse then
    { b with oldest := p.1.lastUsed, oldestSlot := some p.2 }
  else b

/-- The search of `findBestCacheSlot`; `fork` is its last step. A nil slot is
dereferenced where `longestSlot.Inputs` and `oldestSlot.InUse` are read. -/
def findBestCacheSlot (slots : List InputCacheSlot) (prompt : List Input) (now : Int) :
    Outcome Choice :=
  let b := slots.zipIdx.foldl (bestStep prompt) { oldest := now }
  match b.longestSlot.bind (fun i => (slots[i]?).map (i, ·)) with
  | none => .panic
  | some (i, longestSlot) =>
      if b.longest = longestSlot.inputs.length ∧ !longestSlot.inUse then
        .ok { dst := i, src := i, numPast := b.longest }
      else
        match b.oldestSlot.bind (fun k => (slots[k]?).map (k, ·)) with
        | none => .panic
        | some (k, oldestSlot) =>
            if oldestSlot.inUse then .err
            else
              .ok { dst := k, src := if 0 < b.longest ∧ i ≠ k then i else k, numPast := b.longest }

def choose (P : Params) (slots : List InputCacheSlot) (prompt : List Input) (now : Int) :
    Outcome Choice :=
  if P.multiUserCache then findBestCacheSlot slots prompt now
  else findLongestCacheSlot slots prompt

/-- The fork at the end of `findBestCacheSlot`; `none` is the failed assertion
of `seq_cp`. -/
def fork (P : Params) (slots : List InputCacheSlot) (mem : Memory) (c : Choice) :
    Option (List InputCacheSlot × Memory) :=
  if c.src = c.dst then some (slots, mem)
  else
    let slots := slots.modify c.dst fun s =>
      { s with inputs := ((slots[c.src]?.getD {}).inputs).take c.numPast.toNat }
    let mem := (seqRm mem c.dst 0 (-1) false).1
    (seqCp P.size mem c.src c.dst 0 c.numPast).map (slots, ·)

/-! ## §3  `LoadCacheSlot` -/

/-- `numPast` once the search has returned: nothing without `cachePrompt`, and
one input is left to sample. -/
def keptInputs (cachePrompt : Bool) (prompt : List Input) (numPast : Int) : Int :=
  let numPast := if cachePrompt then numPast else 0
  if numPast = prompt.length then numPast - 1 else numPast

/-- `LoadCacheSlot`; `nowSearch` and `now` are what the calls of `time.Now`
return, `refused` whether the memory refuses to forget a part of a sequence. -/
def loadCacheSlot (P : Params) (slots : List InputCacheSlot) (mem : Memory)
    (prompt : List Input) (cachePrompt refused : Bool) (nowSearch now : Int) :
    Outcome (List InputCacheSlot × Memory × Nat × List Input) :=
  match choose P slots prompt nowSearch with
  | .panic => .panic
  | .abort => .abort
  | .err => .err
  | .ok c =>
      match fork P slots mem c with
      | none => .abort
      | some (slots, mem) =>
          let numPast := keptInputs cachePrompt prompt c.numPast
          let (mem, numPast) :=
            match seqRm mem c.dst numPast (-1) refused with
            | (mem, true) => (mem, numPast)
            | (mem, false) => ((seqRm mem c.dst 0 (-1) false).1, 0)
          if numPast < 0 then .panic
          else
            let slots := slots.modify c.dst fun _ =>
              { inputs := prompt.take numPast.toNat, inUse := true, lastUsed := now }
            .ok (slots, mem, c.dst, prompt.drop numPast.toNat)

/-! ## §4  `ShiftCacheSlot` -/

def shiftDiscard (P : Params) (inputLen : Int) (numKeep : Int) : Int :=
  let targetFree := max (((P.numCtx : Int) - numKeep).tdiv 2) 1
  let currentFree := (P.numCtx : Int) - inputLen
  max (targetFree - currentFree) 0

/-- How `ShiftCacheSlot` ends: with an error, as `ErrReprocessInputs`, or
shifted. -/
inductive Shifted where
  | keepExceedsContext
  | reprocess (mem : Memory) (inputs : List Input)
  | shifted (mem : Memory) (inputs : List Input)

/-- `ShiftCacheSlot` on slot `id` with these inputs. -/
def shiftCacheSlot (P : Params) (mem : Memory) (id : Nat) (inputs : List Input) (numKeep : Nat)
    (refused : Bool) : Shifted :=
  if P.numCtx ≤ numKeep then .keepExceedsContext
  else
    let discard := (shiftDiscard P inputs.length numKeep).toNat
    if discard = 0 then .shifted mem inputs
    else
      let kept := inputs.take numKeep ++ inputs.drop (numKeep + discard)
      let (rmMem, removed) :=
        if P.canShift then seqRm mem id numKeep (numKeep + discard : Nat) refused
        else (mem, false)
      if removed then
        .shifted (seqAdd rmMem id (numKeep + discard : Nat) inputs.length (-(discard : Int))) kept
      else .reprocess (seqRm rmMem id 0 (-1) false).1 kept

/-! ## §5  What a slot holds -/

/-- The full-attention cache holds exactly these inputs in order, and the
window cache nothing else. -/
structure Holds (s : Stream) (inputs : List Input) : Prop where
  full : s.full = stored inputs
  swa : ∀ c ∈ s.swa, c ∈ stored inputs

structure SlotsHold (slots : List InputCacheSlot) (mem : Memory) : Prop where
  length : mem.length = slots.length
  holds : ∀ (i : Nat) slot, slots[i]? = some slot →
    ∃ kept, Holds (streamOf mem i) kept ∧ slot.inputs <+: kept

theorem Holds.nil : Holds {} [] := ⟨rfl, fun _ hc => by cases hc⟩

variable {mem : Memory} {id : Nat}

theorem streamOf_modify_self (h : id < mem.length)
    (f : Stream → Stream) : streamOf (mem.modify id f) id = f (streamOf mem id) := by
  unfold streamOf
  rw [getElem?_modify_eq, getElem?_eq_getElem h]
  rfl

theorem streamOf_modify_ne {id j : Nat} (h : j ≠ id) (f : Stream → Stream) :
    streamOf (mem.modify id f) j = streamOf mem j := by
  unfold streamOf
  rw [getElem?_modify_ne f mem (Ne.symm h)]

theorem streamOf_set_self (h : id < mem.length) (s : Stream) : streamOf (mem.set id s) id = s := by
  unfold streamOf
  rw [getElem?_set_self h]
  rfl

theorem streamOf_set_ne {id j : Nat} (h : j ≠ id) (s : Stream) :
    streamOf (mem.set id s) j = streamOf mem j := by
  unfold streamOf
  rw [getElem?_set_ne (Ne.symm h)]

variable {inputs : List Input}

theorem Holds.rmTail {s : Stream} (h : Holds s inputs) (n : Nat) :
    Holds { full := rmCells n (-1) s.full, swa := rmCells n (-1) s.swa } (inputs.take n) := by
  constructor
  · rw [h.full, rmCells_tail]
  · intro c hc
    have hmem := mem_filter.mp hc
    rw [← rmCells_tail]
    exact mem_filter.mpr ⟨h.swa c hmem.1, hmem.2⟩

theorem Holds.rmAll {s : Stream} (h : Holds s inputs) :
    ({ full := rmCells 0 (-1) s.full, swa := rmCells 0 (-1) s.swa } : Stream) = {} := by
  rw [rmCells_all s.full, rmCells_all s.swa]
  · exact fun c hc => (pos_of_mem_stored (h.swa c hc)).1
  · intro c hc
    rw [h.full] at hc
    exact (pos_of_mem_stored hc).1

/-! ## §6  What the calls do -/

theorem countCommonPrefix_le_right : ∀ a b : List Input, countCommonPrefix a b ≤ b.length
  | [], _ => Nat.zero_le _
  | _ :: _, [] => Nat.zero_le _
  | a :: as, b :: bs => by
    have ih := countCommonPrefix_le_right as bs
    rw [countCommonPrefix, length_cons]
    split
    · exact Nat.zero_le _
    · exact Nat.succ_le_succ ih

theorem take_countCommonPrefix : ∀ a b : List Input,
    a.take (countCommonPrefix a b) = b.take (countCommonPrefix a b)
  | [], b => by simp [countCommonPrefix]
  | _ :: _, [] => by simp [countCommonPrefix]
  | a :: as, b :: bs => by
    have ih := take_countCommonPrefix as bs
    rw [countCommonPrefix]
    by_cases h : a ≠ b
    · rw [if_pos h]
      rfl
    · rw [if_neg h, take_succ_cons, take_succ_cons, ih, Decidable.not_not.mp h]

theorem countCommonPrefix_le_left : ∀ a b : List Input, countCommonPrefix a b ≤ a.length
  | [], _ => Nat.zero_le _
  | _ :: _, [] => Nat.zero_le _
  | a :: as, b :: bs => by
    have ih := countCommonPrefix_le_left as bs
    rw [countCommonPrefix, length_cons]
    split
    · exact Nat.zero_le _
    · exact Nat.succ_le_succ ih

/-- What a search settles on: a free slot, and inputs that some slot has in
common with the prompt. -/
structure Choice.Sound (slots : List InputCacheSlot) (prompt : List Input) (c : Choice) :
    Prop where
  free : ∃ slot, slots[c.dst]? = some slot ∧ slot.inUse = false
  common : ∃ slot, slots[c.src]? = some slot ∧ 0 ≤ c.numPast ∧
    c.numPast ≤ countCommonPrefix slot.inputs prompt

def freeKey (prompt : List Input) (s : InputCacheSlot) : Option Int :=
  if s.inUse then none else some (countCommonPrefix s.inputs prompt)

def matchKey (prompt : List Input) (s : InputCacheSlot) : Option Int :=
  some (countCommonPrefix s.inputs prompt)

def ageKey (s : InputCacheSlot) : Option Int :=
  if s.inUse then none else some (-s.lastUsed)

theorem longestStep_eq (prompt : List Input) : longestStep prompt = step (freeKey prompt) := by
  funext best p
  unfold longestStep step freeKey
  by_cases h : p.1.inUse = true
  · rw [if_pos h, if_pos h]
  · rw [if_neg h, if_neg h]

theorem free_of_key {key : Int} {s : InputCacheSlot} {k : Option Int}
    (h : (if s.inUse then none else k) = some key) : s.inUse = false ∧ k = some key := by
  cases huse : s.inUse with
  | true =>
    rw [huse] at h
    cases h
  | false =>
    rw [huse] at h
    exact ⟨rfl, h⟩

variable {slots : List InputCacheSlot} {prompt : List Input} {c : Choice}

theorem findLongestCacheSlot_sound (h : findLongestCacheSlot slots prompt = .ok c) :
    c.Sound slots prompt ∧ c.src = c.dst := by
  have hscan := scan_isFirstMax (freeKey prompt) (-1) slots
  unfold findLongestCacheSlot at h
  rw [longestStep_eq] at h
  change (match (scan (freeKey prompt) (-1) slots).2 with
    | none => _
    | some i => _) = _ at h
  split at h
  · cases h
  rename_i i hi
  injection h with h
  subst h
  obtain ⟨-, ⟨slot, hslot, hkey⟩, -⟩ := hscan.some i hi
  obtain ⟨hfree, hcount⟩ := free_of_key hkey
  injection hcount with hcount
  refine ⟨⟨⟨slot, hslot, hfree⟩, ⟨slot, hslot, ?_, Int.le_of_eq hcount.symm⟩⟩, rfl⟩
  show 0 ≤ (scan (freeKey prompt) (-1) slots).1
  rw [← hcount]
  exact Int.natCast_nonneg _

/-- One element of the loop of `findBestCacheSlot` is one of each search. -/
theorem bestStep_eq (prompt : List Input) (m a : Int × Option Nat) (p : InputCacheSlot × Nat) :
    bestStep prompt { oldest := -a.1, oldestSlot := a.2, longest := m.1, longestSlot := m.2 } p =
      { oldest := -(step ageKey a p).1
        oldestSlot := (step ageKey a p).2
        longest := (step (matchKey prompt) m p).1
        longestSlot := (step (matchKey prompt) m p).2 } := by
  have hage : p.1.lastUsed < -a.1 ↔ a.1 < -p.1.lastUsed := by omega
  unfold bestStep step matchKey ageKey
  by_cases hm : m.1 < (countCommonPrefix p.1.inputs prompt : Int) <;>
    by_cases hu : p.1.inUse = true <;>
    by_cases ha : a.1 < -p.1.lastUsed <;>
    simp [hm, hu, ha, hage]

/-- The loop of `findBestCacheSlot` runs two searches at once. -/
theorem foldl_bestStep (prompt : List Input) (now : Int) (slots : List InputCacheSlot) :
    slots.zipIdx.foldl (bestStep prompt) { oldest := now } =
      { oldest := -(scan ageKey (-now) slots).1
        oldestSlot := (scan ageKey (-now) slots).2
        longest := (scan (matchKey prompt) (-1) slots).1
        longestSlot := (scan (matchKey prompt) (-1) slots).2 } := by
  induction slots using List.reverseRecOn with
  | nil => simp [scan]
  | append_singleton slots s ih =>
    rw [zipIdx_append, foldl_append, ih, scan_snoc, scan_snoc,
      zipIdx_cons, zipIdx_nil, foldl_cons, foldl_nil, Nat.zero_add]
    exact bestStep_eq prompt _ _ _

/-- The first slot with the longest common prefix, of `n` inputs. -/
structure LongestSlot (slots : List InputCacheSlot) (prompt : List Input) (i n : Nat) :
    Prop where
  found : ∃ slot, slots[i]? = some slot ∧ countCommonPrefix slot.inputs prompt = n
  longest : ∀ (j : Nat) slot, slots[j]? = some slot → countCommonPrefix slot.inputs prompt ≤ n
  first : ∀ j < i, ∀ slot, slots[j]? = some slot → countCommonPrefix slot.inputs prompt < n

structure OldestSlot (slots : List InputCacheSlot) (k : Nat) : Prop where
  found : ∃ slot, slots[k]? = some slot ∧ slot.inUse = false ∧
    (∀ (j : Nat) other, slots[j]? = some other → other.inUse = false →
      slot.lastUsed ≤ other.lastUsed) ∧
    ∀ j < k, ∀ other, slots[j]? = some other → other.inUse = false → slot.lastUsed < other.lastUsed

/-- What the search of `findBestCacheSlot` found when it settles on a fork: the
slot to copy from is not itself handed out. -/
structure Forks (slots : List InputCacheSlot) (prompt : List Input) (i k n : Nat) : Prop where
  longest : LongestSlot slots prompt i n
  oldest : OldestSlot slots k
  pos : 0 < n
  ne : i ≠ k
  taken : ∀ slot, slots[i]? = some slot → ¬ (n = slot.inputs.length ∧ slot.inUse = false)

variable {i : Nat}

theorem longestSlot_of_scan (h : (scan (matchKey prompt) (-1) slots).2 = some i) :
    ∃ n : Nat, (scan (matchKey prompt) (-1) slots).1 = (n : Int) ∧
      LongestSlot slots prompt i n := by
  obtain ⟨habove, -, hsome⟩ := scan_isFirstMax (matchKey prompt) (-1) slots
  obtain ⟨-, ⟨slot, hslot, hkey⟩, hfirst⟩ := hsome i h
  injection hkey with hkey
  refine ⟨countCommonPrefix slot.inputs prompt, hkey.symm, ⟨slot, hslot, rfl⟩, ?_, ?_⟩
  · intro j other hother
    have := habove j other _ hother rfl
    omega
  · intro j hj other hother
    have := hfirst j hj other _ hother rfl
    omega

variable {now : Int}

theorem oldestSlot_of_scan {k : Nat}
    (h : (scan ageKey (-now) slots).2 = some k) : OldestSlot slots k := by
  obtain ⟨habove, -, hsome⟩ := scan_isFirstMax ageKey (-now) slots
  obtain ⟨-, ⟨slot, hslot, hkey⟩, hfirst⟩ := hsome k h
  obtain ⟨hfree, hage⟩ := free_of_key hkey
  injection hage with hage
  have hkeyOf : ∀ other : InputCacheSlot, other.inUse = false →
      ageKey other = some (-other.lastUsed) := fun other hother => by
    unfold ageKey
    rw [hother]
    rfl
  refine ⟨slot, hslot, hfree, ?_, ?_⟩
  · intro j other hother hofree
    have := habove j other _ hother (hkeyOf other hofree)
    omega
  · intro j hj other hother hofree
    have := hfirst j hj other _ hother (hkeyOf other hofree)
    omega

theorem bind_getElem? {α : Type} {l : List α} {o : Option Nat} {a : α}
    (h : o.bind (fun i => (l[i]?).map (i, ·)) = some (i, a)) : o = some i ∧ l[i]? = some a := by
  obtain ⟨i', ho, hmap⟩ := Option.bind_eq_some_iff.mp h
  obtain ⟨a', ha, heq⟩ := Option.map_eq_some_iff.mp hmap
  injection heq with hi ha'
  subst hi ha'
  exact ⟨ho, ha⟩

/-- The search settles on a free slot, and copies from another one only in a
fork. -/
theorem findBestCacheSlot_sound (h : findBestCacheSlot slots prompt now = .ok c) :
    c.Sound slots prompt ∧
      (c.src = c.dst ∨ ∃ n : Nat, c.numPast = n ∧ Forks slots prompt c.src c.dst n) := by
  unfold findBestCacheSlot at h
  rw [foldl_bestStep] at h
  dsimp only at h
  split at h
  · cases h
  rename_i i longestSlot hi
  obtain ⟨hscan, hslot⟩ := bind_getElem? hi
  obtain ⟨n, hn, hlongest⟩ := longestSlot_of_scan hscan
  rw [hn] at h
  have hcount : countCommonPrefix longestSlot.inputs prompt = n := by
    obtain ⟨slot, hslot', hcount⟩ := hlongest.found
    rw [hslot] at hslot'
    injection hslot' with hslot'
    rw [hslot', hcount]
  have hcommon : ∃ slot, slots[i]? = some slot ∧ (0 : Int) ≤ n ∧
      (n : Int) ≤ countCommonPrefix slot.inputs prompt :=
    ⟨longestSlot, hslot, Int.natCast_nonneg n, by omega⟩
  split at h
  · next hfull =>
    injection h with h
    subst h
    exact ⟨⟨⟨longestSlot, hslot, by simpa using hfull.2⟩, hcommon⟩, Or.inl rfl⟩
  rename_i hnotfull
  split at h
  · cases h
  rename_i k oldestSlot hk
  obtain ⟨hage, hold⟩ := bind_getElem? hk
  split at h
  · cases h
  rename_i hfree
  injection h with h
  subst h
  split
  · next hfork =>
    refine ⟨⟨⟨oldestSlot, hold, by simpa using hfree⟩, hcommon⟩, Or.inr ⟨n, rfl, hlongest,
      oldestSlot_of_scan hage, by omega, hfork.2, ?_⟩⟩
    intro slot hslot' ⟨hlen, huse⟩
    rw [hslot] at hslot'
    injection hslot' with hslot'
    subst hslot'
    exact hnotfull ⟨by omega, by simpa using huse⟩
  · next hsame =>
    refine ⟨⟨⟨oldestSlot, hold, by simpa using hfree⟩, oldestSlot, hold,
      Int.natCast_nonneg n, ?_⟩, Or.inl rfl⟩
    by_cases hpos : (0 : Int) < n
    · have hik : i = k := by
        by_contra hne
        exact hsame ⟨hpos, hne⟩
      subst hik
      rw [hslot] at hold
      injection hold with hold
      exact Int.le_of_eq (by rw [← hold, hcount])
    · show (n : Int) ≤ countCommonPrefix oldestSlot.inputs prompt
      omega

theorem modify_others {i j : Nat} (h : j ≠ i)
    (f : InputCacheSlot → InputCacheSlot) : (slots.modify i f)[j]? = slots[j]? :=
  getElem?_modify_ne f slots (Ne.symm h)

variable {P : Params}

theorem choose_sound (h : choose P slots prompt now = .ok c) :
    c.Sound slots prompt ∧ (c.src = c.dst ∨
      (P.multiUserCache = true ∧ ∃ n : Nat, c.numPast = n ∧ Forks slots prompt c.src c.dst n)) := by
  unfold choose at h
  split at h
  · next hmulti =>
    obtain ⟨hsound, hfork⟩ := findBestCacheSlot_sound h
    exact ⟨hsound, hfork.imp_right fun hfork => ⟨hmulti, hfork⟩⟩
  · obtain ⟨hsound, hsame⟩ := findLongestCacheSlot_sound h
    exact ⟨hsound, Or.inl hsame⟩

theorem seqRm_length (mem : Memory) (id : Nat) (p0 p1 : Int) (refused : Bool) :
    (seqRm mem id p0 p1 refused).1.length = mem.length := by
  unfold seqRm
  split
  · rfl
  · exact length_modify ..

theorem seqRm_others {id j : Nat} (h : j ≠ id) (p0 p1 : Int) (refused : Bool) :
    streamOf (seqRm mem id p0 p1 refused).1 j = streamOf mem j := by
  unfold seqRm
  split
  · rfl
  · exact streamOf_modify_ne h _

variable {refused : Bool}

theorem seqRm_stream (hid : id < mem.length) {p0 p1 : Int}
    (h : (seqRm mem id p0 p1 refused).2 = true) :
    streamOf (seqRm mem id p0 p1 refused).1 id =
      { full := rmCells p0 p1 (streamOf mem id).full,
        swa := rmCells p0 p1 (streamOf mem id).swa } := by
  unfold seqRm at h ⊢
  split at h
  · cases h
  · next hc =>
    rw [if_neg hc]
    exact streamOf_modify_self hid _

theorem seqRm_refused {p0 p1 : Int}
    (h : (seqRm mem id p0 p1 refused).2 = false) : (seqRm mem id p0 p1 refused).1 = mem := by
  unfold seqRm at h ⊢
  split at h
  · next hc => rw [if_pos hc]
  · cases h

theorem seqRm_all (hid : id < mem.length) (h : Holds (streamOf mem id) inputs) :
    streamOf (seqRm mem id 0 (-1) false).1 id = {} := by
  rw [seqRm_stream hid rfl]
  exact h.rmAll

/-- **What a fork does.** The slot that is handed out holds the inputs that the
source has in common with the prompt, and more of the source's; the window
cache is the source's. -/
theorem fork_spec {slots slots' : List InputCacheSlot} {mem mem' : Memory}
    (hs : SlotsHold slots mem) (hc : c.Sound slots prompt)
    (h : fork P slots mem c = some (slots', mem')) :
    (∃ kept, Holds (streamOf mem' c.dst) kept ∧ c.numPast.toNat ≤ kept.length ∧
      kept.take c.numPast.toNat = prompt.take c.numPast.toNat) ∧
    (streamOf mem' c.dst).swa = (streamOf mem c.src).swa ∧
    slots'.length = slots.length ∧ mem'.length = mem.length ∧
    (∃ slot, slots'[c.dst]? = some slot ∧ slot.inUse = false) ∧
    ∀ j, j ≠ c.dst → slots'[j]? = slots[j]? ∧ streamOf mem' j = streamOf mem j := by
  obtain ⟨⟨free, hfree, huse⟩, ⟨slot, hslot, hnonneg, hcommon⟩⟩ := hc
  obtain ⟨kept, hholds, hprefix⟩ := hs.holds c.src slot hslot
  have hle : c.numPast.toNat ≤ countCommonPrefix slot.inputs prompt := by omega
  have hleft := countCommonPrefix_le_left slot.inputs prompt
  have hkept : c.numPast.toNat ≤ kept.length :=
    Nat.le_trans hle (Nat.le_trans hleft hprefix.length_le)
  have htake : kept.take c.numPast.toNat = prompt.take c.numPast.toNat := by
    have hmin : min c.numPast.toNat (countCommonPrefix slot.inputs prompt) = c.numPast.toNat :=
      Nat.min_eq_left hle
    have hslotTake : kept.take c.numPast.toNat = slot.inputs.take c.numPast.toNat := by
      obtain ⟨more, rfl⟩ := hprefix
      rw [take_append_of_le_length (Nat.le_trans hle hleft)]
    rw [hslotTake, ← hmin, ← take_take, ← take_take, take_countCommonPrefix]
  unfold fork at h
  split at h
  · next hsame =>
    injection h with h
    injection h with h₁ h₂
    subst h₁ h₂
    rw [hsame] at hholds
    exact ⟨⟨kept, hholds, hkept, htake⟩, by rw [hsame], rfl, rfl, ⟨free, hfree, huse⟩,
      fun j _ => ⟨rfl, rfl⟩⟩
  · next hne =>
    have hdst : c.dst < mem.length := by
      rw [hs.length]
      exact (List.getElem?_eq_some_iff.mp hfree).1
    obtain ⟨mem₁, hcp, heq⟩ := Option.map_eq_some_iff.mp h
    injection heq with h₁ h₂
    subst h₁ h₂
    unfold seqCp at hcp
    rw [if_neg hne] at hcp
    split at hcp
    · cases hcp
    injection hcp with hcp
    subst hcp
    have hsrc : streamOf (seqRm mem c.dst 0 (-1) false).1 c.src = streamOf mem c.src :=
      seqRm_others hne 0 (-1) false
    have hself : streamOf ((seqRm mem c.dst 0 (-1) false).1.set c.dst
        (streamOf (seqRm mem c.dst 0 (-1) false).1 c.src)) c.dst = streamOf mem c.src := by
      rw [streamOf_set_self (by rw [seqRm_length]; exact hdst), hsrc]
    refine ⟨⟨kept, by rw [hself]; exact hholds, hkept, htake⟩, by rw [hself],
      length_modify .., by rw [length_set, seqRm_length], ?_, ?_⟩
    · rw [getElem?_modify_eq, hfree]
      exact ⟨_, rfl, huse⟩
    · intro j hj
      exact ⟨modify_others hj _, by rw [streamOf_set_ne hj, seqRm_others hj]⟩

/-- What `LoadCacheSlot` hands out: slot `i`, which was free, with the first
`n` inputs of the prompt stored and the others to be processed. Its window
cache is what is left of the one the inputs come from. -/
structure Loads (slots : List InputCacheSlot) (mem : Memory) (prompt : List Input)
    (src : Nat) (numPast : Int) (slots' : List InputCacheSlot) (mem' : Memory) (i n : Nat) :
    Prop where
  free : ∃ slot, slots[i]? = some slot ∧ slot.inUse = false
  lt : n < prompt.length
  slot : ∃ slot, slots'[i]? = some slot ∧ slot.inputs = prompt.take n ∧ slot.inUse = true
  holds : Holds (streamOf mem' i) (prompt.take n)
  swa : n = 0 ∨ ((n : Int) = numPast ∧
    (streamOf mem' i).swa = rmCells n (-1) (streamOf mem src).swa)
  length : slots'.length = slots.length ∧ mem'.length = mem.length
  others : ∀ j, j ≠ i → slots'[j]? = slots[j]? ∧ streamOf mem' j = streamOf mem j

theorem keptInputs_bounds (cachePrompt : Bool) (hne : prompt ≠ [])
    {numPast : Int} (h0 : 0 ≤ numPast) (hle : numPast ≤ prompt.length) :
    0 ≤ keptInputs cachePrompt prompt numPast ∧ keptInputs cachePrompt prompt numPast ≤ numPast ∧
      keptInputs cachePrompt prompt numPast < prompt.length := by
  have hpos : 0 < prompt.length := length_pos_iff.mpr hne
  cases cachePrompt with
  | true =>
    have hdef : keptInputs true prompt numPast =
      if numPast = prompt.length then numPast - 1 else numPast := rfl
    rw [hdef]
    split <;> omega
  | false =>
    have hdef : keptInputs false prompt numPast =
      if (0 : Int) = prompt.length then (0 : Int) - 1 else 0 := rfl
    rw [hdef]
    split <;> omega

/-- **`LoadCacheSlot` hands out a free slot that holds what it says.** -/
theorem loadCacheSlot_spec {slots slots' : List InputCacheSlot} {mem mem' : Memory}
    {prompt rest : List Input} {cachePrompt refused : Bool} {nowSearch now : Int}
    (hs : SlotsHold slots mem) (hne : prompt ≠ [])
    (h : loadCacheSlot P slots mem prompt cachePrompt refused nowSearch now =
      .ok (slots', mem', i, rest)) :
    ∃ c n, choose P slots prompt nowSearch = .ok c ∧ i = c.dst ∧ rest = prompt.drop n ∧
      Loads slots mem prompt c.src (keptInputs cachePrompt prompt c.numPast) slots' mem' i n := by
  unfold loadCacheSlot at h
  split at h
  · cases h
  · cases h
  · cases h
  rename_i c hchoose
  obtain ⟨hsound, -⟩ := choose_sound hchoose
  split at h
  · cases h
  rename_i slots₁ mem₁ hfork
  obtain ⟨⟨kept, hkept, hlen, htake⟩, hswa, hsl, hml, ⟨forked, hforked, -⟩, hothers⟩ :=
    fork_spec hs hsound hfork
  obtain ⟨⟨free, hfree, huse⟩, ⟨slot, hslot, hnonneg, hcommon⟩⟩ := hsound
  have hright := countCommonPrefix_le_right slot.inputs prompt
  obtain ⟨hk0, hkle, hklt⟩ :=
    keptInputs_bounds cachePrompt hne hnonneg (by omega : c.numPast ≤ prompt.length)
  obtain ⟨numPast, hnumPast⟩ : ∃ n, n = keptInputs cachePrompt prompt c.numPast := ⟨_, rfl⟩
  rw [← hnumPast] at h hk0 hkle hklt
  have hid : c.dst < mem₁.length := by
    rw [hml, hs.length]
    exact (List.getElem?_eq_some_iff.mp hfree).1
  dsimp only at h
  -- the memory either forgets what follows `numPast` or is emptied
  have hfinish : ∀ (mem₂ : Memory) (n : Int), 0 ≤ n → n < prompt.length →
      mem₂.length = mem₁.length → Holds (streamOf mem₂ c.dst) (prompt.take n.toNat) →
      (n.toNat = 0 ∨ (n = numPast ∧
        (streamOf mem₂ c.dst).swa = rmCells n.toNat (-1) (streamOf mem c.src).swa)) →
      (∀ j, j ≠ c.dst → streamOf mem₂ j = streamOf mem₁ j) →
      (if n < 0 then Outcome.panic else
        .ok (slots₁.modify c.dst fun _ =>
          { inputs := prompt.take n.toNat, inUse := true, lastUsed := now }, mem₂, c.dst,
          prompt.drop n.toNat)) = .ok (slots', mem', i, rest) →
      ∃ n, i = c.dst ∧ rest = prompt.drop n ∧
        Loads slots mem prompt c.src numPast slots' mem' i n := by
    intro mem₂ n hn hlt hlen₂ hholds hwindow hsame hres
    rw [if_neg (by omega)] at hres
    injection hres with hres
    injection hres with h₁ hres
    injection hres with h₂ hres
    injection hres with h₃ h₄
    subst h₁ h₂ h₃ h₄
    refine ⟨n.toNat, rfl, rfl, ⟨free, hfree, huse⟩, by omega, ?_, hholds, ?_, ?_, ?_⟩
    · rw [getElem?_modify_eq, hforked]
      exact ⟨_, rfl, rfl, rfl⟩
    · rcases hwindow with hz | ⟨heq, hw⟩
      · exact Or.inl hz
      · exact Or.inr ⟨by omega, hw⟩
    · exact ⟨by rw [length_modify, hsl], by rw [hlen₂, hml]⟩
    · intro j hj
      exact ⟨by rw [modify_others hj, (hothers j hj).1], by rw [hsame j hj, (hothers j hj).2]⟩
  suffices hres : ∃ n, i = c.dst ∧ rest = prompt.drop n ∧
      Loads slots mem prompt c.src numPast slots' mem' i n by
    obtain ⟨n, hi, hrest, hloads⟩ := hres
    rw [hnumPast] at hloads
    exact ⟨c, n, hchoose, hi, hrest, hloads⟩
  cases hrm : seqRm mem₁ c.dst numPast (-1) refused with
  | mk mem₂ removed =>
    have hmem₂ : (seqRm mem₁ c.dst numPast (-1) refused).1 = mem₂ := by rw [hrm]
    rw [hrm] at h
    cases removed with
    | true =>
      have hstream := seqRm_stream hid (by rw [hrm] :
        (seqRm mem₁ c.dst numPast (-1) refused).2 = true)
      rw [hmem₂] at hstream
      have hcast : numPast = ((numPast.toNat : Nat) : Int) := (Int.toNat_of_nonneg hk0).symm
      have htail := hkept.rmTail numPast.toNat
      rw [← hcast, ← hstream] at htail
      have hinputs : kept.take numPast.toNat = prompt.take numPast.toNat := by
        have hmin : min numPast.toNat c.numPast.toNat = numPast.toNat := by omega
        rw [← hmin, ← take_take, htake, take_take]
      rw [hinputs] at htail
      apply hfinish mem₂ numPast hk0 hklt (by rw [← hmem₂, seqRm_length]) htail
        (Or.inr ⟨rfl, ?_⟩) ?_ h
      · rw [hstream, ← hcast, ← hswa]
      · intro j hj
        rw [← hmem₂, seqRm_others hj]
    | false =>
      have hsame := seqRm_refused (by rw [hrm] : (seqRm mem₁ c.dst numPast (-1) refused).2 = false)
      rw [hmem₂] at hsame
      subst hsame
      have hempty := seqRm_all hid hkept
      apply hfinish (seqRm mem₂ c.dst 0 (-1) false).1 0 (Int.le_refl 0)
        (by have := length_pos_iff.mpr hne; omega) (seqRm_length ..) ?_ (Or.inl rfl) ?_ h
      · rw [hempty]
        exact Holds.nil
      · exact fun j hj => seqRm_others hj 0 (-1) false

theorem shiftDiscard_bounds {numKeep inputLen : Nat} (hkeep : numKeep < P.numCtx)
    (hfull : inputLen = P.numCtx) :
    0 < (shiftDiscard P inputLen numKeep).toNat ∧
      numKeep + (shiftDiscard P inputLen numKeep).toNat ≤ inputLen := by
  have hdef : shiftDiscard P inputLen numKeep =
      max (max (((P.numCtx : Int) - numKeep).tdiv 2) 1 - ((P.numCtx : Int) - inputLen)) 0 := rfl
  have hdiv : ((P.numCtx : Int) - numKeep).tdiv 2 ≤ (P.numCtx : Int) - numKeep := by
    rw [Int.tdiv_eq_ediv_of_nonneg (by omega)]
    omega
  constructor <;> omega

/-- What `ShiftCacheSlot` does to a full slot: it discards some inputs behind
the first `numKeep`, and either the memory has followed or it is empty. -/
theorem shiftCacheSlot_spec {id numKeep : Nat}
    (hid : id < mem.length) (hholds : Holds (streamOf mem id) inputs)
    (hkeep : numKeep < P.numCtx) (hfull : inputs.length = P.numCtx) :
    ∃ discard, 0 < discard ∧ numKeep + discard ≤ inputs.length ∧
      discard = (shiftDiscard P inputs.length numKeep).toNat ∧
      ((∃ mem', shiftCacheSlot P mem id inputs numKeep refused =
          .shifted mem' (inputs.take numKeep ++ inputs.drop (numKeep + discard)) ∧
        mem'.length = mem.length ∧ (∀ j, j ≠ id → streamOf mem' j = streamOf mem j) ∧
        P.canShift = true ∧
        streamOf mem' id =
          { full := stored (inputs.take numKeep ++ inputs.drop (numKeep + discard)),
            swa := addCells (numKeep + discard : Nat) inputs.length (-(discard : Int))
              (rmCells numKeep (numKeep + discard : Nat) (streamOf mem id).swa) }) ∨
      (∃ mem', shiftCacheSlot P mem id inputs numKeep refused =
          .reprocess mem' (inputs.take numKeep ++ inputs.drop (numKeep + discard)) ∧
        mem'.length = mem.length ∧ (∀ j, j ≠ id → streamOf mem' j = streamOf mem j) ∧
        streamOf mem' id = {})) := by
  obtain ⟨hdpos, hdle⟩ := shiftDiscard_bounds hkeep hfull
  refine ⟨(shiftDiscard P inputs.length numKeep).toNat, hdpos, hdle, rfl, ?_⟩
  unfold shiftCacheSlot
  rw [if_neg (by omega)]
  dsimp only
  generalize (shiftDiscard P inputs.length numKeep).toNat = discard at hdpos hdle ⊢
  rw [if_neg (by omega)]
  by_cases hcan : P.canShift = true
  · rw [if_pos hcan]
    cases hrm : (seqRm mem id numKeep (numKeep + discard : Nat) refused).2 with
    | true =>
      left
      refine ⟨_, rfl, ?_, ?_, hcan, ?_⟩
      · unfold seqAdd
        rw [length_modify, seqRm_length]
      · intro j hj
        unfold seqAdd
        rw [streamOf_modify_ne hj, seqRm_others hj]
      · unfold seqAdd
        rw [streamOf_modify_self (by rw [seqRm_length]; exact hid), seqRm_stream hid hrm,
          hholds.full, addCells_rmCells inputs hdpos hdle]
    | false =>
      right
      rw [seqRm_refused hrm]
      exact ⟨_, rfl, seqRm_length .., fun j hj => seqRm_others hj _ _ _, seqRm_all hid hholds⟩
  · rw [if_neg hcan]
    right
    exact ⟨_, rfl, seqRm_length .., fun j hj => seqRm_others hj _ _ _, seqRm_all hid hholds⟩

end Ollama.LlamaRunner
