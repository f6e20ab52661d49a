import Ollama.Lib.Transition
import Ollama.Model.MRope
import Ollama.Runner.InputCache

/-!
# Rotary positions in the runner: model of `runner/ollamarunner/runner.go`

Requests are tokenized by `Server.inputs` outside the lock, truncated by
`NewSequence`, loaded into cache slots and decoded in batches that mix them,
while the one `positionCache` of the model serves them all. §1 the truncation
of `NewSequence` · §2 the state · §3 the steps · §4 runs · §5 when a position
is the sequence's own.

Each input carries the layout of its own request, its number among the inputs
that `PostTokenize` returned for it, and how many inputs context shifts have
removed before it. Nothing in the steps reads these.
-/

namespace Ollama.Runner.Rotary

open List

open Lib (System Placing)
open Model (Batch Layout MRope Multimodal layout mapPosition)

/-! ## §1  `NewSequence` -/

inductive NewSequenceError where
  | noInput
  | inputTooLong
  | sameBatchWithinKeep
  | promptRemoved
deriving DecidableEq, Repr

/-- The loop that finds `promptStart`, at input number `i`. -/
def promptStartLoop (numKeep : Int) :
    Nat → Int → Int → List Model.Input → Except NewSequenceError Int
  | _, _, promptStart, [] => .ok promptStart
  | i, sameBatch, promptStart, inp :: rest =>
      let next (sameBatch promptStart : Int) : Except NewSequenceError Int :=
        if inp.sameBatch ≠ 0 then
          if (i : Int) < numKeep then .error .sameBatchWithinKeep
          else promptStartLoop numKeep (i + 1) inp.sameBatch promptStart rest
        else promptStartLoop numKeep (i + 1) sameBatch promptStart rest
      if 0 < sameBatch then
        next (sameBatch - 1) (if promptStart = i then promptStart + 1 else promptStart)
      else if promptStart = i then .ok promptStart
      else next sameBatch promptStart

/-- `NewSequence` after `inputs`: `numKeep` of the sequence, and where the rest
of the prompt starts when it is truncated. -/
def newSequence (numCtx numKeep : Int) (truncate : Bool) (inputs : List Model.Input) :
    Except NewSequenceError (Int × Option Int) :=
  if inputs.length = 0 then .error .noInput
  else
    let numKeep := if numKeep < 0 then (inputs.length : Int) else numKeep
    let numKeep := min numKeep (numCtx - 1)
    if numCtx < inputs.length then
      let discard := (inputs.length : Int) - numCtx
      if !truncate then .error .inputTooLong
      else
        match promptStartLoop numKeep 0 0 (numKeep + discard) inputs with
        | .error e => .error e
        | .ok promptStart =>
            if (inputs.length : Int) ≤ promptStart then .error .promptRemoved
            else .ok (numKeep, some promptStart)
    else .ok (numKeep, none)

/-- `newInputs`: what is kept and what follows `promptStart`. -/
def truncated {α : Type} (inputs : List α) (numKeep : Int) : Option Int → List α
  | none => inputs
  | some promptStart => inputs.take numKeep.toNat ++ inputs.drop promptStart.toNat

/-! ## §2  The state -/

structure Entry where
  input : Model.Input
  origin : Placing.Origin (Option Multimodal)
deriving DecidableEq, Repr

/-- An input in the cache. `rot` is the rotary position that its key has been
rotated by so far. -/
structure Cell where
  entry : Entry
  rot : Int
deriving DecidableEq, Repr

inductive Phase where
  | waiting
  | running (slot : Nat)
  | done
deriving DecidableEq, Repr

/-- `Sequence`: `queue` is `inputs`, `next` numbers the next generated token. -/
structure Sequence where
  phase : Phase := .waiting
  numKeep : Int
  queue : List Entry
  own : Layout
  next : Nat
  removed : Nat := 0
deriving DecidableEq, Repr

/-- The model's `positionCache`, the inputs of each cache slot (those of the
batch in flight included) and the sequences. `tokenized` is the layout that
`positionCache` was last built for. -/
structure State where
  positionCache : List Int
  tokenized : Layout
  slots : List (List Cell)
  seqs : List Sequence
deriving DecidableEq, Repr

/-- An input as `countCommonPrefix` and `ShiftDiscard` see it. -/
def Entry.cached (e : Entry) : Input :=
  { token := e.input.token, multimodalHash := e.input.multimodalHash,
    sameBatch := e.input.sameBatch }

/-- A context shift has removed `discard` inputs before this one. -/
def Entry.shifted (discard : Nat) (e : Entry) : Entry :=
  { e with origin := { e.origin with removed := e.origin.removed + discard } }

def Cell.shifted (discard : Nat) (c : Cell) : Cell :=
  { entry := c.entry.shifted discard, rot := c.rot - discard }

/-! ## §3  The steps -/

/-- The inputs that `PostTokenize` returned, each with its number. -/
def entries (inputs : List Model.Input) (own : Layout) : List Entry :=
  inputs.zipIdx.map fun p => { input := p.1, origin := ⟨own, p.2, 0⟩ }

/-- A request arrives: `inputs` runs `PostTokenize`, whose mapping replaces the
one that was there, and `NewSequence` truncates. -/
def arrive (m : MRope) (numCtx : Int) (s : State) (raw : List Model.Input) (numKeep : Int)
    (truncate : Bool) : State :=
  let out := m.postTokenize raw
  let s := { s with positionCache := out.map Prod.snd, tokenized := layout raw }
  let inputs := out.map Prod.fst
  match newSequence numCtx numKeep truncate inputs with
  | .error _ => s
  | .ok (numKeep, promptStart) =>
      { s with
        seqs := s.seqs ++
          [{ numKeep, queue := truncated (entries inputs (layout raw)) numKeep promptStart,
             own := layout raw, next := inputs.length }] }

/-- `LoadCacheSlot` gives sequence `j` the slot `dst`, with `numPast` inputs
that are in the cache of the slot `src` already (`dst` itself, or the slot it
is forked from). -/
def load (s : State) (j dst src numPast : Nat) : Option State :=
  match s.seqs[j]?, s.slots[src]?, s.slots[dst]? with
  | some q, some cached, some _ =>
      if q.phase = .waiting ∧ (∀ r ∈ s.seqs, r.phase ≠ .running dst) ∧
          numPast ≤ countCommonPrefix (cached.map (·.entry.cached)) (q.queue.map Entry.cached) ∧
          numPast < q.queue.length then
        let reused := List.zipWith (fun c e => ({ entry := e, rot := c.rot } : Cell))
          (cached.take numPast) (q.queue.take numPast)
        some { s with
          slots := s.slots.set dst reused
          seqs := s.seqs.set j { q with phase := .running dst, queue := q.queue.drop numPast } }
      else none
  | _, _, _ => none

/-- `ShiftCacheSlot` for sequence `j`. A cache that takes the removal rotates
the keys behind it, and the shift function clears the mapping; one that
refuses (`ErrReprocessInputs`) is emptied, and the inputs are queued again. -/
def shift (numCtx : Int) (s : State) (j : Nat) (refused : Bool) : Option State :=
  match s.seqs[j]? with
  | none => none
  | some q =>
      match q.phase with
      | .running slot =>
          match s.slots[slot]? with
          | none => none
          | some cells =>
              if q.numKeep < 0 ∨ numCtx ≤ q.numKeep ∨ cells.length < q.numKeep then none
              else
                let numKeep := q.numKeep.toNat
                let discard :=
                  (shiftDiscard numCtx (cells.map (·.entry.cached)) q.numKeep).toNat
                if discard = 0 then some s
                else
                  let kept := cells.take numKeep
                  let moved := (cells.drop (numKeep + discard)).map (Cell.shifted discard)
                  let queue := q.queue.map (Entry.shifted discard)
                  let q := { q with removed := q.removed + discard }
                  if refused then
                    some { s with
                      slots := s.slots.set slot []
                      seqs := s.seqs.set j
                        { q with queue := (kept ++ moved).map Cell.entry ++ queue } }
                  else
                    some { s with
                      positionCache := if moved = [] then s.positionCache else []
                      tokenized := if moved = [] then s.tokenized else []
                      slots := s.slots.set slot (kept ++ moved)
                      seqs := s.seqs.set j { q with queue } }
      | _ => none

/-- One entry of the batch that `forwardBatch` builds. -/
structure Item where
  slot : Nat
  position : Nat
  entry : Entry
deriving DecidableEq, Repr

/-- The inputs that a batch takes from sequence `j`: the first `n` of its queue,
at the positions after those in its slot. -/
def taken (s : State) (j n : Nat) : List Item :=
  match s.seqs[j]? with
  | none => []
  | some q =>
      match q.phase with
      | .running slot =>
          ((q.queue.take n).zipIdx (s.slots[slot]?.getD []).length).map fun p =>
            { slot, position := p.2, entry := p.1 }
      | _ => []

def items (s : State) (picks : List (Nat × Nat)) : List Item :=
  picks.flatMap fun p => taken s p.1 p.2

def toBatch (items : List Item) : Batch :=
  { positions := items.map Item.position
    multimodal := items.zipIdx.filterMap fun p => p.1.entry.input.multimodal.map (p.2, ·) }

/-- `Forward` over a batch: the keys are rotated by the positions that
`buildPositions` makes, and the inputs are in the cache. -/
def forward (m : MRope) (s : State) (picks : List (Nat × Nat)) : Option State :=
  if (picks.map Prod.fst).Nodup then
    let batch := items s picks
    let rows := m.buildPositions s.positionCache (toBatch batch)
    let cells := List.zipWith (fun item rot => (item.slot, ({ entry := item.entry, rot } : Cell)))
      batch (rows.head?.getD [])
    some { s with
      slots := s.slots.mapIdx fun k cs => cs ++ (cells.filter (·.1 = k)).map Prod.snd
      seqs := picks.foldl
        (fun seqs p => seqs.modify p.1 fun q => { q with queue := q.queue.drop p.2 }) s.seqs }
  else none

/-- `computeBatch`: the sampled token is the next input of sequence `j`. -/
def sample (s : State) (j : Nat) (token : Int) : Option State :=
  match s.seqs[j]? with
  | none => none
  | some q =>
      match q.phase, q.queue with
      | .running _, [] =>
          some { s with
            seqs := s.seqs.set j { q with
                queue := [{ input := { token }, origin := ⟨q.own, q.next, q.removed⟩ }]
                next := q.next + 1 } }
      | _, _ => none

/-- `removeSequence`: the slot keeps its inputs, without those that a stop
string cuts off. -/
def finish (s : State) (j keep : Nat) : Option State :=
  match s.seqs[j]? with
  | none => none
  | some q =>
      match q.phase with
      | .running slot =>
          some { s with
            slots := s.slots.set slot ((s.slots[slot]?.getD []).take keep)
            seqs := s.seqs.set j { q with phase := .done, queue := [] } }
      | _ => none

/-! ## §4  Runs -/

inductive Action where
  | arrive (raw : List Model.Input) (numKeep : Int) (truncate : Bool)
  | load (j dst src numPast : Nat)
  | shift (j : Nat) (refused : Bool)
  | forward (picks : List (Nat × Nat))
  | sample (j : Nat) (token : Int)
  | finish (j keep : Nat)

def step (m : MRope) (numCtx : Int) (s : State) : Action → Option State
  | .arrive raw numKeep truncate => some (arrive m numCtx s raw numKeep truncate)
  | .load j dst src numPast => load s j dst src numPast
  | .shift j refused => shift numCtx s j refused
  | .forward picks => forward m s picks
  | .sample j token => sample s j token
  | .finish j keep => finish s j keep

/-- After `reserveWorstCaseGraph` the mapping is that of its dummy inputs; the
cache is empty. -/
def Initial (m : MRope) (s : State) : Prop :=
  (∃ raw, s.positionCache = (m.postTokenize raw).map Prod.snd ∧ s.tokenized = layout raw) ∧
    (∀ cells ∈ s.slots, cells = []) ∧ s.seqs = []

def system (m : MRope) (numCtx : Int) : System State Action where
  init := Initial m
  step := fun s a s' => step m numCtx s a = some s'

/-! ## §5  Each input at its own position -/

/-- The rotary position of every input in the cache is the one that
`PostTokenize` assigned to it, less what context shifts have removed before
it. Positions past the inputs of the request go on by ones. -/
def Own (m : MRope) (s : State) : Prop :=
  ∀ cells ∈ s.slots, ∀ c ∈ cells, c.rot = m.placing.placeOf c.entry.origin

/-- When a step keeps positions apart. An input that a batch takes agrees with
the request that was tokenized last (with no inputs, once a shift has cleared
the mapping), and one that is reused with the one it was decoded for. -/
def Fits (m : MRope) (s : State) : Action → Prop
  | .load j _ src numPast =>
      ∀ q ∈ s.seqs[j]?, ∀ cached ∈ s.slots[src]?, ∀ k < numPast,
        ∀ c ∈ cached[k]?, ∀ e ∈ q.queue[k]?, m.placing.Agree c.entry.origin e.origin k
  | .forward picks =>
      ∀ item ∈ items s picks,
        m.placing.Agree ⟨s.tokenized, item.position, 0⟩ item.entry.origin item.position
  | _ => True

/-- `positionCache` is the mapping of the request tokenized last. -/
def Mapped (m : MRope) (s : State) : Prop :=
  s.positionCache = m.placing.places s.tokenized

section Steps

variable {m : MRope} {numCtx : Int} {s s' : State}

theorem load_some {j dst src numPast : Nat} (h : load s j dst src numPast = some s') :
    ∃ q cached, s.seqs[j]? = some q ∧ s.slots[src]? = some cached ∧
      s'.positionCache = s.positionCache ∧ s'.tokenized = s.tokenized ∧
      s'.slots = s.slots.set dst (List.zipWith (fun c e => ({ entry := e, rot := c.rot } : Cell))
          (cached.take numPast) (q.queue.take numPast)) := by
  unfold load at h
  split at h
  · next q cached _ hq hsrc _ =>
    split at h
    · injection h with h
      subst h
      exact ⟨q, cached, hq, hsrc, rfl, rfl, rfl⟩
    · cases h
  · cases h

/-- A shift leaves the slot as it is, empties it, or keeps the beginning and
rotates the rest. -/
theorem shift_some {j : Nat} {refused : Bool} (h : shift numCtx s j refused = some s') : s' = s ∨ (∃ slot, s'.slots = s.slots.set slot [] ∧ s'.positionCache = s.positionCache ∧
        s'.tokenized = s.tokenized) ∨
      ∃ slot cells keep discard, s.slots[slot]? = some cells ∧ s'.slots = s.slots.set slot
          (cells.take keep ++ (cells.drop (keep + discard)).map (Cell.shifted discard)) ∧
        ((s'.positionCache = s.positionCache ∧ s'.tokenized = s.tokenized) ∨
          (s'.positionCache = [] ∧ s'.tokenized = [])) := by
  unfold shift at h
  split at h
  · cases h
  split at h
  · next slot hphase =>
    split at h
    · cases h
    rename_i cells hcells
    dsimp only at h
    split at h
    · cases h
    split at h
    · injection h with h
      exact Or.inl h.symm
    split at h
    · injection h with h
      subst h
      exact Or.inr (Or.inl ⟨slot, rfl, rfl, rfl⟩)
    injection h with h
    subst h
    refine Or.inr (Or.inr ⟨slot, cells, _, _, hcells, rfl, ?_⟩)
    split
    · exact Or.inl ⟨rfl, rfl⟩
    · exact Or.inr ⟨rfl, rfl⟩
  · cases h

theorem sample_some {j : Nat} {token : Int} (h : sample s j token = some s') :
    s'.slots = s.slots ∧ s'.positionCache = s.positionCache ∧ s'.tokenized = s.tokenized := by
  unfold sample at h
  split at h
  · cases h
  · split at h
    · injection h with h
      subst h
      exact ⟨rfl, rfl, rfl⟩
    · cases h

theorem finish_some {j keep : Nat} (h : finish s j keep = some s') :
    (∃ slot, s'.slots = s.slots.set slot ((s.slots[slot]?.getD []).take keep)) ∧
      s'.positionCache = s.positionCache ∧ s'.tokenized = s.tokenized := by
  unfold finish at h
  split at h
  · cases h
  split at h
  · next slot _ =>
    injection h with h
    subst h
    exact ⟨⟨slot, rfl⟩, rfl, rfl⟩
  · cases h

theorem forward_some {picks : List (Nat × Nat)} (h : forward m s picks = some s') :
    s'.positionCache = s.positionCache ∧ s'.tokenized = s.tokenized ∧
      s'.slots = s.slots.mapIdx fun k cs => cs ++
        ((List.zipWith (fun item rot => (item.slot, ({ entry := item.entry, rot } : Cell)))
          (items s picks)
          ((items s picks).map fun item => mapPosition s.positionCache item.position)).filter
            (·.1 = k)).map Prod.snd := by
  unfold forward at h
  split at h
  · injection h with h
    subst h
    refine ⟨rfl, rfl, ?_⟩
    rw [m.buildPositions_head, Option.getD_some, show (toBatch (items s picks)).positions =
      (items s picks).map Item.position from rfl, map_map]
    rfl
  · cases h

theorem arrive_fields (raw : List Model.Input) (numKeep : Int) (truncate : Bool) :
    (arrive m numCtx s raw numKeep truncate).positionCache = (m.postTokenize raw).map Prod.snd ∧
      (arrive m numCtx s raw numKeep truncate).tokenized = layout raw ∧
      (arrive m numCtx s raw numKeep truncate).slots = s.slots := by
  unfold arrive
  dsimp only
  split <;> exact ⟨rfl, rfl, rfl⟩

/-- Every step keeps the mapping that of the request tokenized last. -/
theorem Mapped.step {a : Action} (hs : Mapped m s) (h : step m numCtx s a = some s') :
    Mapped m s' := by
  cases a with
  | arrive raw numKeep truncate =>
    injection h with h
    subst h
    show (arrive m numCtx s raw numKeep truncate).positionCache = _
    rw [(arrive_fields raw numKeep truncate).1, (arrive_fields raw numKeep truncate).2.1,
      m.postTokenize_snd]
  | load j dst src numPast =>
    obtain ⟨-, -, -, -, hcache, htok, -⟩ := load_some h
    unfold Mapped
    rw [hcache, htok, hs]
  | shift j refused =>
    rcases shift_some h with rfl | ⟨-, -, hcache, htok⟩ | ⟨-, -, -, -, -, -, hmap⟩
    · exact hs
    · unfold Mapped
      rw [hcache, htok, hs]
    · unfold Mapped
      rcases hmap with ⟨hcache, htok⟩ | ⟨hcache, htok⟩
      · rw [hcache, htok, hs]
      · rw [hcache, htok, m.places_nil]
  | forward picks =>
    obtain ⟨hcache, htok, -⟩ := forward_some h
    unfold Mapped
    rw [hcache, htok, hs]
  | sample j token =>
    obtain ⟨-, hcache, htok⟩ := sample_some h
    unfold Mapped
    rw [hcache, htok, hs]
  | finish j keep =>
    obtain ⟨-, hcache, htok⟩ := finish_some h
    unfold Mapped
    rw [hcache, htok, hs]

theorem placeOf_shifted (discard : Nat) {c : Cell} (h : c.rot = m.placing.placeOf c.entry.origin) :
    (c.shifted discard).rot = m.placing.placeOf (c.shifted discard).entry.origin := by
  show c.rot - discard = m.placing.place c.entry.origin.own c.entry.origin.index -
    ((c.entry.origin.removed + discard : Nat) : Int)
  rw [h]
  unfold Placing.placeOf
  push_cast
  omega

theorem Own.set (hs : Own m s) {slot : Nat} {cells : List Cell}
    (hslots : s'.slots = s.slots.set slot cells)
    (hcells : ∀ c ∈ cells, c.rot = m.placing.placeOf c.entry.origin) : Own m s' := by
  intro cs hcs c hc
  rw [hslots] at hcs
  rcases mem_or_eq_of_mem_set hcs with hcs | rfl
  · exact hs cs hcs c hc
  · exact hcells c hc

theorem Own.load {j dst src numPast : Nat} (hs : Own m s)
    (hfits : Fits m s (.load j dst src numPast)) (h : load s j dst src numPast = some s') :
    Own m s' := by
  obtain ⟨q, cached, hq, hsrc, -, -, hslots⟩ := load_some h
  apply hs.set hslots
  intro c hc
  obtain ⟨k, hk⟩ := mem_iff_getElem?.mp hc
  rw [getElem?_zipWith_eq_some] at hk
  obtain ⟨old, e, hold, he, rfl⟩ := hk
  have hlt : k < numPast := by
    by_contra hle
    rw [getElem?_take, if_neg hle] at hold
    cases hold
  rw [getElem?_take_of_lt hlt] at hold he
  have hagree := hfits q (by simp [hq]) cached (by simp [hsrc]) k hlt old hold e he
  have hmem : old ∈ cached := mem_of_getElem? hold
  show old.rot = _
  rw [hs cached (mem_of_getElem? hsrc) old hmem]
  exact hagree.placeOf_eq m.places_nil

theorem Own.shift {j : Nat} {refused : Bool} (hs : Own m s)
    (h : shift numCtx s j refused = some s') : Own m s' := by
  rcases shift_some h with rfl | ⟨slot, hslots, -, -⟩ | ⟨slot, cells, keep, discard, hcells,
    hslots, -⟩
  · exact hs
  · apply hs.set hslots
    intro c hc
    cases hc
  have hold := hs cells (mem_of_getElem? hcells)
  apply hs.set hslots
  intro c hc
  rcases mem_append.mp hc with hc | hc
  · exact hold c (mem_of_mem_take hc)
  · obtain ⟨old, hdrop, rfl⟩ := mem_map.mp hc
    exact placeOf_shifted discard (hold old (mem_of_mem_drop hdrop))

theorem Own.forward {picks : List (Nat × Nat)} (hmap : Mapped m s) (hs : Own m s)
    (hfits : Fits m s (.forward picks)) (h : forward m s picks = some s') : Own m s' := by
  obtain ⟨-, -, hslots⟩ := forward_some h
  intro cs hcs c hc
  rw [hslots] at hcs
  obtain ⟨k, hk, rfl⟩ := mem_mapIdx.mp hcs
  rcases mem_append.mp hc with hc | hc
  · exact hs _ (getElem_mem hk) c hc
  obtain ⟨⟨slot, c'⟩, hp, rfl⟩ := mem_map.mp hc
  obtain ⟨i, hi⟩ := mem_iff_getElem?.mp (mem_filter.mp hp).1
  rw [getElem?_zipWith_eq_some] at hi
  obtain ⟨item, rot, hitem, hrot, heq⟩ := hi
  rw [getElem?_map, hitem] at hrot
  injection hrot with hrot
  injection heq with _ heq
  subst heq
  -- the mapping at the input's position is the place of the request tokenized last
  have hagree := hfits item (mem_of_getElem? hitem)
  show rot = m.placing.placeOf item.entry.origin
  rw [← hagree.placeOf_eq m.places_nil, ← hrot]
  show mapPosition s.positionCache item.position = _
  rw [Model.mapPosition_eq, hmap]
  exact (Int.sub_zero _).symm

end Steps

/-- Every step of a run whose steps fit keeps each input at its own position. -/
theorem Own.step {m : MRope} {numCtx : Int} {s s' : State} {a : Action} (hmap : Mapped m s)
    (hs : Own m s) (hfits : Fits m s a) (h : step m numCtx s a = some s') : Own m s' := by
  cases a with
  | arrive raw numKeep truncate =>
    injection h with h
    subst h
    intro cells hcells
    rw [(arrive_fields raw numKeep truncate).2.2] at hcells
    exact hs cells hcells
  | load j dst src numPast => exact hs.load hfits h
  | shift j refused => exact hs.shift h
  | forward picks => exact hs.forward hmap hfits h
  | sample j token =>
    intro cells hcells
    rw [(sample_some h).1] at hcells
    exact hs cells hcells
  | finish j keep =>
    obtain ⟨⟨slot, hslots⟩, -, -⟩ := finish_some h
    apply hs.set hslots
    intro c hc
    replace hc := mem_of_mem_take hc
    cases hslot : s.slots[slot]? with
    | none =>
      rw [hslot] at hc
      cases hc
    | some cells =>
      rw [hslot] at hc
      exact hs cells (mem_of_getElem? hslot) c hc

theorem initial_mapped {m : MRope} {s : State} (h : Initial m s) : Mapped m s := by
  obtain ⟨⟨raw, hcache, htok⟩, -, -⟩ := h
  unfold Mapped
  rw [hcache, htok, m.postTokenize_snd]

theorem initial_own {m : MRope} {s : State} (h : Initial m s) : Own m s := by
  intro cells hcells c hc
  rw [h.2.1 cells hcells] at hc
  cases hc

/-- **Rotary positions of one request do not come from another**, in a run
whose steps fit: whatever is tokenized, decoded and shifted in between, each
input in the cache has the position that its own request gave it. -/
theorem rotary_own (m : MRope) (numCtx : Int) (s : State)
    (h : ((system m numCtx).guard (Fits m)).Reachable s) : Own m s := by
  have hmapped : ∀ s, ((system m numCtx).guard (Fits m)).Reachable s → Mapped m s := fun s hs =>
    hs.invariant (fun _ => initial_mapped) fun _ _ _ hmap hstep => hmap.step hstep.2
  exact h.invariant_of hmapped (fun _ => initial_own)
    fun _ _ _ hmap hown hstep => hown.step hmap hstep.1 hstep.2

def runAll (m : MRope) (numCtx : Int) : State → List Action → Option State
  | s, [] => some s
  | s, a :: as => (step m numCtx s a).bind (runAll m numCtx · as)

theorem reachable_of_runAll {m : MRope} {numCtx : Int} {as : List Action} {s s' : State}
    (hs : (system m numCtx).Reachable s) (h : runAll m numCtx s as = some s') :
    (system m numCtx).Reachable s' := by
  induction as generalizing s with
  | nil =>
    injection h with h
    exact h ▸ hs
  | cons a as ih =>
    obtain ⟨t, hstep, hrest⟩ := Option.bind_eq_some_iff.mp h
    exact ih (.step hs hstep) hrest

theorem agree_own (m : MRope) (L : Layout) (p : Nat) : m.placing.Agree ⟨L, p, 0⟩ ⟨L, p, 0⟩ p :=
  ⟨rfl, rfl, Or.inl ⟨rfl, rfl, .refl _ L p⟩⟩

/-- A small `qwen35` -/
def smallQwen : MRope :=
  .qwen35
    { imageToken := 3, visionStart := 1, visionEnd := 2, spatialMergeSize := 2,
      mropeSections := [1], vision := true, mrope := by decide }

def imageThenText : List Model.Input :=
  [{ multimodal := some ⟨4, ⟨4, 4⟩⟩, multimodalHash := 9 }, { token := 7 }]

def start : State :=
  { positionCache := [], tokenized := [], slots := [[], []], seqs := [] }

theorem start_initial (m : MRope) : Initial m start := by
  refine ⟨⟨[], ?_, rfl⟩, by decide, rfl⟩
  rw [m.postTokenize_snd]
  exact m.places_nil.symm

def imageRun : List Action :=
  [.arrive imageThenText 0 true, .load 0 0 0 0, .forward [(0, 7)], .arrive [{ token := 5 }] 0 true]

def imageState (n : Nat) : State := (runAll smallQwen 16 start (imageRun.take n)).getD start

theorem rotary_own_imageThenText :
    (((imageState 4).slots[0]?.getD []).map Cell.rot = [0, 1, 1, 1, 1, 3, 4]) ∧
      Own smallQwen (imageState 4) := by
  refine ⟨by decide, rotary_own smallQwen 16 (imageState 4) ?_⟩
  have hinit : ((system smallQwen 16).guard (Fits smallQwen)).Reachable start :=
    .init (start_initial smallQwen)
  have harrive : ((system smallQwen 16).guard (Fits smallQwen)).Reachable (imageState 1) :=
    .step hinit ⟨show Fits smallQwen start (.arrive imageThenText 0 true) from trivial, rfl⟩
  have hload : ((system smallQwen 16).guard (Fits smallQwen)).Reachable (imageState 2) :=
    .step harrive ⟨show Fits smallQwen (imageState 1) (.load 0 0 0 0) from
        fun _ _ _ _ k hk => absurd hk (Nat.not_lt_zero k), rfl⟩
  have hfits : Fits smallQwen (imageState 2) (.forward [(0, 7)]) := by
    have hown : ∀ item ∈ items (imageState 2) [(0, 7)],
        item.entry.origin = ⟨(imageState 2).tokenized, item.position, 0⟩ := by decide
    intro item hitem
    rw [hown item hitem]
    exact agree_own ..
  have hforward : ((system smallQwen 16).guard (Fits smallQwen)).Reachable (imageState 3) :=
    .step hload ⟨hfits, rfl⟩
  exact .step hforward
    ⟨show Fits smallQwen (imageState 3) (.arrive [{ token := 5 }] 0 true) from trivial, rfl⟩

/-- A text request that arrives while one with an image waits to be decoded
takes its mapping away: the inputs of the image are numbered like text. -/
def mixedRun : List Action :=
  [.arrive imageThenText 0 true, .load 0 0 0 0, .arrive [{ token := 5 }] 0 true, .forward [(0, 7)]]

theorem rotary_not_own : ∃ s, (system smallQwen 16).Reachable s ∧ ¬ Own smallQwen s := by
  have hrun : runAll smallQwen 16 start mixedRun =
      some ((runAll smallQwen 16 start mixedRun).getD start) := rfl
  refine ⟨_, reachable_of_runAll (.init (start_initial smallQwen)) hrun, ?_⟩
  unfold Own
  decide

end Ollama.Runner.Rotary
