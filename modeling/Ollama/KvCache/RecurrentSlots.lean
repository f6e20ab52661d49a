import Ollama.KvCache.Recurrent
import Ollama.Lib.RefCount
import Ollama.Lib.Transition

/-!
# The slot allocator of the recurrent cache

`slotForSeq`, `refCount` and `freeSlots` form a table of reference-counted
slots, which every call keeps counted. With no more sequences than slots
`allocSlot` therefore never fails.
-/

namespace Ollama.KvCache

open List Function

namespace Recurrent

open Lib.RefCount

variable {τ : Type}

/-! ## §1  The table -/

/-- The slot allocator. -/
def alloc (c : Recurrent τ) : Table Int := ⟨c.slotForSeq, c.refCount, c.freeSlots⟩

/-- **The allocator invariant**: the slots are counted, and no pass has
recorded an error. -/
structure SlotsCounted (ids : Finset Int) (n : ℕ) (c : Recurrent τ) : Prop where
  counted : Counted ids n c.alloc
  size : c.maxSequences = n
  noError : c.writableError = none

variable {ids : Finset Int} {n : ℕ} {c : Recurrent τ} {seq : Int} {slot : ℕ}

theorem SlotsCounted.validSlot (h : SlotsCounted ids n c) (hs : c.slotForSeq seq = some slot) :
    c.validSlot slot = true := by
  rw [Recurrent.validSlot, h.size]
  exact decide_eq_true (h.counted.mapped seq slot hs).2

theorem planSeq_frame (batch : Batch) (c : Recurrent τ) (p : Int × ℕ) :
    ∃ pos cps, planSeq batch c p = { c with curCheckpointPos := pos, checkpoints := cps } := by
  unfold planSeq
  extract_lets
  split
  · exact ⟨_, _, rfl⟩
  · split
    · exact ⟨_, _, rfl⟩
    · exact ⟨_, _, rfl⟩

theorem planFold_frame (batch : Batch) (l : List (Int × ℕ)) (c : Recurrent τ) :
    ∃ pos cps, l.foldl (planSeq batch) c =
      { c with curCheckpointPos := pos, checkpoints := cps } := by
  induction l generalizing c with
  | nil => exact ⟨_, _, rfl⟩
  | cons p l ih =>
    obtain ⟨pos, cps, hp⟩ := planSeq_frame batch c p
    rw [foldl_cons, hp]
    exact ih _

theorem planCheckpoints_frame (c : Recurrent τ) (batch : Batch) :
    ∃ pos cps, c.planCheckpoints batch = { c with
        curCheckpointPos := pos
        curCheckpointSlots := fun _ => none
        checkpoints := cps } := by
  unfold planCheckpoints
  extract_lets d
  split
  · exact ⟨_, _, rfl⟩
  · exact planFold_frame batch _ d

theorem finalizeStartForward_frame (c : Recurrent τ) (batch : Batch) (reserve : Bool) :
    ∃ pos cps, c.finalizeStartForward batch reserve = { c with
        writableEnsured := false
        writableError := none
        reserveCheckpoints := reserve
        curCheckpointPos := pos
        curCheckpointSlots := fun _ => none
        checkpoints := cps } :=
  planCheckpoints_frame _ batch

theorem checkpointIndexForSlot_frame (c : Recurrent τ) (slot : ℕ) (pos : Int) :
    ∃ slots cps, (c.checkpointIndexForSlot slot pos).1 =
      { c with curCheckpointSlots := slots, checkpoints := cps } := by
  unfold checkpointIndexForSlot
  split
  · exact ⟨_, _, rfl⟩
  split
  · exact ⟨_, _, rfl⟩
  · split
    · exact ⟨_, _, rfl⟩
    · exact ⟨_, _, rfl⟩

theorem capture_frame (c : Recurrent τ) (slot : ℕ) (pos : Int) (state : List τ) :
    ∃ slots cps, c.capture slot pos state =
      { c with curCheckpointSlots := slots, checkpoints := cps } := by
  obtain ⟨slots, cps, hidx⟩ := checkpointIndexForSlot_frame c slot pos
  unfold capture
  split
  · exact ⟨_, _, rfl⟩
  split
  · rename_i heq
    rw [heq] at hidx
    exact ⟨slots, cps, hidx⟩
  rename_i d idx heq
  rw [heq] at hidx
  have hd : d = { c with curCheckpointSlots := slots, checkpoints := cps } := hidx
  rw [hd]
  exact ⟨_, _, rfl⟩

theorem captureFold_frame (l : List ((ℕ × List τ) × Int)) (c : Recurrent τ) :
    ∃ slots cps, l.foldl (fun c p => c.capture p.1.1 p.2 p.1.2) c =
      { c with curCheckpointSlots := slots, checkpoints := cps } := by
  induction l generalizing c with
  | nil => exact ⟨_, _, rfl⟩
  | cons p l ih =>
    obtain ⟨slots, cps, hp⟩ := capture_frame c p.1.1 p.2 p.1.2
    rw [foldl_cons, hp]
    exact ih _

theorem updateStates_frame (c : Recurrent τ) (batch : Batch) (tokens : List τ) :
    ∃ slots cps, c.updateStates batch tokens = { c with
        buffers := true
        states := (c.newStates batch tokens).foldl (fun states p => update states p.1 p.2) c.states
        curCheckpointSlots := slots
        checkpoints := cps } :=
  captureFold_frame _ _

/-! ## §2  `EnsureWritable` -/

/-- `seq` shares its slot with another sequence. -/
structure Shared (c : Recurrent τ) (seq : Int) (slot : ℕ) : Prop where
  owner : c.slotForSeq seq = some slot
  valid : c.validSlot slot = true
  count : 1 < c.refCount slot

/-- The cache after `detach` has given `seq` the slot `newSlot`. -/
def detached (c : Recurrent τ) (seq : Int) (slot newSlot : ℕ) (rest : List ℕ) : Recurrent τ :=
  { c with
    states := update c.states newSlot (c.states slot)
    checkpoints := (c.copyCheckpoints slot newSlot).checkpoints
    refCount := update (update c.refCount slot (c.refCount slot - 1)) newSlot 1
    slotForSeq := update c.slotForSeq seq (some newSlot)
    freeSlots := rest }

theorem copyState_copyCheckpoints (c : Recurrent τ) (slot newSlot : ℕ) :
    (c.copyRecurrentState slot newSlot).copyCheckpoints slot newSlot = { c with
        states := update c.states newSlot (c.states slot)
        checkpoints := (c.copyCheckpoints slot newSlot).checkpoints } := by
  unfold copyCheckpoints
  by_cases hcount : c.checkpointCount = 0
  · rw [if_pos (show (c.copyRecurrentState slot newSlot).checkpointCount = 0 from hcount),
      if_pos hcount]
    rfl
  rw [if_neg (show ¬(c.copyRecurrentState slot newSlot).checkpointCount = 0 from hcount),
    if_neg hcount]
  rw [show (c.copyRecurrentState slot newSlot).checkpoints = c.checkpoints from rfl]
  cases c.checkpoints slot with
  | none => rfl
  | some src =>
    by_cases hsize : src.size = 0
    · show (if src.size = 0 then _ else _) = { c with
          states := _
          checkpoints := (if src.size = 0 then _ else _ : Recurrent τ).checkpoints }
      rw [if_pos hsize, if_pos hsize]
      rfl
    show (if src.size = 0 then _ else _) = { c with
        states := _
        checkpoints := (if src.size = 0 then _ else _ : Recurrent τ).checkpoints }
    rw [if_neg hsize, if_neg hsize]
    rfl

variable {rest : List ℕ}

theorem detach_eq {newSlot : ℕ} (hfree : c.freeSlots = newSlot :: rest) (seq : Int) (slot : ℕ) :
    c.detach seq slot = some (c.detached seq slot newSlot rest, newSlot) := by
  unfold detach
  rw [hfree]
  show some (_, newSlot) = some (_, newSlot)
  congr 2
  rw [copyState_copyCheckpoints]
  rfl

theorem detached_alloc (c : Recurrent τ) (seq : Int) (slot newSlot : ℕ) (rest : List ℕ) :
    (c.detached seq slot newSlot rest).alloc =
      (c.alloc.release seq slot).take seq newSlot rest := by
  show Table.mk _ _ _ = Table.mk (update (update _ _ _) _ _) _ _
  rw [update_idem]
  rfl

theorem Shared.counted (hs : c.Shared seq slot) (h : SlotsCounted ids n c) {newSlot : ℕ}
    (hfree : c.freeSlots = newSlot :: rest) :
    SlotsCounted ids n (c.detached seq slot newSlot rest) where
  counted := by
    rw [detached_alloc]
    exact h.counted.detach hs.owner hs.count hfree
  size := h.size
  noError := h.noError

theorem Shared.exists_free
    (hs : c.Shared seq slot) (h : SlotsCounted ids n c) (hcard : ids.card ≤ n) :
    ∃ newSlot rest, c.freeSlots = newSlot :: rest :=
  exists_cons_of_ne_nil
    (h.counted.free_of_shared hcard (h.counted.mapped seq slot hs.owner).2 hs.count)

/-- `seq` has no slot, or one of its own. -/
def Private (c : Recurrent τ) (seq : Int) : Prop :=
  ∀ slot, c.slotForSeq seq = some slot → c.refCount slot ≤ 1

/-- A detachment makes the sequence private and leaves the others so. -/
theorem Shared.private (hs : c.Shared seq slot)
    (newSlot : ℕ) (rest : List ℕ) (seq' : Int) (hp : seq' = seq ∨ c.Private seq') :
    (c.detached seq slot newSlot rest).Private seq' := by
  intro s hown
  show update (update c.refCount slot _) newSlot 1 s ≤ 1
  by_cases hnew : s = newSlot
  · rw [hnew, update_self]
  have hown' : c.slotForSeq seq' = some s ∧ seq' ≠ seq := by
    by_cases heq : seq' = seq
    · rw [heq] at hown
      rw [show (c.detached seq slot newSlot rest).slotForSeq seq = some newSlot from
        update_self _ _ _] at hown
      exact absurd (Option.some.inj hown).symm hnew
    · exact ⟨(update_of_ne heq _ _).symm.trans hown, heq⟩
  have hle := hp.resolve_left hown'.2 s hown'.1
  have hne : s ≠ slot := by
    rintro rfl
    have := hs.count
    omega
  rw [update_of_ne hnew, update_of_ne hne]
  exact hle

/-- One sequence of the loop: it is private already, or moves to a free slot. -/
theorem ensureLoop_cons (hcard : ids.card ≤ n)
    (h : SlotsCounted ids n c) (seq : Int) (seqs : List Int) (i : ℕ) :
    (c.Private seq ∧ ensureLoop (seq :: seqs) i c = ensureLoop seqs (i + 1) c) ∨
    ∃ slot newSlot rest, c.Shared seq slot ∧ c.freeSlots = newSlot :: rest ∧
      ensureLoop (seq :: seqs) i c = ensureLoop seqs (i + 1)
          { c.detached seq slot newSlot rest with curSlots := c.curSlots.set i newSlot } := by
  rw [ensureLoop]
  cases hslot : c.slotForSeq seq with
  | none =>
    refine Or.inl ⟨fun slot hs => ?_, rfl⟩
    rw [hslot] at hs
    cases hs
  | some slot =>
    have hvalid := h.validSlot hslot
    by_cases hcount : c.refCount slot ≤ 1
    · refine Or.inl ⟨fun slot' hs => ?_, ?_⟩
      · rw [hslot] at hs
        cases hs
        exact hcount
      · simp only [hvalid, Bool.not_true, Bool.false_eq_true, if_false, if_pos hcount]
    have hs : c.Shared seq slot := ⟨hslot, hvalid, by omega⟩
    obtain ⟨newSlot, rest, hfree⟩ := hs.exists_free h hcard
    refine Or.inr ⟨slot, newSlot, rest, hs, hfree, ?_⟩
    simp only [hvalid, Bool.not_true, Bool.false_eq_true, if_false, if_neg hcount,
      detach_eq hfree]
    rfl

/-- **Rule for `EnsureWritable`.** The loop keeps the allocator counted and
what every detachment keeps, and never fails. -/
theorem ensureLoop_rule (hcard : ids.card ≤ n) {P : Recurrent τ → Prop}
    (hdetach : ∀ c seq slot newSlot rest slots, SlotsCounted ids n c → P c →
      c.Shared seq slot → c.freeSlots = newSlot :: rest →
      P { c.detached seq slot newSlot rest with curSlots := slots }) :
    ∀ (seqs : List Int) (i : ℕ) (c : Recurrent τ), SlotsCounted ids n c → P c →
      SlotsCounted ids n (ensureLoop seqs i c).1 ∧ P (ensureLoop seqs i c).1 ∧
        (ensureLoop seqs i c).2 = none := by
  intro seqs
  induction seqs with
  | nil => exact fun i c h hP => ⟨h, hP, rfl⟩
  | cons seq seqs ih =>
    intro i c h hP
    rcases ensureLoop_cons hcard h seq seqs i with ⟨_, heq⟩ | ⟨slot, newSlot, rest, hs, hfree, heq⟩
    · rw [heq]
      exact ih _ _ h hP
    · rw [heq]
      have hd := hs.counted h hfree
      exact ih _ _ ⟨hd.counted, hd.size, hd.noError⟩ (hdetach c seq slot newSlot rest _ h hP hs hfree)

/-- After the loop its sequences are private, and the private ones still
are. -/
theorem ensureLoop_private (hcard : ids.card ≤ n) :
    ∀ (seqs : List Int) (i : ℕ) (c : Recurrent τ), SlotsCounted ids n c →
      ∀ seq', seq' ∈ seqs ∨ c.Private seq' → (ensureLoop seqs i c).1.Private seq' := by
  intro seqs
  induction seqs with
  | nil => exact fun i c h seq' hp => hp.resolve_left not_mem_nil
  | cons seq seqs ih =>
    intro i c h seq' hp
    rcases ensureLoop_cons hcard h seq seqs i with
      ⟨hpriv, heq⟩ | ⟨slot, newSlot, rest, hs, hfree, heq⟩
    · rw [heq]
      refine ih _ _ h seq' ?_
      rcases hp with hmem | hp'
      · rcases mem_cons.mp hmem with rfl | hmem'
        · exact Or.inr hpriv
        · exact Or.inl hmem'
      · exact Or.inr hp'
    · rw [heq]
      have hd := hs.counted h hfree
      refine ih (i + 1) { c.detached seq slot newSlot rest with
        curSlots := c.curSlots.set i newSlot } ⟨hd.counted, hd.size, hd.noError⟩ seq' ?_
      rcases hp with hmem | hp'
      · rcases mem_cons.mp hmem with heq' | hmem'
        · exact Or.inr (hs.private newSlot rest seq' (Or.inl heq'))
        · exact Or.inl hmem'
      · exact Or.inr (hs.private newSlot rest seq' (Or.inr hp'))

/-- `curSlots` are the slots of `curSeqs`. -/
def Agrees (c : Recurrent τ) : Prop :=
  c.curSlots.map some = c.curSeqs.map c.slotForSeq

/-- The loop keeps the slots of the batch up to date. -/
theorem ensureLoop_agrees (hcard : ids.card ≤ n) :
    ∀ (seqs : List Int) (i : ℕ) (c : Recurrent τ), SlotsCounted ids n c → c.Agrees →
      c.curSeqs.Nodup → c.curSeqs.drop i = seqs →
      (ensureLoop seqs i c).1.Agrees ∧ (ensureLoop seqs i c).1.curSeqs = c.curSeqs := by
  intro seqs
  induction seqs with
  | nil => exact fun i c _ ha _ _ => ⟨ha, rfl⟩
  | cons seq seqs ih =>
    intro i c h ha hnodup hdrop
    have hrest : c.curSeqs.drop (i + 1) = seqs := by
      rw [← tail_drop, hdrop, tail_cons]
    have hlt : i < c.curSeqs.length := by
      by_contra hge
      rw [drop_eq_nil_of_le (by omega)] at hdrop
      cases hdrop
    have hat : c.curSeqs[i] = seq := by
      have := getElem_cons_drop hlt
      rw [hdrop] at this
      exact (List.cons.inj this).1
    rcases ensureLoop_cons hcard h seq seqs i with ⟨_, heq⟩ | ⟨slot, newSlot, rest, hs, hfree, heq⟩
    · rw [heq]
      exact ih _ _ h ha hnodup hrest
    rw [heq]
    have hd := hs.counted h hfree
    refine ih (i + 1) { c.detached seq slot newSlot rest with
      curSlots := c.curSlots.set i newSlot } ⟨hd.counted, hd.size, hd.noError⟩ ?_ hnodup hrest
    show (c.curSlots.set i newSlot).map some =
      c.curSeqs.map (update c.slotForSeq seq (some newSlot))
    rw [hnodup.map_update, if_pos (hat ▸ getElem_mem hlt), map_set, ha]
    congr 1
    rw [← hat]
    exact (hnodup.idxOf_getElem i hlt).symm

/-- `ensureWritable` runs the loop once a pass, when some sequence shares. -/
theorem ensureWritableOnce_eq (hcard : ids.card ≤ n) (h : SlotsCounted ids n c) :
    c.ensureWritableOnce = if c.writableEnsured then c else
      { (if c.needsWritable then (ensureLoop c.curSeqs 0 c).1 else c) with
        writableEnsured := true } := by
  obtain ⟨_, _, hnone⟩ := ensureLoop_rule (P := fun _ => True) hcard
    (fun _ _ _ _ _ _ _ _ _ _ => trivial) c.curSeqs 0 c h trivial
  unfold ensureWritableOnce ensureWritableAll
  split
  · rfl
  cases hneeds : c.needsWritable with
  | false => rfl
  | true =>
    generalize ensureLoop c.curSeqs 0 c = r at hnone
    obtain ⟨d, e⟩ := r
    have he : e = none := hnone
    rw [he]

/-- **Rule for `ensureWritable`.** -/
theorem ensureWritableOnce_rule (hcard : ids.card ≤ n) {P : Recurrent τ → Prop}
    (hdetach : ∀ c seq slot newSlot rest slots, SlotsCounted ids n c → P c →
      c.Shared seq slot → c.freeSlots = newSlot :: rest →
      P { c.detached seq slot newSlot rest with curSlots := slots })
    (hensured : ∀ c, P c → P { c with writableEnsured := true })
    (h : SlotsCounted ids n c) (hP : P c) :
    SlotsCounted ids n c.ensureWritableOnce ∧ P c.ensureWritableOnce := by
  obtain ⟨hloop, hPloop, _⟩ := ensureLoop_rule hcard hdetach c.curSeqs 0 c h hP
  rw [ensureWritableOnce_eq hcard h]
  split
  · exact ⟨h, hP⟩
  · split
    · exact ⟨⟨hloop.counted, hloop.size, hloop.noError⟩, hensured _ hPloop⟩
    · exact ⟨⟨h.counted, h.size, h.noError⟩, hensured _ hP⟩

/-! ## §3  `StartForward` -/

/-- What the loop has done for the sequences `seqs`: the slots there were stay,
and the new ones come from the free list. -/
structure Assigned (ids : Finset Int) (n : ℕ) (seqs : List Int) (c d : Recurrent τ)
    (newSlots : List ℕ) : Prop where
  counted : SlotsCounted ids n d
  owner : ∀ seq slot, c.slotForSeq seq = some slot → d.slotForSeq seq = some slot
  isSome : ∀ seq, (d.slotForSeq seq).isSome ↔ seq ∈ seqs ∨ (c.slotForSeq seq).isSome
  slots : d.curSlots.map some = seqs.map d.slotForSeq
  new : ∀ seq slot, d.slotForSeq seq = some slot → (slot ∈ newSlots ↔ c.slotForSeq seq = none)
  fromFree : ∀ slot, slot ∈ newSlots → slot ∈ c.freeSlots
  freeSlots : ∀ slot, slot ∈ d.freeSlots → slot ∈ c.freeSlots ∧ slot ∉ newSlots
  frame : ∃ owner count free cur, d =
    { c with slotForSeq := owner, refCount := count, freeSlots := free, curSlots := cur }

/-- A sequence that has a slot. -/
theorem Assigned.found {seqs : List Int} {c d : Recurrent τ}
    {newSlots : List ℕ} (h : Assigned ids n seqs c d newSlots)
    (hslot : d.slotForSeq seq = some slot) :
    Assigned ids n (seqs ++ [seq]) c { d with curSlots := d.curSlots ++ [slot] } newSlots where
  counted := ⟨h.counted.counted, h.counted.size, h.counted.noError⟩
  owner := h.owner
  isSome seq' := by
    rw [h.isSome, mem_append, mem_singleton]
    constructor
    · rintro (hmem | hsome)
      · exact Or.inl (Or.inl hmem)
      · exact Or.inr hsome
    · rintro ((hmem | rfl) | hsome)
      · exact Or.inl hmem
      · exact (h.isSome seq').mp (by rw [hslot]; rfl)
      · exact Or.inr hsome
  slots := by
    rw [map_append, map_append, h.slots]
    exact congrArg _ (congrArg (fun x => [x]) hslot.symm)
  new := h.new
  fromFree := h.fromFree
  freeSlots := h.freeSlots
  frame := by
    obtain ⟨owner, count, free, cur, rfl⟩ := h.frame
    exact ⟨_, _, _, _, rfl⟩

/-- A sequence without a slot takes the next free one. -/
theorem Assigned.alloc {seqs : List Int} {c d : Recurrent τ}
    {newSlots : List ℕ} (h : Assigned ids n seqs c d newSlots)
    (hseq : seq ∈ ids) (hnone : d.slotForSeq seq = none) (hfree : d.freeSlots = slot :: rest) :
    Assigned ids n (seqs ++ [seq]) c
      { d.assign seq slot rest with curSlots := d.curSlots ++ [slot] } (newSlots ++ [slot]) := by
  have hnot : seq ∉ seqs ∧ c.slotForSeq seq = none := by
    have hns : ¬(d.slotForSeq seq).isSome := by rw [hnone]; exact Bool.false_ne_true
    rw [h.isSome, not_or] at hns
    exact ⟨hns.1, by simpa using hns.2⟩
  have htop : slot ∈ d.freeSlots := by rw [hfree]; exact mem_cons_self
  have hother : ∀ {seq'}, seq' ≠ seq →
      update d.slotForSeq seq (some slot) seq' = d.slotForSeq seq' :=
    fun hne => update_of_ne hne _ _
  have hnodup := h.counted.counted.nodup
  rw [show d.alloc.free = slot :: rest from hfree, nodup_cons] at hnodup
  refine ⟨⟨h.counted.counted.take hseq hnone hfree, h.counted.size, h.counted.noError⟩,
    ?_, ?_, ?_, ?_, ?_, ?_, ?_⟩
  · intro seq' slot' hs
    have hne : seq' ≠ seq := by
      rintro rfl
      rw [hnot.2] at hs
      cases hs
    exact (hother hne).trans (h.owner seq' slot' hs)
  · intro seq'
    show (update d.slotForSeq seq (some slot) seq').isSome ↔ _
    rw [mem_append, mem_singleton]
    by_cases heq : seq' = seq
    · rw [heq, update_self]
      exact iff_of_true rfl (Or.inl (Or.inr rfl))
    · rw [hother heq, h.isSome]
      exact or_congr_left ⟨Or.inl, fun hc => hc.resolve_right heq⟩
  · rw [map_append, map_append, h.slots]
    congr 1
    · refine map_congr_left fun seq' hmem => (hother ?_).symm
      rintro rfl
      exact hnot.1 hmem
    · show [some slot] = [update d.slotForSeq seq (some slot) seq]
      rw [update_self]
  · intro seq' slot' hs
    rw [mem_append, mem_singleton]
    by_cases heq : seq' = seq
    · rw [heq] at hs ⊢
      have hs' : update d.slotForSeq seq (some slot) seq = some slot' := hs
      rw [update_self] at hs'
      cases hs'
      exact iff_of_true (Or.inr rfl) hnot.2
    have hs' : d.slotForSeq seq' = some slot' := (hother heq).symm.trans hs
    have hne : slot' ≠ slot := by
      rintro rfl
      exact h.counted.counted.not_mem_free hs' htop
    rw [← h.new seq' slot' hs']
    exact ⟨fun hc => hc.resolve_right hne, Or.inl⟩
  · intro slot' hmem
    rcases mem_append.mp hmem with hmem' | hmem'
    · exact h.fromFree slot' hmem'
    · rw [mem_singleton.mp hmem']
      exact (h.freeSlots slot htop).1
  · intro slot' hmem
    have hmem' : slot' ∈ d.freeSlots := by rw [hfree]; exact mem_cons_of_mem _ hmem
    obtain ⟨hin, hnew⟩ := h.freeSlots slot' hmem'
    refine ⟨hin, ?_⟩
    rw [mem_append, mem_singleton, not_or]
    refine ⟨hnew, ?_⟩
    rintro rfl
    exact hnodup.1 hmem
  · obtain ⟨owner, count, free, cur, rfl⟩ := h.frame
    exact ⟨_, _, _, _, rfl⟩

/-- **The loop of `StartForward` never fails**, and assigns a slot to every
sequence. -/
theorem assignSlots_spec (hcard : ids.card ≤ n) :
    ∀ (seqs done : List Int) (d : Recurrent τ) (newSlots : List ℕ), (∀ seq ∈ seqs, seq ∈ ids) →
      Assigned ids n done c d newSlots →
      (assignSlots seqs d newSlots).2.2 = none ∧
      Assigned ids n (done ++ seqs) c (assignSlots seqs d newSlots).1
        (assignSlots seqs d newSlots).2.1 := by
  intro seqs
  induction seqs with
  | nil =>
    intro done d newSlots _ h
    rw [append_nil]
    exact ⟨rfl, h⟩
  | cons seq seqs ih =>
    intro done d newSlots hseqs h
    have hrest : ∀ s ∈ seqs, s ∈ ids := fun s hs => hseqs s (mem_cons_of_mem _ hs)
    have happend : done ++ seq :: seqs = (done ++ [seq]) ++ seqs := by
      rw [append_assoc]
      rfl
    rw [assignSlots, happend]
    cases hslot : d.slotForSeq seq with
    | some slot => exact ih _ _ _ hrest (h.found hslot)
    | none =>
      obtain ⟨slot, rest, hfree⟩ := exists_cons_of_ne_nil
        (h.counted.counted.free_of_unmapped hcard (hseqs seq mem_cons_self) hslot)
      have hfree' : d.freeSlots = slot :: rest := hfree
      rw [hfree']
      exact ih _ _ _ hrest (h.alloc (hseqs seq mem_cons_self) hslot hfree')

theorem batchSeqs_foldl (batch : Batch) (seqs : List Int) (h : seqs.Nodup) :
    (batch.foldl (fun seqs e => if e.seq ∈ seqs then seqs else seqs ++ [e.seq]) seqs).Nodup ∧
    ∀ seq, seq ∈ batch.foldl (fun seqs e => if e.seq ∈ seqs then seqs else seqs ++ [e.seq]) seqs ↔
      seq ∈ seqs ∨ ∃ e ∈ batch, e.seq = seq := by
  induction batch generalizing seqs with
  | nil => exact ⟨h, fun seq => by simp⟩
  | cons e batch ih =>
    rw [foldl_cons]
    split
    · rename_i hmem
      refine ⟨(ih seqs h).1, fun seq => ?_⟩
      rw [(ih seqs h).2 seq, exists_mem_cons_iff]
      constructor
      · rintro (hs | hs)
        · exact Or.inl hs
        · exact Or.inr (Or.inr hs)
      · rintro (hs | rfl | hs)
        · exact Or.inl hs
        · exact Or.inl hmem
        · exact Or.inr hs
    · rename_i hmem
      have hnodup : (seqs ++ [e.seq]).Nodup := by
        rw [nodup_append_comm]
        exact nodup_cons.mpr ⟨hmem, h⟩
      refine ⟨(ih _ hnodup).1, fun seq => ?_⟩
      rw [(ih _ hnodup).2 seq, exists_mem_cons_iff, mem_append, mem_singleton, or_assoc]
      exact or_congr_right (or_congr_left eq_comm)

theorem batchSeqs_nodup (batch : Batch) : (batchSeqs batch).Nodup :=
  (batchSeqs_foldl batch [] nodup_nil).1

variable {batch : Batch}

theorem mem_batchSeqs : seq ∈ batchSeqs batch ↔ ∃ e ∈ batch, e.seq = seq := by
  rw [batchSeqs, (batchSeqs_foldl batch [] nodup_nil).2]
  exact or_iff_right not_mem_nil

/-- The sequences of a batch of one sequence. -/
theorem batchSeqs_single (hne : batch ≠ [])
    (h : ∀ e ∈ batch, e.seq = seq) : batchSeqs batch = [seq] := by
  have hmem : ∀ s, s ∈ batchSeqs batch ↔ s = seq := by
    intro s
    rw [mem_batchSeqs]
    constructor
    · rintro ⟨e, he, rfl⟩
      exact h e he
    · rintro rfl
      obtain ⟨e, rest, rfl⟩ := exists_cons_of_ne_nil hne
      exact ⟨e, mem_cons_self, h e mem_cons_self⟩
  refine perm_singleton.mp ((perm_ext_iff_of_nodup (batchSeqs_nodup batch)
    (nodup_singleton seq)).mpr fun s => ?_)
  rw [hmem, mem_singleton]

/-- The part of `startSlots` after the slots are assigned. -/
def assignedStart (batch : Batch) (r : Recurrent τ × List ℕ × Option RecurrentError) :
    Recurrent τ × Option RecurrentError :=
  match r with
  | (c, _, some e) => (c, some e)
  | (c, newSlots, none) => ((c.zeroSlots newSlots).finalizeStartForward batch false, none)

/-- The path for one sequence is that for several, unless there is no slot. -/
theorem startForwardSingleSeq_eq (c : Recurrent τ) (seq : Int) (batch : Batch)
    (h : c.slotForSeq seq = none → c.freeSlots ≠ []) :
    c.startForwardSingleSeq seq batch false =
      assignedStart batch (assignSlots [seq] { c with curSeqs := [seq], curSlots := [] } []) := by
  unfold startForwardSingleSeq assignSlots
  dsimp only
  rw [if_neg Bool.false_ne_true]
  cases hslot : c.slotForSeq seq with
  | some slot => rfl
  | none =>
    obtain ⟨slot, rest, hfree⟩ := exists_cons_of_ne_nil (h hslot)
    rw [hfree]
    rfl

/-- What `StartForward` does once the causal cache has returned nil. -/
inductive StartOutcome (ids : Finset Int) (n : ℕ) (batch : Batch) (c : Recurrent τ) :
    Bool → Recurrent τ × Option RecurrentError → Prop
  | empty (reserve : Bool) : batch = [] → StartOutcome ids n batch c reserve ({ c with
           curSeqs := []
           curSlots := []
           reserveCheckpoints := false
           writableEnsured := false
           writableError := none }, none)
  | notSupported (reserve : Bool) :
      StartOutcome ids n batch c reserve ({ c with curSeqs := batchSeqs batch }, some .notSupported)
  | reserved (slots : List ℕ) : StartOutcome ids n batch c true
        (finalizeStartForward { c with curSeqs := batchSeqs batch, curSlots := slots } batch true,
          none)
  | started (d : Recurrent τ) (newSlots : List ℕ) : batch ≠ [] →
      Assigned ids n (batchSeqs batch) { c with curSeqs := batchSeqs batch, curSlots := [] } d
        newSlots →
      StartOutcome ids n batch c false
        ((d.zeroSlots newSlots).finalizeStartForward batch false, none)

theorem assignedStart_cases (hne : batch ≠ []) {r : Recurrent τ × List ℕ × Option RecurrentError}
    (h : r.2.2 = none ∧ Assigned ids n (batchSeqs batch)
      { c with curSeqs := batchSeqs batch, curSlots := [] } r.1 r.2.1) :
    StartOutcome ids n batch c false (assignedStart batch r) := by
  obtain ⟨d, newSlots, e⟩ := r
  obtain ⟨he, hassigned⟩ := h
  have he' : e = none := he
  rw [he']
  exact .started d newSlots hne hassigned

/-- **What `StartForward` can do**, with no more sequences than slots. -/
theorem startSlots_cases (hcard : ids.card ≤ n)
    (h : SlotsCounted ids n c) (hids : ∀ e ∈ batch, e.seq ∈ ids) (reserve : Bool) :
    StartOutcome ids n batch c reserve (c.startSlots batch reserve) := by
  have hseqs : ∀ seq ∈ batchSeqs batch, seq ∈ ids := by
    intro seq hseq
    obtain ⟨e, he, rfl⟩ := mem_batchSeqs.mp hseq
    exact hids e he
  have hbase : Assigned ids n [] { c with curSeqs := batchSeqs batch, curSlots := [] }
      { c with curSeqs := batchSeqs batch, curSlots := [] } [] := by
    refine ⟨⟨h.counted, h.size, h.noError⟩, fun _ _ hs => hs, fun seq => ?_, rfl, ?_, ?_, ?_, ?_⟩
    · exact (or_iff_right not_mem_nil).symm
    · intro seq slot hs
      refine iff_of_false not_mem_nil fun hnone => ?_
      rw [hnone] at hs
      cases hs
    · exact fun slot hs => absurd hs not_mem_nil
    · exact fun slot hs => ⟨hs, not_mem_nil⟩
    · exact ⟨_, _, _, _, rfl⟩
  have hloop := assignSlots_spec hcard (batchSeqs batch) [] _ [] hseqs hbase
  cases batch with
  | nil => exact .empty reserve rfl
  | cons first batch =>
    rw [startSlots]
    by_cases hall : (first :: batch).all fun e => decide (e.seq = first.seq)
    · have hone : batchSeqs (first :: batch) = [first.seq] := by
        refine batchSeqs_single (cons_ne_nil _ _) fun e he => ?_
        exact of_decide_eq_true (all_eq_true.mp hall e he)
      rw [if_pos hall]
      cases reserve with
      | true =>
        rw [startForwardSingleSeq, ← hone]
        exact .reserved [0]
      | false =>
        have hfirst := hids first mem_cons_self
        rw [startForwardSingleSeq_eq c first.seq _ fun hnone =>
          h.counted.free_of_unmapped hcard hfirst hnone]
        exact assignedStart_cases (cons_ne_nil _ _) (hone ▸ hloop)
    · rw [if_neg hall]
      show StartOutcome ids n _ c reserve (ite _ _ (ite _ _ _))
      split
      · exact .notSupported reserve
      · cases reserve with
        | true => exact .reserved _
        | false => exact assignedStart_cases (cons_ne_nil _ _) hloop

theorem finalizeStartForward_counted (h : SlotsCounted ids n c) (batch : Batch) (reserve : Bool) :
    SlotsCounted ids n (c.finalizeStartForward batch reserve) := by
  obtain ⟨pos, cps, hf⟩ := finalizeStartForward_frame c batch reserve
  rw [hf]
  exact ⟨h.counted, h.size, rfl⟩

theorem startSlots_counted (hcard : ids.card ≤ n)
    (h : SlotsCounted ids n c) (hids : ∀ e ∈ batch, e.seq ∈ ids) (reserve : Bool) :
    SlotsCounted ids n (c.startSlots batch reserve).1 ∧
      (c.startSlots batch reserve).2 ≠ some .noSlot := by
  have hcases := startSlots_cases hcard h hids reserve
  generalize c.startSlots batch reserve = r at hcases
  cases hcases with
  | empty _ _ => exact ⟨⟨h.counted, h.size, rfl⟩, by simp⟩
  | notSupported _ => exact ⟨⟨h.counted, h.size, h.noError⟩, by simp⟩
  | reserved slots =>
    have hd : SlotsCounted ids n { c with curSeqs := batchSeqs batch, curSlots := slots } :=
      ⟨h.counted, h.size, h.noError⟩
    exact ⟨finalizeStartForward_counted hd batch true, by simp⟩
  | started d newSlots _ hd =>
    have hz : SlotsCounted ids n (d.zeroSlots newSlots) :=
      ⟨hd.counted.counted, hd.counted.size, hd.counted.noError⟩
    exact ⟨finalizeStartForward_counted hz batch false, by simp⟩

theorem startForward_counted (hcard : ids.card ≤ n)
    (h : SlotsCounted ids n c) (hids : ∀ e ∈ batch, e.seq ∈ ids) (reserve : Bool) (maxMoves : Int) :
    SlotsCounted ids n (c.startForward batch reserve maxMoves).1 ∧
      (c.startForward batch reserve maxMoves).2 ≠ some .noSlot := by
  rw [startForward]
  generalize c.kv.startForward batch reserve maxMoves = f
  have hkv : SlotsCounted ids n { c with kv := f.cache } := ⟨h.counted, h.size, h.noError⟩
  obtain ⟨kv, _, err⟩ := f
  cases err with
  | some e => exact ⟨hkv, by simp⟩
  | none => exact startSlots_counted hcard hkv hids reserve

/-! ## §4  `CopyPrefix`, `PrepareRestore` and `Remove` -/

theorem release_counted (h : SlotsCounted ids n c) (hslot : c.slotForSeq seq = some slot) :
    SlotsCounted ids n (c.release seq slot) :=
  ⟨h.counted.release hslot, h.size, h.noError⟩

/-- `CopyPrefix` after the destination has given up its slot. -/
def shareFrom (c : Recurrent τ) (srcSeq dstSeq : Int) : Recurrent τ :=
  match c.slotForSeq srcSeq with
  | none => c
  | some srcSlot =>
      if c.validSlot srcSlot then
        { c with
          slotForSeq := update c.slotForSeq dstSeq (some srcSlot)
          refCount := update c.refCount srcSlot (c.refCount srcSlot + 1) }
      else c

/-- **What `CopyPrefix` does**: the destination gives up its slot and shares
that of the source. -/
theorem copyPrefix_eq (h : SlotsCounted ids n c) (srcSeq dstSeq len : Int) :
    c.copyPrefix srcSeq dstSeq len = shareFrom (match c.slotForSeq dstSeq with
        | none => { c with kv := c.kv.copyPrefix srcSeq dstSeq len }
        | some dstSlot =>
            release { c with kv := c.kv.copyPrefix srcSeq dstSeq len } dstSeq dstSlot)
        srcSeq dstSeq := by
  show shareFrom (match c.slotForSeq dstSeq with
    | none => _
    | some dstSlot => _) srcSeq dstSeq = _
  congr 1
  cases hslot : c.slotForSeq dstSeq with
  | none => rfl
  | some dstSlot =>
    show (if c.validSlot dstSlot then _ else _) = _
    rw [h.validSlot hslot, if_pos rfl]

theorem shareFrom_counted (h : SlotsCounted ids n c)
    {srcSeq dstSeq : Int} (hdst : dstSeq ∈ ids) (hnone : c.slotForSeq dstSeq = none) :
    SlotsCounted ids n (c.shareFrom srcSeq dstSeq) := by
  rw [shareFrom]
  cases hslot : c.slotForSeq srcSeq with
  | none => exact h
  | some srcSlot =>
    simp only [h.validSlot hslot, if_true]
    exact ⟨h.counted.share hdst hnone hslot, h.size, h.noError⟩

theorem copyPrefix_counted (h : SlotsCounted ids n c)
    {srcSeq dstSeq : Int} (hdst : dstSeq ∈ ids) (len : Int) :
    SlotsCounted ids n (c.copyPrefix srcSeq dstSeq len) := by
  have hkv : SlotsCounted ids n { c with kv := c.kv.copyPrefix srcSeq dstSeq len } :=
    ⟨h.counted, h.size, h.noError⟩
  rw [copyPrefix_eq h]
  cases hslot : c.slotForSeq dstSeq with
  | none => exact shareFrom_counted hkv hdst hslot
  | some dstSlot =>
    exact shareFrom_counted (release_counted hkv hslot) hdst (update_self _ _ _)

/-- `PrepareRestore` records the restore and changes nothing else. -/
theorem prepareRestore_frame (c : Recurrent τ) (seq targetPos : Int) :
    ∃ pending, (c.prepareRestore seq targetPos).1 = { c with pendingRestore := pending } := by
  unfold prepareRestore
  split
  · exact ⟨_, rfl⟩
  split
  · exact ⟨_, rfl⟩
  split
  · exact ⟨_, rfl⟩
  · split
    · exact ⟨_, rfl⟩
    · exact ⟨_, rfl⟩

theorem clearCheckpoints_frame (c : Recurrent τ) (slot : ℕ) :
    ∃ cps, c.clearCheckpoints slot = { c with checkpoints := cps } := by
  unfold clearCheckpoints
  split
  · exact ⟨_, rfl⟩
  · exact ⟨_, rfl⟩

theorem shiftCheckpoints_frame (c : Recurrent τ) (slot : ℕ) (b e : Int) :
    ∃ cps, c.shiftCheckpoints slot b e = { c with checkpoints := cps } := by
  unfold shiftCheckpoints
  split
  · exact ⟨_, rfl⟩
  · exact ⟨_, rfl⟩

theorem applyCheckpointRestore_frame (c : Recurrent τ) (restore : CheckpointRestore) :
    (∃ states cps, (c.applyCheckpointRestore restore).1 =
      { c with states := states, checkpoints := cps }) ∧
    (c.applyCheckpointRestore restore).2 ≠ some .noSlot := by
  unfold applyCheckpointRestore
  split
  · exact ⟨⟨_, _, rfl⟩, by simp⟩
  extract_lets d
  have hd : ∃ states, d = { c with states := states } := by
    unfold d
    split
    · exact ⟨_, rfl⟩
    · exact ⟨_, rfl⟩
  obtain ⟨states, hd⟩ := hd
  rw [hd]
  split
  · exact ⟨⟨_, _, rfl⟩, by simp⟩
  · exact ⟨⟨_, _, rfl⟩, by simp⟩

/-- The slot `slot` of `seq` in `d` is private: it was already, or `seq` has
been detached. -/
inductive Isolated (c : Recurrent τ) (seq : Int) : ℕ → Recurrent τ → Prop
  | own (slot : ℕ) : c.slotForSeq seq = some slot → c.refCount slot ≤ 1 → Isolated c seq slot c
  | copied (slot newSlot : ℕ) (rest : List ℕ) : c.Shared seq slot →
      c.freeSlots = newSlot :: rest → Isolated c seq newSlot (c.detached seq slot newSlot rest)

theorem Isolated.counted {c d : Recurrent τ}
    (hi : Isolated c seq slot d) (h : SlotsCounted ids n c) : SlotsCounted ids n d := by
  cases hi with
  | own _ _ _ => exact h
  | copied _ newSlot rest hs hfree => exact hs.counted h hfree

section

variable (hcard : ids.card ≤ n)
include hcard

section

variable (h : SlotsCounted ids n c)
include h

/-- The rest of a removal in the middle shifts the checkpoints of a private
slot, if the sequence has one. -/
theorem shiftState_cases (seq b e : Int) :
    (c.slotForSeq seq = none ∧ c.shiftState seq b e = (c, none)) ∨
    ∃ slot d, Isolated c seq slot d ∧ c.shiftState seq b e = (d.shiftCheckpoints slot b e, none) := by
  rw [shiftState]
  cases hslot : c.slotForSeq seq with
  | none => exact Or.inl ⟨rfl, rfl⟩
  | some slot =>
    refine Or.inr ?_
    have hvalid := h.validSlot hslot
    simp only [hvalid, Bool.not_true, Bool.false_eq_true, if_false]
    by_cases hcount : 1 < c.refCount slot
    · have hs : c.Shared seq slot := ⟨hslot, hvalid, hcount⟩
      obtain ⟨newSlot, rest, hfree⟩ := hs.exists_free h hcard
      refine ⟨newSlot, _, .copied slot newSlot rest hs hfree, ?_⟩
      rw [if_pos hcount, detach_eq hfree]
    · exact ⟨slot, c, .own slot hslot (Nat.le_of_not_lt hcount), if_neg hcount⟩

theorem shiftState_counted (seq b e : Int) :
    SlotsCounted ids n (c.shiftState seq b e).1 ∧ (c.shiftState seq b e).2 ≠ some .noSlot := by
  rcases shiftState_cases hcard h seq b e with ⟨_, heq⟩ | ⟨slot, d, hi, heq⟩
  · rw [heq]
    exact ⟨h, by simp⟩
  · obtain ⟨cps, hf⟩ := shiftCheckpoints_frame d slot b e
    have hd := hi.counted h
    rw [heq, hf]
    exact ⟨⟨hd.counted, hd.size, hd.noError⟩, by simp⟩

/-- The detachment before a restore, if it is needed, finds a slot. -/
theorem detachForRestore_cases
    (seq : Int) (restore : CheckpointRestore) :
    (c.Private seq ∧ c.detachForRestore seq restore = some (c, restore)) ∨
    ∃ slot newSlot rest, c.Shared seq slot ∧ c.freeSlots = newSlot :: rest ∧
      c.detachForRestore seq restore = some ({ c.detached seq slot newSlot rest with
          pendingRestore :=
            update c.pendingRestore seq (some { restore with slot := newSlot }) },
          { restore with slot := newSlot }) := by
  rw [detachForRestore]
  cases hslot : c.slotForSeq seq with
  | none =>
    refine Or.inl ⟨fun slot hs => ?_, rfl⟩
    rw [hslot] at hs
    cases hs
  | some slot =>
    have hvalid := h.validSlot hslot
    simp only [hvalid, Bool.true_and]
    by_cases hcount : 1 < c.refCount slot
    · have hs : c.Shared seq slot := ⟨hslot, hvalid, hcount⟩
      obtain ⟨newSlot, rest, hfree⟩ := hs.exists_free h hcard
      refine Or.inr ⟨slot, newSlot, rest, hs, hfree, ?_⟩
      rw [if_pos (decide_eq_true hcount), detach_eq hfree]
      rfl
    refine Or.inl ⟨fun slot' hs => ?_, ?_⟩
    · rw [hslot] at hs
      cases hs
      exact Nat.le_of_not_lt hcount
    · rw [if_neg (by simpa using hcount)]

theorem detachForRestore_counted
    (seq : Int) (restore : CheckpointRestore) :
    ∃ d restore', c.detachForRestore seq restore = some (d, restore') ∧ SlotsCounted ids n d := by
  rcases detachForRestore_cases hcard h seq restore with
    ⟨_, heq⟩ | ⟨slot, newSlot, rest, hs, hfree, heq⟩
  · exact ⟨c, restore, heq, h⟩
  · have hd := hs.counted h hfree
    exact ⟨_, _, heq, ⟨hd.counted, hd.size, hd.noError⟩⟩

theorem removeSuffix_counted
    (seq b e : Int) (shiftFails : Bool) :
    SlotsCounted ids n (c.removeSuffix seq b e shiftFails).1 ∧
      (c.removeSuffix seq b e shiftFails).2 ≠ some .noSlot := by
  rw [removeSuffix]
  split
  · exact ⟨h, by simp⟩
  rename_i restore hpending
  split
  · exact ⟨h, by simp⟩
  split
  · exact ⟨h, by simp⟩
  obtain ⟨d, restore', heq, hd⟩ := detachForRestore_counted hcard h seq restore
  simp only [heq]
  generalize d.kv.remove seq b e shiftFails = r
  obtain ⟨kv, err⟩ := r
  cases err with
  | some err => exact ⟨⟨hd.counted, hd.size, hd.noError⟩, by simp⟩
  | none =>
    obtain ⟨⟨states, cps, hf⟩, hnot⟩ :=
      applyCheckpointRestore_frame (d.kvRemoved seq kv) restore'
    refine ⟨?_, hnot⟩
    rw [show (_ : Recurrent τ) = _ from hf]
    exact ⟨hd.counted, hd.size, hd.noError⟩

end

end

/-- The rest of a removal from the start: the sequence gives up its slot, which
loses its checkpoints with its last sequence. -/
theorem dropState_eq (h : SlotsCounted ids n c) (seq : Int) :
    c.dropState seq = match c.slotForSeq seq with
      | none => c
      | some slot =>
          (if c.refCount slot ≤ 1 then c.clearCheckpoints slot else c).release seq slot := by
  rw [dropState]
  cases hslot : c.slotForSeq seq with
  | none => rfl
  | some slot =>
    have hvalid := h.validSlot hslot
    simp only [hvalid, Bool.not_true, Bool.false_eq_true, if_false]

theorem dropState_counted (h : SlotsCounted ids n c)
    (seq : Int) : SlotsCounted ids n (c.dropState seq) := by
  rw [dropState_eq h]
  cases hslot : c.slotForSeq seq with
  | none => exact h
  | some slot =>
    show SlotsCounted ids n ((if c.refCount slot ≤ 1 then _ else _ : Recurrent τ).release seq slot)
    split
    · obtain ⟨cps, hf⟩ := clearCheckpoints_frame c slot
      have hclear : SlotsCounted ids n (c.clearCheckpoints slot) := by
        rw [hf]
        exact ⟨h.counted, h.size, h.noError⟩
      refine release_counted hclear ?_
      rw [hf]
      exact hslot
    · exact release_counted h hslot

theorem removeAll_counted (h : SlotsCounted ids n c) (seq b e : Int) (shiftFails : Bool) :
    SlotsCounted ids n (c.removeAll seq b e shiftFails).1 ∧
      (c.removeAll seq b e shiftFails).2 ≠ some .noSlot := by
  rw [removeAll]
  generalize c.kv.remove seq b e shiftFails = r
  obtain ⟨kv, err⟩ := r
  have hkv : SlotsCounted ids n (c.kvRemoved seq kv) := ⟨h.counted, h.size, h.noError⟩
  cases err with
  | some err => exact ⟨⟨h.counted, h.size, h.noError⟩, by simp⟩
  | none => exact ⟨dropState_counted hkv seq, by simp⟩

/-- `Remove` keeps the allocator counted, whatever the range and the outcome. -/
theorem remove_counted (hcard : ids.card ≤ n)
    (h : SlotsCounted ids n c) (seq b e : Int) (shiftFails : Bool) :
    SlotsCounted ids n (c.remove seq b e shiftFails).1 ∧
      (c.remove seq b e shiftFails).2 ≠ some .noSlot := by
  rw [remove]
  split
  · split
    · rw [removeMiddle]
      generalize c.kv.remove seq b e shiftFails = r
      obtain ⟨kv, err⟩ := r
      have hkv : SlotsCounted ids n (c.kvRemoved seq kv) := ⟨h.counted, h.size, h.noError⟩
      cases err with
      | some err => exact ⟨⟨h.counted, h.size, h.noError⟩, by simp⟩
      | none => exact shiftState_counted hcard hkv seq b e
    · exact removeSuffix_counted hcard h seq b e shiftFails
  · exact removeAll_counted h seq b e shiftFails

/-! ## §5  The system -/

/-- The calls a run makes. `ensureWritableAll` is the exported `EnsureWritable`,
`ensureWritable` the one that `ConvState` and `RecurrentState` call. -/
inductive Call (τ : Type) where
  | startForward (batch : Batch) (reserve : Bool) (maxMoves : Int)
  | ensureWritableAll
  | ensureWritable
  | updateStates (batch : Batch) (tokens : List τ)
  | copyPrefix (srcSeq dstSeq len : Int)
  | prepareRestore (seq targetPos : Int)
  | remove (seq beginIndex endIndex : Int) (shiftFails : Bool)

/-- The cache a call leaves, and the error it returns. -/
def apply (c : Recurrent τ) : Call τ → Recurrent τ × Option RecurrentError
  | .startForward batch reserve maxMoves => c.startForward batch reserve maxMoves
  | .ensureWritableAll => c.ensureWritableAll
  | .ensureWritable => c.ensureWritable
  | .updateStates batch tokens => (c.updateStates batch tokens, none)
  | .copyPrefix srcSeq dstSeq len => (c.copyPrefix srcSeq dstSeq len, none)
  | .prepareRestore seq targetPos => ((c.prepareRestore seq targetPos).1, none)
  | .remove seq beginIndex endIndex shiftFails => c.remove seq beginIndex endIndex shiftFails

/-- The call uses sequences of `ids` only, and forks to another sequence. -/
def Call.Within (ids : Finset Int) : Call τ → Prop
  | .startForward batch _ _ => ∀ e ∈ batch, e.seq ∈ ids
  | .copyPrefix srcSeq dstSeq _ => srcSeq ∈ ids ∧ dstSeq ∈ ids ∧ srcSeq ≠ dstSeq
  | .prepareRestore seq _ => seq ∈ ids
  | .remove seq _ _ _ => seq ∈ ids
  | _ => True

/-- The runs of a recurrent cache with `n` slots and sequences in `ids`. -/
def slotSystem (ids : Finset Int) (n : ℕ) : Lib.System (Recurrent τ) (Call τ) where
  init c := ∃ kv count minPos interval, c = Recurrent.init kv n count minPos interval
  step c call c' := call.Within ids ∧ c' = (c.apply call).1

/-- **Step lemma.** Every call keeps the allocator counted and finds its
slots. -/
theorem apply_counted (hcard : ids.card ≤ n)
    (h : SlotsCounted ids n c) {call : Call τ} (hcall : call.Within ids) :
    SlotsCounted ids n (c.apply call).1 ∧ (c.apply call).2 ≠ some .noSlot := by
  cases call with
  | startForward batch reserve maxMoves => exact startForward_counted hcard h hcall reserve maxMoves
  | ensureWritableAll =>
    obtain ⟨hd, _, hnone⟩ := ensureLoop_rule (P := fun _ => True) hcard
      (fun _ _ _ _ _ _ _ _ _ _ => trivial) c.curSeqs 0 c h trivial
    refine ⟨hd, ?_⟩
    show (ensureLoop c.curSeqs 0 c).2 ≠ _
    rw [hnone]
    simp
  | ensureWritable =>
    obtain ⟨hd, _⟩ := ensureWritableOnce_rule (P := fun _ => True) hcard
      (fun _ _ _ _ _ _ _ _ _ _ => trivial) (fun _ _ => trivial) h trivial
    refine ⟨hd, ?_⟩
    show c.ensureWritableOnce.writableError ≠ _
    rw [hd.noError]
    simp
  | updateStates batch tokens =>
    obtain ⟨slots, cps, hf⟩ := updateStates_frame c batch tokens
    refine ⟨?_, by simp [apply]⟩
    show SlotsCounted ids n (c.updateStates batch tokens)
    rw [hf]
    exact ⟨h.counted, h.size, h.noError⟩
  | copyPrefix srcSeq dstSeq len =>
    exact ⟨copyPrefix_counted h hcall.2.1 len, by simp [apply]⟩
  | prepareRestore seq targetPos =>
    obtain ⟨pending, hf⟩ := prepareRestore_frame c seq targetPos
    refine ⟨?_, by simp [apply]⟩
    show SlotsCounted ids n (c.prepareRestore seq targetPos).1
    rw [hf]
    exact ⟨h.counted, h.size, h.noError⟩
  | remove seq b e shiftFails => exact remove_counted hcard h seq b e shiftFails

/-- **The allocator is counted in every run.** -/
theorem reachable_counted (hcard : ids.card ≤ n)
    (h : (slotSystem ids n).Reachable c) : SlotsCounted ids n c := by
  refine h.invariant ?_ ?_
  · rintro c ⟨kv, count, minPos, interval, rfl⟩
    exact ⟨Counted.init ids n, rfl, rfl⟩
  · rintro c call c' hc ⟨hcall, rfl⟩
    exact (apply_counted hcard hc hcall).1

end Recurrent

end Ollama.KvCache
