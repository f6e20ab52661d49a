import Ollama.KvCache.RecurrentPass
import Ollama.KvCache.Checkpoints

/-!
# What each sequence sees of the recurrent state

A sequence sees the state and the checkpoints of its slot. Sharing and
copy-on-write are not visible: the cache refines one in which every sequence
has a state and checkpoints of its own, as long as the slots on the free list
hold no checkpoints (`Clean`). Each call is described by what it does to the
views.
-/

namespace Ollama.KvCache

open List Function SlotCheckpointStore Recurrent

namespace Recurrent

open Lib.RefCount

variable {τ : Type}

/-! ## §1  Contents and views -/

structure Content (τ : Type) where
  state : List τ
  marks : Set (Int × List τ)

def slotMarks (c : Recurrent τ) (slot : ℕ) : Set (Int × List τ) :=
  match c.checkpoints slot with
  | none => ∅
  | some store => store.marks

def content (c : Recurrent τ) (slot : ℕ) : Content τ := ⟨c.states slot, c.slotMarks slot⟩

def view (c : Recurrent τ) (seq : Int) : Option (Content τ) := c.alloc.view c.content seq

/-- The slots are counted, the rings are well formed, and a slot on the free
list has no checkpoints. -/
structure Clean (ids : Finset Int) (n : ℕ) (c : Recurrent τ) : Prop where
  counted : SlotsCounted ids n c
  rings : ∀ slot store, c.checkpoints slot = some store → store.Wellformed c.checkpointCount
  fresh : ∀ slot ∈ c.freeSlots, c.slotMarks slot = ∅

variable {c : Recurrent τ} {seq : Int} {slot : ℕ}

theorem view_of_slot (h : c.slotForSeq seq = some slot) :
    c.view seq = some (c.content slot) := view_of_owner h

theorem Clean.store {ids : Finset Int} {n : ℕ} {c : Recurrent τ} (h : Clean ids n c)
    (slot : ℕ) : (c.checkpointStore slot).Wellformed c.checkpointCount := by
  rw [checkpointStore]
  cases hs : c.checkpoints slot with
  | none => exact new_wellformed _
  | some store => exact h.rings slot store hs

theorem checkpointStore_marks (c : Recurrent τ) (slot : ℕ) :
    (c.checkpointStore slot).marks = c.slotMarks slot := by
  rw [checkpointStore, slotMarks]
  cases c.checkpoints slot with
  | none => exact new_marks _
  | some store => rfl

theorem setStore_slotMarks (c : Recurrent τ) (slot : ℕ) (store : SlotCheckpointStore τ) :
    (c.setStore slot store).slotMarks = update c.slotMarks slot store.marks := by
  funext s
  show (match update c.checkpoints slot (some store) s with
    | none => ∅
    | some store => store.marks) = _
  by_cases hs : s = slot
  · rw [hs, update_self, update_self]
  · rw [update_of_ne hs, update_of_ne hs]
    rfl

variable {ids : Finset Int} {n : ℕ}

/-- Writing a well-formed ring to a slot that is not free. -/
theorem Clean.setStore (h : Clean ids n c)
    {store : SlotCheckpointStore τ} (hstore : store.Wellformed c.checkpointCount)
    (hfree : slot ∈ c.freeSlots → store.marks = ∅) : Clean ids n (c.setStore slot store) where
  counted := ⟨h.counted.counted, h.counted.size, h.counted.noError⟩
  rings s st hs := by
    have hs' : update c.checkpoints slot (some store) s = some st := hs
    by_cases heq : s = slot
    · rw [heq, update_self] at hs'
      cases hs'
      exact hstore
    · rw [update_of_ne heq] at hs'
      exact h.rings s st hs'
  fresh s hs := by
    rw [setStore_slotMarks]
    by_cases heq : s = slot
    · rw [heq, update_self]
      exact hfree (heq ▸ hs)
    · rw [update_of_ne heq]
      exact h.fresh s hs

/-! ## §2  Detaching -/

/-- `copyCheckpoints` copies the marks to a slot without marks. -/
theorem Clean.copyCheckpoints (h : Clean ids n c) {src dst : ℕ} (hdst : c.slotMarks dst = ∅) :
    (c.copyCheckpoints src dst).slotMarks = update c.slotMarks dst (c.slotMarks src) ∧
      ∀ slot store, (c.copyCheckpoints src dst).checkpoints slot = some store →
        store.Wellformed c.checkpointCount := by
  have hnone : c.slotMarks src = ∅ → update c.slotMarks dst (c.slotMarks src) = c.slotMarks := by
    intro hsrc
    rw [hsrc, ← hdst, update_eq_self]
  unfold Recurrent.copyCheckpoints
  by_cases hcount : c.checkpointCount = 0
  · rw [if_pos hcount]
    refine ⟨(hnone ?_).symm, h.rings⟩
    -- rings of length zero have no marks
    rw [← checkpointStore_marks]
    have hlen := (h.store src).length
    rw [hcount] at hlen
    refine marks_eq_empty fun e he => ?_
    rw [length_eq_zero_iff.mp hlen] at he
    cases he
  · rw [if_neg hcount]
    cases hs : c.checkpoints src with
    | none =>
      refine ⟨(hnone ?_).symm, h.rings⟩
      rw [slotMarks, hs]
    | some store =>
      have hwf := h.rings src store hs
      have hmarks : c.slotMarks src = store.marks := by rw [slotMarks, hs]
      by_cases hsize : store.size = 0
      · simp only [if_pos hsize]
        exact ⟨(hnone (hmarks.trans (hwf.marks_of_size hsize))).symm, h.rings⟩
      simp only [if_neg hsize]
      have hd := h.store dst
      have hcopy : (c.setStore dst (store.copyTo (c.checkpointStore dst))).slotMarks = _ :=
        setStore_slotMarks c dst _
      refine ⟨?_, fun slot st hst => ?_⟩
      · rw [hmarks, ← copyTo_marks hwf hd]
        exact hcopy
      have hst' : update c.checkpoints dst
        (some (store.copyTo (c.checkpointStore dst))) slot = some st := hst
      by_cases heq : slot = dst
      · rw [heq, update_self] at hst'
        cases hst'
        exact hwf.copyTo hd hsize
      · rw [update_of_ne heq] at hst'
        exact h.rings slot st hst'

theorem Clean.free_notMem (h : Clean ids n c)
    {rest : List ℕ} (hfree : c.freeSlots = slot :: rest) : slot ∉ rest := by
  have hnodup := h.counted.counted.nodup
  rw [show c.alloc.free = slot :: rest from hfree, nodup_cons] at hnodup
  exact hnodup.1

/-- **A detachment is not visible.** -/
theorem Shared.detached_view
    (hs : c.Shared seq slot) (h : Clean ids n c) {newSlot : ℕ} {rest : List ℕ}
    (hfree : c.freeSlots = newSlot :: rest) :
    (c.detached seq slot newSlot rest).view = c.view ∧
      Clean ids n (c.detached seq slot newSlot rest) := by
  have hmem : newSlot ∈ c.freeSlots := by rw [hfree]; exact mem_cons_self
  obtain ⟨hmarks, hrings⟩ := @Clean.copyCheckpoints _ _ _ _ h slot _ (h.fresh newSlot hmem)
  have hm : (c.detached seq slot newSlot rest).slotMarks =
      update c.slotMarks newSlot (c.slotMarks slot) := hmarks
  have hcontent : (c.detached seq slot newSlot rest).content =
      update c.content newSlot (c.content slot) := by
    funext s
    rw [content, hm]
    by_cases heq : s = newSlot
    · rw [heq, update_self, update_self]
      exact congrArg (Content.mk · _) (update_self _ _ _)
    · rw [update_of_ne heq, update_of_ne heq]
      exact congrArg (Content.mk · _) (update_of_ne heq _ _)
  refine ⟨?_, hs.counted h.counted hfree, hrings, fun s hmem' => ?_⟩
  · funext q
    rw [view, detached_alloc, hcontent, h.counted.counted.detach_view hs.owner hmem]
    rfl
  rw [hm, update_of_ne]
  · refine h.fresh s ?_
    rw [hfree]
    exact mem_cons_of_mem _ hmem'
  · rintro rfl
    exact h.free_notMem hfree hmem'

/-- The fields that neither a detachment nor `EnsureWritable` writes. -/
structure SameCall (c d : Recurrent τ) : Prop where
  kv : d.kv = c.kv
  seqs : d.curSeqs = c.curSeqs
  count : d.checkpointCount = c.checkpointCount
  pending : d.pendingRestore = c.pendingRestore
  plan : d.curCheckpointPos = c.curCheckpointPos
  planned : d.curCheckpointSlots = c.curCheckpointSlots

/-- **`EnsureWritable` is not visible.** -/
theorem Clean.ensureLoop (hcard : ids.card ≤ n) (h : Clean ids n c) (seqs : List Int) (i : ℕ) :
    Clean ids n (ensureLoop seqs i c).1 ∧ (ensureLoop seqs i c).1.view = c.view ∧
      SameCall c (ensureLoop seqs i c).1 := by
  have hdetach : ∀ (d : Recurrent τ) (seq : Int) (slot newSlot : ℕ) (rest slots : List ℕ),
      SlotsCounted ids n d → (Clean ids n d ∧ d.view = c.view ∧ SameCall c d) →
      d.Shared seq slot → d.freeSlots = newSlot :: rest →
      Clean ids n { d.detached seq slot newSlot rest with curSlots := slots } ∧
        ({ d.detached seq slot newSlot rest with curSlots := slots } : Recurrent τ).view = c.view ∧
        SameCall c { d.detached seq slot newSlot rest with curSlots := slots } := by
    rintro d seq slot newSlot rest slots _ ⟨hd, hview, hsame⟩ hs hfree
    obtain ⟨hv, hc⟩ := hs.detached_view hd hfree
    refine ⟨⟨⟨hc.counted.counted, hc.counted.size, hc.counted.noError⟩, hc.rings, hc.fresh⟩,
      hv.trans hview, ?_⟩
    exact ⟨hsame.kv, hsame.seqs, hsame.count, hsame.pending, hsame.plan, hsame.planned⟩
  exact (ensureLoop_rule hcard hdetach seqs i c h.counted
    ⟨h, rfl, rfl, rfl, rfl, rfl, rfl, rfl⟩).2.1

/-- `ensureWritable` is not visible. -/
theorem Clean.ensureWritableOnce (hcard : ids.card ≤ n) (h : Clean ids n c) :
    Clean ids n c.ensureWritableOnce ∧ c.ensureWritableOnce.view = c.view ∧
      SameCall c c.ensureWritableOnce := by
  obtain ⟨hc, hv, hs⟩ := h.ensureLoop hcard c.curSeqs 0
  rw [ensureWritableOnce_eq hcard h.counted]
  split
  · exact ⟨h, rfl, rfl, rfl, rfl, rfl, rfl, rfl⟩
  split
  · exact ⟨⟨⟨hc.counted.counted, hc.counted.size, hc.counted.noError⟩, hc.rings, hc.fresh⟩, hv,
      hs.kv, hs.seqs, hs.count, hs.pending, hs.plan, hs.planned⟩
  · exact ⟨⟨⟨h.counted.counted, h.counted.size, h.counted.noError⟩, h.rings, h.fresh⟩, rfl,
      rfl, rfl, rfl, rfl, rfl, rfl⟩

/-! ## §3  Planning and `StartForward` -/

/-- Only the slots and rings that matter to the views have changed by what is
not visible. -/
structure Unseen (c d : Recurrent τ) : Prop where
  alloc : d.alloc = c.alloc
  states : d.states = c.states
  marks : d.slotMarks = c.slotMarks

theorem Unseen.view {c d : Recurrent τ} (h : Unseen c d) : d.view = c.view := by
  funext q
  have hcontent : d.content = c.content := by
    funext s
    rw [content, content, h.states, h.marks]
  rw [Recurrent.view, Recurrent.view, h.alloc, hcontent]

def PlanFits (batch : Batch) (seqs : List Int) (plan : List Int) : Prop :=
  ∀ (i : ℕ) seq p, seqs[i]? = some seq → plan[i]? = some p → 0 ≤ p → posMax batch seq = some p

structure Planned (batch : Batch) (l : List (Int × ℕ)) (c d : Recurrent τ) : Prop where
  marks : d.slotMarks = c.slotMarks
  rings : (∀ slot store, c.checkpoints slot = some store → store.Wellformed c.checkpointCount) →
    ∀ slot store, d.checkpoints slot = some store → store.Wellformed c.checkpointCount
  plan : ∃ ps, d.curCheckpointPos = c.curCheckpointPos ++ ps ∧
    List.Forall₂ (fun q p => 0 ≤ p → posMax batch q.1 = some p) l ps

theorem planSeq_planned (batch : Batch) (c : Recurrent τ) (q : Int × ℕ) :
    Planned batch [q] c (planSeq batch c q) := by
  have hskip : Planned batch [q] c { c with curCheckpointPos := c.curCheckpointPos ++ [-1] } := by
    refine ⟨rfl, fun h => h, [-1], rfl, .cons (fun h => ?_) .nil⟩
    exact absurd h (by decide)
  unfold planSeq
  extract_lets skip store d
  cases hmax : posMax batch q.1 with
  | none => exact hskip
  | some pos =>
    show Planned batch [q] c (if pos < c.checkpointMinPos then skip else _)
    split
    · exact hskip
    refine ⟨?_, fun h slot st hst => ?_, [_], rfl, .cons (fun h => ?_) .nil⟩
    · show (c.setStore q.2 (c.checkpointStore q.2)).slotMarks = c.slotMarks
      rw [setStore_slotMarks, checkpointStore_marks, update_eq_self]
    · have hst' : update c.checkpoints q.2 (some (c.checkpointStore q.2)) slot = some st := hst
      by_cases heq : slot = q.2
      · rw [heq, update_self] at hst'
        cases hst'
        rw [checkpointStore]
        cases hs : c.checkpoints q.2 with
        | none => exact new_wellformed _
        | some store => exact h q.2 store hs
      · rw [update_of_ne heq] at hst'
        exact h slot st hst'
    · split at h
      · rename_i hdue
        rw [if_pos hdue]
        exact hmax
      · exact absurd h (by decide)

theorem planFold_planned (batch : Batch) (l : List (Int × ℕ)) (c : Recurrent τ) :
    Planned batch l c (l.foldl (planSeq batch) c) := by
  induction l generalizing c with
  | nil => exact ⟨rfl, fun h => h, [], (append_nil _).symm, .nil⟩
  | cons q l ih =>
    rw [foldl_cons]
    have h₁ := planSeq_planned batch c q
    have h₂ := ih (planSeq batch c q)
    obtain ⟨pos, cps, hf⟩ := planSeq_frame batch c q
    have hcount : (planSeq batch c q).checkpointCount = c.checkpointCount := by rw [hf]
    obtain ⟨ps₁, hps₁, hall₁⟩ := h₁.plan
    obtain ⟨ps₂, hps₂, hall₂⟩ := h₂.plan
    refine ⟨h₂.marks.trans h₁.marks, fun h => ?_, ps₁ ++ ps₂, ?_, ?_⟩
    · have h' := h₂.rings
      rw [hcount] at h'
      exact h' (h₁.rings h)
    · rw [hps₂, hps₁, append_assoc]
    · exact rel_append hall₁ hall₂

variable {batch : Batch}

/-- A plan for the pairs of `curSeqs` and `curSlots` fits. -/
theorem planFits_of_forall₂ {seqs : List Int} {slots : List ℕ} {ps : List Int}
    (hlen : seqs.length = slots.length)
    (h : List.Forall₂ (fun (q : Int × ℕ) p => 0 ≤ p → posMax batch q.1 = some p)
      (seqs.zip slots) ps) : PlanFits batch seqs ps := by
  intro i seq p hseq hp hpos
  have hlt : i < slots.length := hlen ▸ (List.getElem?_eq_some_iff.mp hseq).1
  have hslot : slots[i]? = some slots[i] := getElem?_eq_getElem _
  have hzip : (seqs.zip slots)[i]? = some (seq, slots[i]) :=
    getElem?_zip_eq_some.mpr ⟨hseq, hslot⟩
  obtain ⟨_, hall⟩ := forall₂_iff_get.mp h
  obtain ⟨h₁, hq⟩ := List.getElem?_eq_some_iff.mp hzip
  obtain ⟨h₂, hp'⟩ := List.getElem?_eq_some_iff.mp hp
  have := hall i h₁ h₂
  rw [get_eq_getElem, get_eq_getElem, hq, hp'] at this
  exact this hpos

/-- Planning is not visible, and its plan fits. -/
theorem Clean.planCheckpoints (h : Clean ids n c) (batch : Batch) :
    Clean ids n (c.planCheckpoints batch) ∧ (c.planCheckpoints batch).view = c.view ∧
      (c.curSeqs.length = c.curSlots.length →
        PlanFits batch c.curSeqs (c.planCheckpoints batch).curCheckpointPos) := by
  obtain ⟨pos, cps, hf⟩ := planCheckpoints_frame c batch
  have hspec : (c.planCheckpoints batch).slotMarks = c.slotMarks ∧
      (∀ slot store, (c.planCheckpoints batch).checkpoints slot = some store →
        store.Wellformed c.checkpointCount) ∧
      (c.curSeqs.length = c.curSlots.length →
        PlanFits batch c.curSeqs (c.planCheckpoints batch).curCheckpointPos) := by
    unfold Recurrent.planCheckpoints
    extract_lets d
    split
    · exact ⟨rfl, h.rings, fun _ i seq p _ hp => by simp [d] at hp⟩
    have hd := planFold_planned batch (d.curSeqs.zip d.curSlots) d
    obtain ⟨ps, hps, hall⟩ := hd.plan
    refine ⟨hd.marks, hd.rings h.rings, fun hlen => ?_⟩
    rw [hps]
    exact planFits_of_forall₂ hlen hall
  obtain ⟨hmarks, hrings, hfits⟩ := hspec
  refine ⟨⟨?_, ?_, ?_⟩, ?_, hfits⟩
  · rw [hf]
    exact ⟨h.counted.counted, h.counted.size, h.counted.noError⟩
  · rw [show (c.planCheckpoints batch).checkpointCount = c.checkpointCount by rw [hf]]
    exact hrings
  · rw [hmarks, show (c.planCheckpoints batch).freeSlots = c.freeSlots by rw [hf]]
    exact h.fresh
  · refine Unseen.view ⟨?_, ?_, hmarks⟩
    · rw [hf]
      rfl
    · rw [hf]

/-- `StartForward` gives a sequence without a slot an empty state without
checkpoints, and changes nothing else that is visible. -/
def startView (batch : Batch) (view : Int → Option (Content τ)) (q : Int) : Option (Content τ) :=
  if q ∈ batchSeqs batch then some ((view q).getD ⟨[], ∅⟩) else view q

/-- The state after the slots of a pass have been assigned and zeroed. -/
theorem Assigned.zeroed {c d : Recurrent τ}
    {newSlots : List ℕ} (h : Assigned ids n (batchSeqs batch) c d newSlots) (hc : Clean ids n c) :
    Clean ids n (d.zeroSlots newSlots) ∧ (d.zeroSlots newSlots).view = startView batch c.view := by
  obtain ⟨owner, count, free, cur, hframe⟩ := h.frame
  have hmarks : (d.zeroSlots newSlots).slotMarks = c.slotMarks := by
    rw [hframe]
    rfl
  have hstates : d.states = c.states := by rw [hframe]
  refine ⟨⟨⟨h.counted.counted, h.counted.size, h.counted.noError⟩, ?_, ?_⟩, ?_⟩
  · rw [hframe]
    exact hc.rings
  · intro slot hslot
    rw [hmarks]
    exact hc.fresh slot (h.freeSlots slot hslot).1
  funext q
  have hslot : (d.zeroSlots newSlots).slotForSeq q = d.slotForSeq q := rfl
  have hview : ∀ slot, d.slotForSeq q = some slot → (d.zeroSlots newSlots).view q =
      some ⟨if slot ∈ newSlots then [] else c.states slot, c.slotMarks slot⟩ := by
    intro slot hs
    rw [view_of_slot (hslot.trans hs), content, hmarks, ← hstates]
    rfl
  rw [startView]
  cases hold : c.slotForSeq q with
  | some slot =>
    -- the sequence keeps its slot, which is not a new one
    have hnew : slot ∉ newSlots := by
      intro hmem
      rw [(h.new q slot (h.owner q slot hold)).mp hmem] at hold
      cases hold
    rw [hview slot (h.owner q slot hold), if_neg hnew, view_of_slot hold]
    split
    · rfl
    · rfl
  | none =>
    have hnone : c.view q = none := by
      rw [view, Table.view, show c.alloc.owner q = none from hold]
      rfl
    by_cases hq : q ∈ batchSeqs batch
    · obtain ⟨slot, hs⟩ := Option.isSome_iff_exists.mp ((h.isSome q).mpr (Or.inl hq))
      have hmem := (h.new q slot hs).mpr hold
      rw [hview slot hs, if_pos hmem, if_pos hq, hnone, hc.fresh slot (h.fromFree slot hmem)]
      rfl
    have hs : d.slotForSeq q = none := by
      have := (h.isSome q).not.mpr (by rw [hold]; simpa using hq)
      simpa using this
    rw [if_neg hq, hnone, view, Table.view,
      show (d.zeroSlots newSlots).alloc.owner q = none from hs]
    rfl

/-! ## §4  The layers -/

/-- Distinct keys are each written once. -/
theorem foldl_update_nodup {β : Type} (l : List (ℕ × β)) (f : ℕ → β)
    (hnodup : (l.map Prod.fst).Nodup) :
    (∀ p ∈ l, l.foldl (fun f p => update f p.1 p.2) f p.1 = p.2) ∧
    ∀ s, s ∉ l.map Prod.fst → l.foldl (fun f p => update f p.1 p.2) f s = f s := by
  induction l generalizing f with
  | nil => exact ⟨fun p hp => absurd hp not_mem_nil, fun _ _ => rfl⟩
  | cons a l ih =>
    rw [map_cons, nodup_cons] at hnodup
    obtain ⟨hin, hout⟩ := ih (update f a.1 a.2) hnodup.2
    rw [foldl_cons]
    refine ⟨fun p hp => ?_, fun s hs => ?_⟩
    · rcases mem_cons.mp hp with rfl | hp'
      · rw [hout p.1 hnodup.1, update_self]
      · exact hin p hp'
    · rw [map_cons, mem_cons, not_or] at hs
      rw [hout s hs.2, update_of_ne hs.1]

/-- A capture into a slot that has none yet in this pass records one mark. -/
theorem capture_spec (hplanned : c.curCheckpointSlots slot = none)
    (hrings : ∀ s store, c.checkpoints s = some store → store.Wellformed c.checkpointCount)
    (pos : Int) (state : List τ) :
    (c.capture slot pos state).slotMarks slot ⊆ insert (pos, state) (c.slotMarks slot) ∧
      (∀ s, s ≠ slot → (c.capture slot pos state).slotMarks s = c.slotMarks s) ∧
      (∀ s, s ≠ slot → (c.capture slot pos state).curCheckpointSlots s = c.curCheckpointSlots s) ∧
      ∀ s store, (c.capture slot pos state).checkpoints s = some store →
        store.Wellformed c.checkpointCount := by
  have hsame : c.slotMarks slot ⊆ insert (pos, state) (c.slotMarks slot) := Set.subset_insert _ _
  have hstore : (c.checkpointStore slot).Wellformed c.checkpointCount := by
    rw [checkpointStore]
    cases hs : c.checkpoints slot with
    | none => exact new_wellformed _
    | some store => exact hrings slot store hs
  by_cases hskip : pos < 0 ∨ c.checkpointCount = 0
  · have heq : c.capture slot pos state = c := by
      unfold capture checkpointIndexForSlot
      by_cases hpos : pos < 0
      · rw [if_pos hpos]
      · rw [if_neg hpos, if_pos (hskip.resolve_left hpos)]
    rw [heq]
    exact ⟨hsame, fun _ _ => rfl, fun _ _ => rfl, hrings⟩
  · obtain ⟨hpos, hcount⟩ := not_or.mp hskip
    have hne : (c.checkpointStore slot).entries ≠ [] := by
      intro hnil
      have := hstore.length
      rw [hnil] at this
      exact hcount this.symm
    have heq : ∃ slots, c.capture slot pos state =
        { c.setStore slot ((c.checkpointStore slot).recordState pos state) with
          curCheckpointSlots := update c.curCheckpointSlots slot slots } := by
      refine ⟨some (c.checkpointStore slot).next, ?_⟩
      unfold capture checkpointIndexForSlot
      rw [if_neg hpos, if_neg hcount, hplanned]
      have hrec : ∃ store, (c.checkpointStore slot).record pos =
          (store, some (c.checkpointStore slot).next) := by
        unfold record
        rw [if_neg hne]
        exact ⟨_, rfl⟩
      obtain ⟨store, hrec⟩ := hrec
      unfold recordState
      simp only [hrec]
      unfold setStore checkpointStore
      simp only [update_self, Option.getD_some, update_idem]
    obtain ⟨slots, heq⟩ := heq
    have hmarks : (c.capture slot pos state).slotMarks = update c.slotMarks slot
        ((c.checkpointStore slot).recordState pos state).marks := by
      rw [heq]
      exact setStore_slotMarks c slot _
    refine ⟨?_, fun s hs => ?_, fun s hs => ?_, fun s store hst => ?_⟩
    · rw [hmarks, update_self, ← checkpointStore_marks]
      exact recordState_marks _ _ _
    · rw [hmarks, update_of_ne hs]
    · rw [heq]
      exact update_of_ne hs _ _
    rw [heq] at hst
    have hst' : update c.checkpoints slot
      (some ((c.checkpointStore slot).recordState pos state)) s = some store := hst
    by_cases hss : s = slot
    · rw [hss, update_self] at hst'
      cases hst'
      exact hstore.recordState pos state
    · rw [update_of_ne hss] at hst'
      exact hrings s store hst'

structure Captured (items : List ((ℕ × List τ) × Int)) (c d : Recurrent τ) : Prop where
  marks : ∀ slot m, m ∈ d.slotMarks slot → m ∈ c.slotMarks slot ∨ ((slot, m.2), m.1) ∈ items
  others : ∀ slot, slot ∉ items.map (fun p => p.1.1) → d.slotMarks slot = c.slotMarks slot
  rings : ∀ slot store, d.checkpoints slot = some store → store.Wellformed c.checkpointCount

/-- Captures into distinct slots record what is planned for each. -/
theorem captureFold_spec (items : List ((ℕ × List τ) × Int)) (c : Recurrent τ)
    (hnodup : (items.map fun p => p.1.1).Nodup)
    (hplanned : ∀ p ∈ items, c.curCheckpointSlots p.1.1 = none)
    (hrings : ∀ s store, c.checkpoints s = some store → store.Wellformed c.checkpointCount) :
    Captured items c (items.foldl (fun c p => c.capture p.1.1 p.2 p.1.2) c) := by
  induction items generalizing c with
  | nil => exact ⟨fun slot m hm => Or.inl hm, fun _ _ => rfl, hrings⟩
  | cons p items ih =>
    rw [map_cons, nodup_cons] at hnodup
    obtain ⟨hown, hothers, hslots, hwf⟩ :=
      capture_spec (hplanned p mem_cons_self) hrings p.2 p.1.2
    obtain ⟨slots, cps, hf⟩ := capture_frame c p.1.1 p.2 p.1.2
    have hcount : (c.capture p.1.1 p.2 p.1.2).checkpointCount = c.checkpointCount := by rw [hf]
    have hne : ∀ q ∈ items, q.1.1 ≠ p.1.1 := by
      intro q hq heq
      exact hnodup.1 (heq ▸ mem_map_of_mem hq)
    have hrest := ih (c.capture p.1.1 p.2 p.1.2) hnodup.2
      (fun q hq => (hslots q.1.1 (hne q hq)).trans (hplanned q (mem_cons_of_mem _ hq)))
      (by rw [hcount]; exact hwf)
    refine ⟨fun slot m hm => ?_, fun slot hs => ?_, by rw [← hcount]; exact hrest.rings⟩
    · rcases hrest.marks slot m hm with hm' | hm'
      · by_cases heq : slot = p.1.1
        · rw [heq] at hm' ⊢
          rcases hown hm' with rfl | hold
          · exact Or.inr mem_cons_self
          · exact Or.inl hold
        · rw [hothers slot heq] at hm'
          exact Or.inl hm'
      · exact Or.inr (mem_cons_of_mem _ hm')
    · rw [map_cons, mem_cons, not_or] at hs
      exact (hrest.others slot hs.2).trans (hothers slot hs.1)

theorem zip_keys_sublist {α β γ : Type} (f : α → γ) (l : List α) (ps : List β) :
    ((l.zip ps).map fun p => f p.1).Sublist (l.map f) := by
  induction l generalizing ps with
  | nil => exact List.Sublist.refl _
  | cons a l ih =>
    cases ps with
    | nil => exact nil_sublist _
    | cons p ps => exact (ih ps).cons_cons _

/-- What a pass does to the view of a sequence: one of the batch has its tokens
appended to its state, and at most one more checkpoint, of the new state at its
last position. -/
structure Advanced (batch : Batch) (tokens : List τ) (q : Int) (old new : Option (Content τ)) :
    Prop where
  outside : q ∉ batchSeqs batch → new = old
  inside : q ∈ batchSeqs batch → ∃ x, new = some x ∧
    x.state = (old.getD ⟨[], ∅⟩).state ++ seqTokens batch tokens q ∧
    ∀ m ∈ x.marks, m ∈ (old.getD ⟨[], ∅⟩).marks ∨ posMax batch q = some m.1 ∧ m.2 = x.state

theorem slotMarks_nonneg {m : Int × List τ} (hm : m ∈ c.slotMarks slot) : 0 ≤ m.1 := by
  rw [slotMarks] at hm
  split at hm
  · exact hm.elim
  · exact hm.2

theorem Agrees.length (h : c.Agrees) : c.curSeqs.length = c.curSlots.length := by
  have := congrArg List.length h
  rw [length_map, length_map] at this
  exact this.symm

theorem Agrees.getElem (h : c.Agrees) {i : ℕ} (hseq : c.curSeqs[i]? = some seq) :
    ∃ slot, c.curSlots[i]? = some slot ∧ c.slotForSeq seq = some slot := by
  have hi : (c.curSlots.map some)[i]? = (c.curSeqs.map c.slotForSeq)[i]? := by rw [h]
  rw [getElem?_map, getElem?_map, hseq] at hi
  obtain ⟨slot, hslot, heq⟩ := Option.map_eq_some_iff.mp hi
  exact ⟨slot, hslot, heq.symm⟩

/-- **The layers** append the tokens of the batch to the states. -/
theorem Clean.updateStates (h : Clean ids n c) (hw : Writable batch c)
    (hplan : PlanFits batch c.curSeqs c.curCheckpointPos)
    (hplanned : ∀ s ∈ c.curSlots, c.curCheckpointSlots s = none) (tokens : List τ) :
    Clean ids n (c.updateStates batch tokens) ∧
      ∀ q, Advanced batch tokens q (c.view q) ((c.updateStates batch tokens).view q) := by
  have hlen := hw.agrees.length
  have hkeys : (c.newStates batch tokens).map Prod.fst = c.curSlots := by
    rw [newStates, map_map]
    exact map_snd_zip (by omega)
  have hnodup : ((c.newStates batch tokens).map Prod.fst).Nodup := by
    rw [hkeys]
    exact hw.distinct
  obtain ⟨hin, hout⟩ := foldl_update_nodup (c.newStates batch tokens) c.states hnodup
  have hkeymem : ∀ p ∈ (c.newStates batch tokens).zip c.curCheckpointPos, p.1.1 ∈ c.curSlots := by
    intro p hp
    have hmem : p.1.1 ∈ ((c.newStates batch tokens).zip c.curCheckpointPos).map fun p => p.1.1 :=
      mem_map_of_mem hp
    rw [← hkeys]
    exact (zip_keys_sublist Prod.fst _ _).subset hmem
  have hcap := captureFold_spec ((c.newStates batch tokens).zip c.curCheckpointPos) { c with
      buffers := true
      states := (c.newStates batch tokens).foldl (fun states p => update states p.1 p.2) c.states }
    ((zip_keys_sublist Prod.fst _ _).nodup hnodup) (fun p hp => hplanned _ (hkeymem p hp)) h.rings
  obtain ⟨slots, cps, hf⟩ := updateStates_frame c batch tokens
  have hslot : (c.updateStates batch tokens).slotForSeq = c.slotForSeq := by rw [hf]
  have hstates : (c.updateStates batch tokens).states = (c.newStates batch tokens).foldl
      (fun states p => update states p.1 p.2) c.states := by rw [hf]
  have hkeysub : ∀ slot, slot ∉ c.curSlots →
      slot ∉ ((c.newStates batch tokens).zip c.curCheckpointPos).map fun p => p.1.1 := by
    intro slot hs hmem
    obtain ⟨p, hp, rfl⟩ := mem_map.mp hmem
    exact hs (hkeymem p hp)
  -- a slot that is not in the pass is untouched
  have huntouched : ∀ slot, slot ∉ c.curSlots →
      (c.updateStates batch tokens).content slot = c.content slot := by
    intro slot hs
    rw [content, content, hstates, hout slot (by rw [hkeys]; exact hs),
      show (c.updateStates batch tokens).slotMarks slot = c.slotMarks slot from
        hcap.others slot (hkeysub slot hs)]
  have hmine : ∀ slot ∈ c.curSlots, ∃ seq ∈ c.curSeqs, c.slotForSeq seq = some slot := by
    intro slot hs
    have hmem : some slot ∈ c.curSlots.map some := mem_map_of_mem hs
    rw [hw.agrees] at hmem
    exact mem_map.mp hmem
  refine ⟨⟨?_, ?_, ?_⟩, fun q => ⟨fun hq => ?_, fun hq => ?_⟩⟩
  · rw [hf]
    exact ⟨h.counted.counted, h.counted.size, h.counted.noError⟩
  · rw [show (c.updateStates batch tokens).checkpointCount = c.checkpointCount by rw [hf]]
    exact hcap.rings
  · intro slot hslot'
    rw [hf] at hslot'
    have hnot : slot ∉ c.curSlots := by
      intro hmem
      obtain ⟨seq, _, hseq⟩ := hmine slot hmem
      exact h.counted.counted.not_mem_free hseq hslot'
    rw [show (c.updateStates batch tokens).slotMarks slot = c.slotMarks slot from
      hcap.others slot (hkeysub slot hnot)]
    exact h.fresh slot hslot'
  · cases hown : c.slotForSeq q with
    | none =>
      rw [view, view, Table.view, Table.view,
        show (c.updateStates batch tokens).alloc.owner q = none by
          show (c.updateStates batch tokens).slotForSeq q = none
          rw [hslot, hown],
        show c.alloc.owner q = none from hown]
      rfl
    | some slot =>
      have hnot : slot ∉ c.curSlots := by
        intro hmem
        obtain ⟨seq, hseq, hs⟩ := hmine slot hmem
        have hone := hw.single slot hmem
        have : q = seq := h.counted.counted.owner_unique (Nat.le_of_eq hone) hown hs
        rw [this, mem_batchSeqs] at hq
        exact hq ((hw.seqs seq).mp hseq)
      rw [view_of_slot hown, view_of_slot (hslot ▸ hown), huntouched slot hnot]
  · obtain ⟨i, hi⟩ := mem_iff_getElem?.mp ((hw.seqs q).mpr (mem_batchSeqs.mp hq))
    obtain ⟨slot, hsi, hown⟩ := hw.agrees.getElem hi
    have hnew : (slot, c.states slot ++ seqTokens batch tokens q) ∈ c.newStates batch tokens :=
      mem_map.mpr ⟨(q, slot), mem_of_getElem? (getElem?_zip_eq_some.mpr ⟨hi, hsi⟩), rfl⟩
    have hst : (c.updateStates batch tokens).states slot =
        c.states slot ++ seqTokens batch tokens q := by
      rw [hstates]
      exact hin _ hnew
    refine ⟨_, view_of_slot (hslot ▸ hown), ?_, fun m hm => ?_⟩
    · rw [view_of_slot hown]
      exact hst
    have hpos := slotMarks_nonneg hm
    rw [view_of_slot hown]
    rcases hcap.marks slot m hm with hold | hitem
    · exact Or.inl hold
    -- the item of this slot is the one of `q`
    refine Or.inr ?_
    obtain ⟨j, hj⟩ := mem_iff_getElem?.mp hitem
    obtain ⟨hnj, hpj⟩ := getElem?_zip_eq_some.mp hj
    rw [newStates, getElem?_map] at hnj
    obtain ⟨⟨seq, slot'⟩, hzj, heq⟩ := Option.map_eq_some_iff.mp hnj
    obtain ⟨hseqj, hslotj⟩ := getElem?_zip_eq_some.mp hzj
    obtain ⟨rfl, hstate⟩ := Prod.mk.inj heq
    have hij : j = i := by
      obtain ⟨hlj, hgj⟩ := List.getElem?_eq_some_iff.mp hslotj
      obtain ⟨hli, hgi⟩ := List.getElem?_eq_some_iff.mp hsi
      exact (hw.distinct.getElem_inj_iff).mp (hgj.trans hgi.symm)
    rw [hij, hi] at hseqj
    cases hseqj
    refine ⟨hplan i _ m.1 hi (hij ▸ hpj) hpos, ?_⟩
    rw [← hstate]
    exact hst.symm

/-! ## §5  A forward pass -/

/-- The state after a `StartForward` that returned nil. -/
structure Began (ids : Finset Int) (n : ℕ) (batch : Batch) (c d : Recurrent τ) : Prop where
  clean : Clean ids n d
  view : d.view = startView batch c.view
  plan : PlanFits batch d.curSeqs d.curCheckpointPos
  planned : batch ≠ [] → ∀ s, d.curCheckpointSlots s = none
  kv : d.kv = c.kv
  count : d.checkpointCount = c.checkpointCount
  pending : d.pendingRestore = c.pendingRestore

/-- **`StartForward`** once the causal cache has returned nil. -/
theorem Clean.startSlots (hcard : ids.card ≤ n)
    (h : Clean ids n c) (hids : ∀ e ∈ batch, e.seq ∈ ids)
    (hnil : (c.startSlots batch false).2 = none) :
    Began ids n batch c (c.startSlots batch false).1 := by
  have hcases := startSlots_cases hcard h.counted hids false
  generalize c.startSlots batch false = r at hcases hnil
  cases hcases with
  | empty _ hempty =>
    refine ⟨⟨⟨h.counted.counted, h.counted.size, rfl⟩, h.rings, h.fresh⟩, ?_, ?_, ?_, rfl, rfl, rfl⟩
    · funext q
      rw [startView, hempty, if_neg (by rw [batchSeqs]; exact not_mem_nil)]
      rfl
    · intro i seq p hseq
      cases hseq
    · exact fun hne => absurd hempty hne
  | notSupported _ => cases hnil
  | started d newSlots hne hd =>
    obtain ⟨owner, count, free, cur, hframe⟩ := hd.frame
    have hbase : Clean ids n { c with curSeqs := batchSeqs batch, curSlots := [] } :=
      ⟨⟨h.counted.counted, h.counted.size, h.counted.noError⟩, h.rings, h.fresh⟩
    obtain ⟨hz, hview⟩ := hd.zeroed hbase
    have hseqs : d.curSeqs = batchSeqs batch := by rw [hframe]
    have hlen : d.curSeqs.length = d.curSlots.length := by
      have := congrArg List.length hd.slots
      rw [length_map, length_map] at this
      rw [hseqs]
      exact this.symm
    have hz' : Clean ids n { d.zeroSlots newSlots with
        writableEnsured := false, writableError := none, reserveCheckpoints := false } :=
      ⟨⟨hz.counted.counted, hz.counted.size, rfl⟩, hz.rings, hz.fresh⟩
    obtain ⟨hc, hv, hplan⟩ := hz'.planCheckpoints batch
    obtain ⟨pos, cps, hf⟩ := finalizeStartForward_frame (d.zeroSlots newSlots) batch false
    have hd : ∃ e : Recurrent τ, e = (d.zeroSlots newSlots).finalizeStartForward batch false ∧
        e.curSeqs = d.curSeqs ∧ (∀ s, e.curCheckpointSlots s = none) ∧ e.kv = c.kv ∧
        e.checkpointCount = c.checkpointCount ∧ e.pendingRestore = c.pendingRestore := by
      refine ⟨_, rfl, ?_, ?_, ?_, ?_, ?_⟩ <;> rw [hf]
      · rfl
      · exact fun _ => rfl
      · rw [hframe]
        rfl
      · rw [hframe]
        rfl
      · rw [hframe]
        rfl
    obtain ⟨e, rfl, hseq, hslots, hkv, hcount, hpending⟩ := hd
    refine ⟨hc, hv.trans hview, ?_, fun _ => hslots, hkv, hcount, hpending⟩
    rw [hseq]
    exact hplan hlen

/-- A `StartForward` that reserves or fails is not visible. -/
theorem Clean.startForward_unseen (hcard : ids.card ≤ n)
    (h : Clean ids n c) (hids : ∀ e ∈ batch, e.seq ∈ ids) (reserve : Bool) (maxMoves : Int)
    (hno : reserve = true ∨ (c.startForward batch reserve maxMoves).2 ≠ none) :
    Clean ids n (c.startForward batch reserve maxMoves).1 ∧
      (c.startForward batch reserve maxMoves).1.view = c.view := by
  rw [startForward] at hno ⊢
  generalize c.kv.startForward batch reserve maxMoves = f at hno ⊢
  obtain ⟨kv, moves, err⟩ := f
  have hkv : Clean ids n { c with kv := kv } :=
    ⟨⟨h.counted.counted, h.counted.size, h.counted.noError⟩, h.rings, h.fresh⟩
  cases err with
  | some e => exact ⟨hkv, rfl⟩
  | none =>
    have hcases := startSlots_cases hcard hkv.counted hids reserve
    have hno' : reserve = true ∨
        (Recurrent.startSlots { c with kv := kv } batch reserve).2 ≠ none := hno
    generalize Recurrent.startSlots { c with kv := kv } batch reserve = r at hcases hno'
    cases hcases with
    | empty _ _ => exact ⟨⟨⟨h.counted.counted, h.counted.size, rfl⟩, h.rings, h.fresh⟩, rfl⟩
    | notSupported _ =>
      exact ⟨⟨⟨h.counted.counted, h.counted.size, h.counted.noError⟩, h.rings, h.fresh⟩, rfl⟩
    | reserved slots =>
      have hbase : Clean ids n { c with
          kv := kv, curSeqs := batchSeqs batch, curSlots := slots, writableEnsured := false,
          writableError := none, reserveCheckpoints := true } :=
        ⟨⟨h.counted.counted, h.counted.size, rfl⟩, h.rings, h.fresh⟩
      obtain ⟨hc, hv, _⟩ := hbase.planCheckpoints batch
      exact ⟨hc, hv⟩
    | started d newSlots _ _ =>
      rcases hno' with hres | hne
      · cases hres
      · exact absurd rfl hne

/-- **What a forward pass does**: the causal cache stores the batch, and each
sequence of the batch has its tokens appended to its state. -/
structure Passed (ids : Finset Int) (n : ℕ) (batch : Batch) (tokens : List τ) (maxMoves : Int)
    (c d : Recurrent τ) : Prop where
  clean : Clean ids n d
  stored : (c.kv.startForward batch false maxMoves).err = none
  kv : d.kv = (c.kv.startForward batch false maxMoves).cache
  pending : d.pendingRestore = c.pendingRestore
  views : ∀ q, Advanced batch tokens q (c.view q) (d.view q)

variable {tokens : List τ}

theorem Advanced.of_startView {q : Int} {view : Int → Option (Content τ)} {new : Option (Content τ)}
    (h : Advanced batch tokens q (startView batch view q) new) :
    Advanced batch tokens q (view q) new := by
  refine ⟨fun hq => ?_, fun hq => ?_⟩
  · rw [h.outside hq, startView, if_neg hq]
  · have hin := h.inside hq
    rw [startView, if_pos hq] at hin
    exact hin

theorem Began.layers (hcard : ids.card ≤ n)
    {c d : Recurrent τ} (h : Began ids n batch c d) (hpass : InPass batch d) (tokens : List τ) :
    Clean ids n (d.ensureWritableOnce.updateStates batch tokens) ∧
      (d.ensureWritableOnce.updateStates batch tokens).kv = c.kv ∧
      (d.ensureWritableOnce.updateStates batch tokens).pendingRestore = c.pendingRestore ∧
      ∀ q, Advanced batch tokens q (c.view q)
        ((d.ensureWritableOnce.updateStates batch tokens).view q) := by
  obtain ⟨hw, hview, hsame⟩ := h.clean.ensureWritableOnce hcard
  obtain ⟨hpass', hpriv⟩ := hpass.ensureWritableOnce hcard h.clean.counted
  have hwritable := hpass'.writable hw.counted hpriv
  have hplan : PlanFits batch d.ensureWritableOnce.curSeqs
      d.ensureWritableOnce.curCheckpointPos := by
    rw [hsame.seqs, hsame.plan]
    exact h.plan
  have hplanned : ∀ s ∈ d.ensureWritableOnce.curSlots,
      d.ensureWritableOnce.curCheckpointSlots s = none := by
    intro s hs
    rw [hsame.planned]
    refine h.planned ?_ s
    rintro rfl
    -- a pass without tokens has no slots
    have hmem : some s ∈ d.ensureWritableOnce.curSlots.map some := mem_map_of_mem hs
    rw [hpass'.agrees] at hmem
    obtain ⟨seq, hseq, _⟩ := mem_map.mp hmem
    obtain ⟨e, he, _⟩ := (hpass'.seqs seq).mp hseq
    cases he
  obtain ⟨hc, hadv⟩ := hw.updateStates hwritable hplan hplanned tokens
  obtain ⟨slots, cps, hf⟩ := updateStates_frame d.ensureWritableOnce batch tokens
  refine ⟨hc, ?_, ?_, fun q => ?_⟩
  · rw [hf]
    exact hsame.kv.trans h.kv
  · rw [hf]
    exact hsame.pending.trans h.pending
  · have hq := hadv q
    rw [hview, h.view] at hq
    exact hq.of_startView

variable {maxMoves : Int}

theorem startForward_nil {reserve : Bool} (h : (c.startForward batch reserve maxMoves).2 = none) :
    (c.kv.startForward batch reserve maxMoves).err = none ∧ c.startForward batch reserve maxMoves =
        startSlots { c with kv := (c.kv.startForward batch reserve maxMoves).cache } batch
          reserve := by
  rw [startForward] at h ⊢
  generalize c.kv.startForward batch reserve maxMoves = f at h ⊢
  obtain ⟨kv, moves, err⟩ := f
  cases err with
  | some e => cases h
  | none => exact ⟨rfl, rfl⟩

/-- A forward pass that fails is not visible. -/
theorem Clean.forwardPass_unseen (hcard : ids.card ≤ n)
    (h : Clean ids n c) (hids : ∀ e ∈ batch, e.seq ∈ ids)
    (hne : (c.forwardPass batch tokens maxMoves).2 ≠ none) :
    Clean ids n (c.forwardPass batch tokens maxMoves).1 ∧
      (c.forwardPass batch tokens maxMoves).1.view = c.view := by
  by_cases hstart : (c.startForward batch false maxMoves).2 = none
  · -- after `StartForward` the pass cannot fail
    refine absurd ?_ hne
    have hcounted := (startForward_counted hcard h.counted hids false maxMoves).1
    have hens : (c.startForward batch false maxMoves).1.ensureWritableOnce.writableError = none :=
      (apply_counted hcard hcounted (show (Call.ensureWritable : Call τ).Within ids from
        trivial)).1.noError
    rw [forwardPass]
    generalize c.startForward batch false maxMoves = r at hstart hens ⊢
    obtain ⟨d, err⟩ := r
    cases hstart
    dsimp only
    rw [show d.ensureWritable = (d.ensureWritableOnce, none) from Prod.ext rfl hens]
  · obtain ⟨hc, hv⟩ := h.startForward_unseen hcard hids false maxMoves (Or.inr hstart)
    have heq : (c.forwardPass batch tokens maxMoves).1 =
        (c.startForward batch false maxMoves).1 := by
      rw [forwardPass]
      generalize c.startForward batch false maxMoves = r at hstart ⊢
      obtain ⟨d, err⟩ := r
      cases err with
      | some e => rfl
      | none => exact absurd rfl hstart
    rw [heq]
    exact ⟨hc, hv⟩

theorem Clean.forwardPass (hcard : ids.card ≤ n)
    (h : Clean ids n c) (hids : ∀ e ∈ batch, e.seq ∈ ids)
    (hnil : (c.forwardPass batch tokens maxMoves).2 = none) :
    Passed ids n batch tokens maxMoves c (c.forwardPass batch tokens maxMoves).1 := by
  have hstart : (c.startForward batch false maxMoves).2 = none := by
    rw [Recurrent.forwardPass] at hnil
    generalize c.startForward batch false maxMoves = r at hnil ⊢
    obtain ⟨d, err⟩ := r
    cases err with
    | some e => cases hnil
    | none => rfl
  obtain ⟨hstored, heq⟩ := startForward_nil hstart
  have hpass := startForward_inPass hcard h.counted hids hstart
  have hkv : Clean ids n { c with kv := (c.kv.startForward batch false maxMoves).cache } :=
    ⟨⟨h.counted.counted, h.counted.size, h.counted.noError⟩, h.rings, h.fresh⟩
  have hbegan := hkv.startSlots hcard hids (heq ▸ hstart)
  rw [← heq] at hbegan
  obtain ⟨hc, hkv', hpending, hviews⟩ := hbegan.layers hcard hpass tokens
  have hens : (c.startForward batch false maxMoves).1.ensureWritableOnce.writableError = none :=
    (hbegan.clean.ensureWritableOnce hcard).1.counted.noError
  have hresult : (c.forwardPass batch tokens maxMoves).1 =
      (c.startForward batch false maxMoves).1.ensureWritableOnce.updateStates batch tokens := by
    rw [Recurrent.forwardPass]
    generalize c.startForward batch false maxMoves = r at hstart hens ⊢
    obtain ⟨d, err⟩ := r
    cases hstart
    dsimp only
    rw [show d.ensureWritable = (d.ensureWritableOnce, none) from Prod.ext rfl hens]
  rw [hresult]
  exact ⟨hc, hstored, hkv', hpending, hviews⟩

/-! ## §6  `CopyPrefix` and `PrepareRestore` -/

/-- `CopyPrefix` would free a slot that holds checkpoints. -/
def FreesMarks (c : Recurrent τ) (dstSeq : Int) : Prop :=
  ∃ slot, c.slotForSeq dstSeq = some slot ∧ c.refCount slot ≤ 1 ∧ c.slotMarks slot ≠ ∅

theorem Clean.release (h : Clean ids n c) (hslot : c.slotForSeq seq = some slot)
    (hmarks : c.refCount slot ≤ 1 → c.slotMarks slot = ∅) :
    Clean ids n (c.release seq slot) ∧ (c.release seq slot).view = update c.view seq none := by
  refine ⟨⟨release_counted h.counted hslot, h.rings, fun s hs => ?_⟩, ?_⟩
  · have hs' : s ∈ (if c.refCount slot ≤ 1 then slot :: c.freeSlots else c.freeSlots) := hs
    split at hs'
    · rename_i hlast
      rcases mem_cons.mp hs' with rfl | hmem
      · exact hmarks hlast
      · exact h.fresh s hmem
    · exact h.fresh s hs'
  · exact release_view c.alloc c.content seq slot

/-- **A fork** gives the destination what the source sees. -/
theorem Clean.copyPrefix (h : Clean ids n c)
    {srcSeq dstSeq : Int} (hne : srcSeq ≠ dstSeq) (hdst : dstSeq ∈ ids) (len : Int)
    (hfrees : ¬c.FreesMarks dstSeq) :
    Clean ids n (c.copyPrefix srcSeq dstSeq len) ∧
      (c.copyPrefix srcSeq dstSeq len).view = update c.view dstSeq (c.view srcSeq) ∧
      (c.copyPrefix srcSeq dstSeq len).kv = c.kv.copyPrefix srcSeq dstSeq len ∧
      (c.copyPrefix srcSeq dstSeq len).pendingRestore = c.pendingRestore := by
  -- the destination gives up its slot
  have hgive : ∃ d : Recurrent τ, c.copyPrefix srcSeq dstSeq len = d.shareFrom srcSeq dstSeq ∧
      Clean ids n d ∧ d.view = update c.view dstSeq none ∧
      d.kv = c.kv.copyPrefix srcSeq dstSeq len ∧ d.pendingRestore = c.pendingRestore ∧
      d.slotForSeq dstSeq = none ∧ d.slotForSeq srcSeq = c.slotForSeq srcSeq := by
    have hkv : Clean ids n { c with kv := c.kv.copyPrefix srcSeq dstSeq len } :=
      ⟨⟨h.counted.counted, h.counted.size, h.counted.noError⟩, h.rings, h.fresh⟩
    refine ⟨_, copyPrefix_eq h.counted srcSeq dstSeq len, ?_⟩
    cases hslot : c.slotForSeq dstSeq with
    | none =>
      refine ⟨hkv, ?_, rfl, rfl, hslot, rfl⟩
      have hnone : c.view dstSeq = none := by
        rw [view, Table.view, show c.alloc.owner dstSeq = none from hslot]
        rfl
      rw [← hnone, update_eq_self]
      rfl
    | some slot =>
      obtain ⟨hr, hv⟩ := hkv.release (show _ = some slot from hslot) fun hlast => by
        by_contra hm
        exact hfrees ⟨slot, hslot, hlast, hm⟩
      exact ⟨hr, hv, rfl, rfl, update_self _ _ _, update_of_ne hne _ _⟩
  obtain ⟨d, heq, hd, hview, hkv, hpending, hnone, hsrc⟩ := hgive
  have hviewsrc : d.view srcSeq = c.view srcSeq := by
    rw [hview, update_of_ne hne]
  rw [heq]
  have hcounted : SlotsCounted ids n (d.shareFrom srcSeq dstSeq) :=
    shareFrom_counted hd.counted hdst hnone
  rw [shareFrom] at hcounted ⊢
  cases hslot : d.slotForSeq srcSeq with
  | none =>
    have hsrcnone : c.view srcSeq = none := by
      rw [← hviewsrc, view, Table.view, show d.alloc.owner srcSeq = none from hslot]
      rfl
    rw [hsrcnone]
    exact ⟨hd, hview, hkv, hpending⟩
  | some slot =>
    rw [hslot] at hcounted
    simp only [hd.counted.validSlot hslot, if_true] at hcounted ⊢
    refine ⟨⟨hcounted, hd.rings, hd.fresh⟩, ?_, hkv, hpending⟩
    have hshare : (d.alloc.share dstSeq slot).view d.content = update
        (d.alloc.view d.content) dstSeq (d.alloc.view d.content srcSeq) :=
      share_view (show d.alloc.owner srcSeq = some slot from hslot)
    refine Eq.trans hshare ?_
    rw [show d.alloc.view d.content = d.view from rfl, hviewsrc, hview, update_idem]

structure Refers (c : Recurrent τ) (restore : CheckpointRestore) (st : List τ) : Prop where
  store : ∃ store, c.checkpoints restore.slot = some store ∧
    store.entries[restore.idx]? = some ⟨restore.pos, some st⟩
  pos : 0 ≤ restore.pos

theorem Refers.mark {restore : CheckpointRestore} {st : List τ}
    (h : Refers c restore st) : (restore.pos, st) ∈ c.slotMarks restore.slot := by
  obtain ⟨store, hs, he⟩ := h.store
  rw [slotMarks, hs]
  exact ⟨mem_of_getElem? he, h.pos⟩

/-- **`PrepareRestore`** refers to a checkpoint of the sequence below the
target. -/
theorem Clean.prepareRestore (h : Clean ids n c)
    {seq targetPos p : Int} (hres : (c.prepareRestore seq targetPos).2 = some p) :
    ∃ restore st, c.slotForSeq seq = some restore.slot ∧ Refers c restore st ∧
      restore.pos < targetPos ∧ p = restore.pos + 1 ∧
      (c.prepareRestore seq targetPos).1 =
        { c with pendingRestore := update c.pendingRestore seq (some restore) } := by
  unfold Recurrent.prepareRestore at hres ⊢
  split at hres
  · cases hres
  rename_i htarget
  rw [if_neg htarget]
  cases hslot : c.slotForSeq seq with
  | none =>
    rw [hslot] at hres
    cases hres
  | some slot =>
    simp only [hslot] at hres ⊢
    cases hstore : c.checkpoints slot with
    | none =>
      rw [hstore] at hres
      cases hres
    | some store =>
      simp only [hstore] at hres ⊢
      cases hbest : store.bestIndex targetPos with
      | none =>
        rw [hbest] at hres
        cases hres
      | some best =>
        obtain ⟨idx, pos⟩ := best
        simp only [hbest] at hres ⊢
        obtain ⟨⟨e, he, hpos⟩, hge, hlt⟩ := bestIndex_some hbest
        have hwf := h.rings slot store hstore
        obtain ⟨st, hst⟩ := Option.isSome_iff_exists.mp
          (hwf.filled e (mem_of_getElem? he) (by rw [hpos]; exact hge))
        refine ⟨⟨slot, idx, pos⟩, st, rfl, ⟨⟨store, hstore, ?_⟩, hge⟩, hlt,
          (Option.some.inj hres).symm, rfl⟩
        rw [he, ← hpos, ← hst]

/-! ## §7  `Remove` -/

theorem Clean.withKv (h : Clean ids n c) (kv : Causal) (pending : Int → Option CheckpointRestore) :
    Clean ids n { c with kv := kv, pendingRestore := pending } :=
  ⟨⟨h.counted.counted, h.counted.size, h.counted.noError⟩, h.rings, h.fresh⟩

/-- The marks `shiftCheckpoints` leaves. -/
def shiftMarks (b e : Int) (marks : Set (Int × List τ)) : Set (Int × List τ) :=
  {m | ∃ p, (p, m.2) ∈ marks ∧ shiftPos b e p = m.1 ∧ 0 ≤ m.1}

/-- The marks a restore at `pos` leaves. -/
def pruneMarks (pos : Int) (marks : Set (Int × List τ)) : Set (Int × List τ) :=
  {m | m ∈ marks ∧ m.1 ≤ pos}

theorem shiftCheckpoints_slotMarks (c : Recurrent τ) (slot : ℕ) (b e : Int) :
    (c.shiftCheckpoints slot b e).slotMarks =
      update c.slotMarks slot (shiftMarks b e (c.slotMarks slot)) := by
  unfold shiftCheckpoints
  cases hs : c.checkpoints slot with
  | none =>
    have hempty : c.slotMarks slot = ∅ := by rw [slotMarks, hs]
    have hshift : shiftMarks b e (∅ : Set (Int × List τ)) = ∅ := by
      refine Set.eq_empty_iff_forall_notMem.mpr ?_
      rintro m ⟨p, hp, _⟩
      exact hp
    rw [hempty, hshift, ← hempty, update_eq_self]
  | some store =>
    rw [setStore_slotMarks]
    congr 1
    ext ⟨p, st⟩
    rw [mem_shiftRange_marks]
    have hmarks : c.slotMarks slot = store.marks := by rw [slotMarks, hs]
    rw [hmarks]
    exact Iff.rfl

theorem Clean.shiftCheckpoints (h : Clean ids n c) (hfree : slot ∉ c.freeSlots) (b e : Int) :
    Clean ids n (c.shiftCheckpoints slot b e) := by
  unfold Recurrent.shiftCheckpoints
  cases hs : c.checkpoints slot with
  | none => exact h
  | some store =>
    exact h.setStore ((h.rings slot store hs).shiftRange b e) fun hmem => absurd hmem hfree

theorem Isolated.spec {c d : Recurrent τ} (hi : Isolated c seq slot d) (h : Clean ids n c) :
    Clean ids n d ∧ d.view = c.view ∧ d.slotForSeq seq = some slot ∧ d.refCount slot ≤ 1 ∧
      d.kv = c.kv ∧ d.pendingRestore = c.pendingRestore := by
  cases hi with
  | own _ hown hcount => exact ⟨h, rfl, hown, hcount, rfl, rfl⟩
  | copied old _ rest hs hfree =>
    obtain ⟨hv, hc⟩ := hs.detached_view h hfree
    refine ⟨hc, hv, update_self _ _ _, ?_, rfl, rfl⟩
    show update (update c.refCount old _) slot 1 slot ≤ 1
    rw [update_self]

theorem view_private {c d : Recurrent τ} (h : Clean ids n c)
    (hown : c.slotForSeq seq = some slot) (hone : c.refCount slot ≤ 1)
    {x : Content τ} (halloc : d.alloc = c.alloc)
    (hcontent : d.content = update c.content slot x) :
    d.view = update c.view seq (some x) := by
  show d.alloc.view d.content = _
  rw [halloc, hcontent]
  exact h.counted.counted.view_write hown hone x

/-- **A removal in the middle** shifts the checkpoints of the sequence. -/
theorem Clean.shiftState (hcard : ids.card ≤ n) (h : Clean ids n c) (seq b e : Int) :
    (c.shiftState seq b e).2 = none ∧ Clean ids n (c.shiftState seq b e).1 ∧
      (c.shiftState seq b e).1.view = update c.view seq
        ((c.view seq).map fun x => ⟨x.state, shiftMarks b e x.marks⟩) ∧
      (c.shiftState seq b e).1.kv = c.kv ∧
      (c.shiftState seq b e).1.pendingRestore = c.pendingRestore := by
  rcases shiftState_cases hcard h.counted seq b e with ⟨hnone, heq⟩ | ⟨slot, d, hi, heq⟩
  · rw [heq]
    refine ⟨rfl, h, ?_, rfl, rfl⟩
    have hview : c.view seq = none := by
      rw [view, Table.view, show c.alloc.owner seq = none from hnone]
      rfl
    rw [hview, Option.map_none, ← hview, update_eq_self]
  · rw [heq]
    obtain ⟨hd, hview, hown, hone, hkv, hpending⟩ := hi.spec h
    obtain ⟨cps, hf⟩ := shiftCheckpoints_frame d slot b e
    have hfree : slot ∉ d.freeSlots := hd.counted.counted.not_mem_free hown
    have hcontent : (d.shiftCheckpoints slot b e).content = update d.content slot
        ⟨d.states slot, shiftMarks b e (d.slotMarks slot)⟩ := by
      funext s
      rw [content, shiftCheckpoints_slotMarks,
        show (d.shiftCheckpoints slot b e).states = d.states by rw [hf]]
      by_cases hs : s = slot
      · rw [hs, update_self, update_self]
      · rw [update_of_ne hs, update_of_ne hs]
        rfl
    refine ⟨rfl, hd.shiftCheckpoints hfree b e, ?_, ?_, ?_⟩
    · rw [view_private hd hown hone (by rw [hf]; rfl) hcontent, ← hview, view_of_slot hown]
      rfl
    · rw [hf]
      exact hkv
    · rw [hf]
      exact hpending

theorem clearCheckpoints_slotMarks (c : Recurrent τ) (slot : ℕ) :
    (c.clearCheckpoints slot).slotMarks = update c.slotMarks slot ∅ := by
  unfold clearCheckpoints
  cases hs : c.checkpoints slot with
  | none =>
    have hempty : c.slotMarks slot = ∅ := by rw [slotMarks, hs]
    rw [← hempty, update_eq_self]
  | some store =>
    rw [setStore_slotMarks, reset_marks]

/-- **A removal from the start** takes the state from the sequence. -/
theorem Clean.dropState (h : Clean ids n c) (seq : Int) :
    Clean ids n (c.dropState seq) ∧ (c.dropState seq).view = update c.view seq none ∧
      (c.dropState seq).kv = c.kv ∧ (c.dropState seq).pendingRestore = c.pendingRestore := by
  rw [dropState_eq h.counted]
  cases hown : c.slotForSeq seq with
  | none =>
    have hview : c.view seq = none := by
      rw [view, Table.view, show c.alloc.owner seq = none from hown]
      rfl
    refine ⟨h, ?_, rfl, rfl⟩
    rw [← hview, update_eq_self]
  | some slot =>
    by_cases hlast : c.refCount slot ≤ 1
    · obtain ⟨cps, hf⟩ := clearCheckpoints_frame c slot
      have hmarks := clearCheckpoints_slotMarks c slot
      have hrings : ∀ s store, (c.clearCheckpoints slot).checkpoints s = some store →
          store.Wellformed c.checkpointCount := by
        unfold clearCheckpoints
        cases hs : c.checkpoints slot with
        | none => exact h.rings
        | some store =>
          exact (h.setStore (h.rings slot store hs).reset fun _ => reset_marks store).rings
      have hclear : Clean ids n (c.clearCheckpoints slot) := by
        refine ⟨?_, ?_, fun s hs => ?_⟩
        · rw [hf]
          exact ⟨h.counted.counted, h.counted.size, h.counted.noError⟩
        · rw [show (c.clearCheckpoints slot).checkpointCount = c.checkpointCount by rw [hf]]
          exact hrings
        rw [hmarks]
        by_cases heq : s = slot
        · rw [heq, update_self]
        · rw [update_of_ne heq]
          rw [hf] at hs
          exact h.fresh s hs
      have hown' : (c.clearCheckpoints slot).slotForSeq seq = some slot := by
        rw [hf]
        exact hown
      obtain ⟨hr, hv⟩ := hclear.release hown' fun _ => by rw [hmarks, update_self]
      have hothers : ∀ q, q ≠ seq → (c.clearCheckpoints slot).view q = c.view q := by
        intro q hq
        show (c.clearCheckpoints slot).alloc.view (c.clearCheckpoints slot).content q = _
        have halloc : (c.clearCheckpoints slot).alloc = c.alloc := by
          rw [hf]
          rfl
        have hcontent : (c.clearCheckpoints slot).content =
            update c.content slot ⟨c.states slot, ∅⟩ := by
          funext s
          rw [content, hmarks, show (c.clearCheckpoints slot).states = c.states by rw [hf]]
          by_cases heq : s = slot
          · rw [heq, update_self, update_self]
          · rw [update_of_ne heq, update_of_ne heq]
            rfl
        rw [halloc, hcontent, h.counted.counted.view_write hown hlast, update_of_ne hq]
        rfl
      simp only [if_pos hlast]
      refine ⟨hr, ?_, ?_, ?_⟩
      · rw [hv]
        funext q
        by_cases hq : q = seq
        · rw [hq, update_self, update_self]
        · rw [update_of_ne hq, update_of_ne hq]
          exact hothers q hq
      · show (c.clearCheckpoints slot).kv = c.kv
        rw [hf]
      · show (c.clearCheckpoints slot).pendingRestore = c.pendingRestore
        rw [hf]
    · obtain ⟨hr, hv⟩ := h.release hown fun hle => absurd hle hlast
      simp only [if_neg hlast]
      exact ⟨hr, hv, rfl, rfl⟩

/-- A restore prunes a ring, and writes the state of its slot. -/
theorem Clean.applyCheckpointRestore (h : Clean ids n c) (restore : CheckpointRestore) :
    Clean ids n (c.applyCheckpointRestore restore).1 ∧
      (c.applyCheckpointRestore restore).1.alloc = c.alloc ∧
      (c.applyCheckpointRestore restore).1.kv = c.kv ∧
      ∀ slot, (c.applyCheckpointRestore restore).1.slotMarks slot ⊆ c.slotMarks slot := by
  obtain ⟨⟨states, cps, hf⟩, _⟩ := applyCheckpointRestore_frame c restore
  have hmarks : (∀ slot, (c.applyCheckpointRestore restore).1.slotMarks slot ⊆ c.slotMarks slot) ∧
      ∀ slot store, (c.applyCheckpointRestore restore).1.checkpoints slot = some store →
        store.Wellformed c.checkpointCount := by
    unfold Recurrent.applyCheckpointRestore
    split
    · exact ⟨fun _ => Set.Subset.refl _, h.rings⟩
    extract_lets d
    have hd : ∃ states, d = { c with states := states } := by
      unfold d
      split
      · exact ⟨_, rfl⟩
      · exact ⟨_, rfl⟩
    obtain ⟨states, hd⟩ := hd
    rw [hd]
    split
    · exact ⟨fun _ => Set.Subset.refl _, h.rings⟩
    rename_i store hs
    have hwf := h.rings restore.slot store hs
    refine ⟨fun slot m hm => ?_, fun slot st hst => ?_⟩
    · have hm' : m ∈ (c.setStore restore.slot (store.pruneAfter restore.pos)).slotMarks slot :=
        hm
      rw [setStore_slotMarks] at hm'
      by_cases heq : slot = restore.slot
      · rw [heq, update_self] at hm'
        rw [heq, slotMarks, hs]
        exact (mem_pruneAfter_marks.mp hm').1
      · rw [update_of_ne heq] at hm'
        exact hm'
    · have hst' : update c.checkpoints restore.slot
        (some (store.pruneAfter restore.pos)) slot = some st := hst
      by_cases heq : slot = restore.slot
      · rw [heq, update_self] at hst'
        cases hst'
        exact hwf.pruneAfter restore.pos
      · rw [update_of_ne heq] at hst'
        exact h.rings slot st hst'
  obtain ⟨hsub, hrings⟩ := hmarks
  refine ⟨⟨?_, ?_, ?_⟩, ?_, ?_, hsub⟩
  · rw [hf]
    exact ⟨h.counted.counted, h.counted.size, h.counted.noError⟩
  · rw [show (c.applyCheckpointRestore restore).1.checkpointCount = c.checkpointCount by rw [hf]]
    exact hrings
  · intro slot hs
    rw [show (c.applyCheckpointRestore restore).1.freeSlots = c.freeSlots by rw [hf]] at hs
    exact Set.subset_eq_empty (hsub slot) (h.fresh slot hs)
  · rw [hf]
    rfl
  · rw [hf]

/-- Detaching takes a restore along. -/
theorem Refers.detached
    {restore : CheckpointRestore} {st : List τ} (h : Refers c restore st) (hc : Clean ids n c)
    (seq : Int) (newSlot : ℕ) (rest : List ℕ) :
    Refers (c.detached seq restore.slot newSlot rest) { restore with slot := newSlot } st := by
  obtain ⟨store, hs, he⟩ := h.store
  have hwf := hc.rings restore.slot store hs
  have hd := hc.store newSlot
  have hmem := mem_of_getElem? he
  have hcount : c.checkpointCount ≠ 0 := by
    intro hzero
    have hlen := hwf.length
    rw [hzero] at hlen
    rw [length_eq_zero_iff.mp hlen] at hmem
    cases hmem
  have hsize : store.size ≠ 0 := fun hzero => by
    have hneg : restore.pos < 0 := hwf.size hzero _ hmem
    exact absurd h.pos (Int.not_le.mpr hneg)
  refine ⟨⟨store.copyTo (c.checkpointStore newSlot), ?_, ?_⟩, h.pos⟩
  · show (c.copyCheckpoints restore.slot newSlot).checkpoints newSlot = _
    unfold copyCheckpoints
    rw [if_neg hcount]
    simp only [hs]
    rw [if_neg hsize]
    exact update_self _ _ _
  · have hlt := (List.getElem?_eq_some_iff.mp he).1
    have hlt' : restore.idx < (c.checkpointStore newSlot).entries.length := by
      rw [hd.length, ← hwf.length]
      exact hlt
    exact getElem?_zipWith_eq_some.mpr ⟨_, _, he, getElem?_eq_getElem hlt', rfl⟩

/-- **A restore of a sequence** writes the state of the checkpoint and keeps the
checkpoints up to it. -/
theorem Clean.detachForRestore (hcard : ids.card ≤ n)
    (h : Clean ids n c) (seq : Int) (restore : CheckpointRestore) :
    ∃ d restore', c.detachForRestore seq restore = some (d, restore') ∧ Clean ids n d ∧
      d.view = c.view ∧ d.kv = c.kv ∧
      (∀ q, q ≠ seq → d.pendingRestore q = c.pendingRestore q) ∧
      ∀ st, Refers c restore st → c.slotForSeq seq = some restore.slot →
        Refers d restore' st ∧ restore'.pos = restore.pos ∧
        d.slotForSeq seq = some restore'.slot ∧ d.refCount restore'.slot ≤ 1 := by
  rcases detachForRestore_cases hcard h.counted seq restore with
    ⟨hpriv, heq⟩ | ⟨slot, newSlot, rest, hs, hfree, heq⟩
  · exact ⟨c, restore, heq, h, rfl, rfl, fun _ _ => rfl,
      fun st hr hown => ⟨hr, rfl, hown, hpriv _ hown⟩⟩
  obtain ⟨hv, hc⟩ := hs.detached_view h hfree
  refine ⟨_, _, heq, hc.withKv _ _, hv, rfl, fun q hq => update_of_ne hq _ _, ?_⟩
  intro st hr hown
  have hslot : slot = restore.slot := by
    rw [hs.owner] at hown
    exact Option.some.inj hown
  subst hslot
  have hr' := hr.detached h seq newSlot rest
  refine ⟨⟨hr'.store, hr'.pos⟩, rfl, update_self _ _ _, ?_⟩
  show update (update c.refCount restore.slot _) newSlot 1 newSlot ≤ 1
  rw [update_self]

def FewerMarks (c d : Recurrent τ) : Prop :=
  ∀ q y, d.view q = some y → ∃ x, c.view q = some x ∧ y.marks ⊆ x.marks

theorem FewerMarks.of_view {c d : Recurrent τ} (h : d.view = c.view) : FewerMarks c d := by
  intro q y hy
  rw [h] at hy
  exact ⟨y, hy, Set.Subset.refl _⟩

theorem FewerMarks.of_slots {c d : Recurrent τ} (halloc : d.alloc = c.alloc)
    (hmarks : ∀ slot, d.slotMarks slot ⊆ c.slotMarks slot) : FewerMarks c d := by
  intro q y hy
  have hy' : (c.alloc.owner q).map d.content = some y := by
    rw [← halloc]
    exact hy
  obtain ⟨slot, hown, rfl⟩ := Option.map_eq_some_iff.mp hy'
  exact ⟨c.content slot, view_of_owner hown, hmarks slot⟩

theorem FewerMarks.trans {c d e : Recurrent τ} (h₁ : FewerMarks c d) (h₂ : FewerMarks d e) :
    FewerMarks c e := by
  intro q y hy
  obtain ⟨x, hx, hyx⟩ := h₂ q y hy
  obtain ⟨w, hw, hxw⟩ := h₁ q x hx
  exact ⟨w, hw, hyx.trans hxw⟩

/-- Whatever restore is pending, a removal of a suffix adds no checkpoint. -/
theorem Clean.removeSuffix (hcard : ids.card ≤ n)
    (h : Clean ids n c) (seq b e : Int) (shiftFails : Bool) :
    Clean ids n (c.removeSuffix seq b e shiftFails).1 ∧
      FewerMarks c (c.removeSuffix seq b e shiftFails).1 := by
  have hsame : Clean ids n c ∧ FewerMarks c c := ⟨h, FewerMarks.of_view rfl⟩
  rw [Recurrent.removeSuffix]
  split
  · exact hsame
  rename_i restore hpending
  split
  · exact hsame
  split
  · exact hsame
  obtain ⟨d, restore', heq, hd, hview, _, _⟩ := h.detachForRestore hcard seq restore
  have hfewer : FewerMarks c d := FewerMarks.of_view hview
  simp only [heq]
  generalize d.kv.remove seq b e shiftFails = r
  obtain ⟨kv, err⟩ := r
  cases err with
  | some err => exact ⟨hd.withKv kv d.pendingRestore, hfewer⟩
  | none =>
    have hkv : Clean ids n (d.kvRemoved seq kv) := hd.withKv kv _
    obtain ⟨hc, halloc, _, hmarks⟩ := hkv.applyCheckpointRestore restore'
    exact ⟨hc, hfewer.trans (FewerMarks.of_slots halloc hmarks)⟩

/-- **What `Remove` does to the views**, when it returns nil and when not. -/
theorem Clean.remove (hcard : ids.card ≤ n)
    (h : Clean ids n c) (seq b e : Int) (shiftFails : Bool) :
    Clean ids n (c.remove seq b e shiftFails).1 ∧
      ((c.remove seq b e shiftFails).2 ≠ none → FewerMarks c (c.remove seq b e shiftFails).1) ∧
      ((c.remove seq b e shiftFails).2 = none →
        (0 < b → e ≠ maxInt32 → (c.remove seq b e shiftFails).1.view = update c.view seq
            ((c.view seq).map fun x => ⟨x.state, shiftMarks b e x.marks⟩)) ∧
        (0 < b → e = maxInt32 → FewerMarks c (c.remove seq b e shiftFails).1) ∧
        (b ≤ 0 → (c.remove seq b e shiftFails).1.view = update c.view seq none)) := by
  rw [Recurrent.remove]
  by_cases hb : 0 < b
  · rw [if_pos hb]
    by_cases he : e = maxInt32
    · rw [if_neg (not_not.mpr he)]
      obtain ⟨hc, hf⟩ := h.removeSuffix hcard seq b e shiftFails
      exact ⟨hc, fun _ => hf, fun _ => ⟨fun _ hne => absurd he hne, fun _ _ => hf,
        fun hle => absurd hb (Int.not_lt.mpr hle)⟩⟩
    rw [if_pos he, removeMiddle]
    generalize c.kv.remove seq b e shiftFails = r
    obtain ⟨kv, err⟩ := r
    cases err with
    | some err =>
      exact ⟨h.withKv kv c.pendingRestore, fun _ => FewerMarks.of_view rfl,
        fun hnil => by cases hnil⟩
    | none =>
      have hkv : Clean ids n (c.kvRemoved seq kv) := h.withKv kv _
      obtain ⟨hnil, hc, hview, _, _⟩ := hkv.shiftState hcard seq b e
      exact ⟨hc, fun hne => absurd hnil hne, fun _ => ⟨fun _ _ => hview,
        fun _ heq => absurd heq he, fun hle => absurd hb (Int.not_lt.mpr hle)⟩⟩
  · rw [if_neg hb, removeAll]
    generalize c.kv.remove seq b e shiftFails = r
    obtain ⟨kv, err⟩ := r
    cases err with
    | some err =>
      exact ⟨h.withKv kv c.pendingRestore, fun _ => FewerMarks.of_view rfl,
        fun hnil => by cases hnil⟩
    | none =>
      have hkv : Clean ids n (c.kvRemoved seq kv) := h.withKv kv _
      obtain ⟨hc, hview, _, _⟩ := hkv.dropState seq
      exact ⟨hc, fun hne => absurd rfl hne, fun _ => ⟨fun hlt => absurd hlt hb,
        fun hlt => absurd hlt hb, fun _ => hview⟩⟩

end Recurrent

end Ollama.KvCache
