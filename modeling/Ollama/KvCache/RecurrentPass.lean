import Ollama.KvCache.RecurrentSlots

/-!
# The slots of a forward pass

From a `StartForward` that returns nil until the next one, `curSlots` are the
slots of the sequences of the batch as long as no `CopyPrefix` and no `Remove`
names one of these, and `ensureWritable` makes them private.
-/

namespace Ollama.KvCache

open List

namespace Recurrent

open Lib.RefCount

variable {τ : Type}

/-! ## §1  A pass -/

/-- A pass over the sequences of `batch` is under way: `curSlots` are their
slots, and private once `ensureWritable` has run. -/
structure InPass (batch : Batch) (c : Recurrent τ) : Prop where
  seqs : ∀ seq, seq ∈ c.curSeqs ↔ ∃ e ∈ batch, e.seq = seq
  nodup : c.curSeqs.Nodup
  agrees : c.Agrees
  ensured : c.writableEnsured = true → ∀ seq ∈ c.curSeqs, c.Private seq

/-- The slots of the pass may be written. -/
structure Writable (batch : Batch) (c : Recurrent τ) : Prop where
  seqs : ∀ seq, seq ∈ c.curSeqs ↔ ∃ e ∈ batch, e.seq = seq
  agrees : c.Agrees
  distinct : c.curSlots.Nodup
  single : ∀ slot ∈ c.curSlots, c.refCount slot = 1

/-! ## §2  Calls on other sequences -/

/-- The sequences outside `seqs` keep their slots, and the pass its fields. -/
structure Elsewhere (seqs : List Int) (c d : Recurrent τ) : Prop where
  curSeqs : d.curSeqs = c.curSeqs
  curSlots : d.curSlots = c.curSlots
  ensured : d.writableEnsured = c.writableEnsured
  owner : ∀ seq, seq ∉ seqs → d.slotForSeq seq = c.slotForSeq seq
  isPrivate : ∀ seq, seq ∉ seqs → c.Private seq → d.Private seq

theorem Elsewhere.trans {seqs : List Int} {c d e : Recurrent τ} (h₁ : Elsewhere seqs c d)
    (h₂ : Elsewhere seqs d e) : Elsewhere seqs c e where
  curSeqs := h₂.curSeqs.trans h₁.curSeqs
  curSlots := h₂.curSlots.trans h₁.curSlots
  ensured := h₂.ensured.trans h₁.ensured
  owner seq hs := (h₂.owner seq hs).trans (h₁.owner seq hs)
  isPrivate seq hs hp := h₂.isPrivate seq hs (h₁.isPrivate seq hs hp)

theorem Elsewhere.same (seqs : List Int) (c : Recurrent τ) (kv : Causal)
    (pending : Int → Option CheckpointRestore) (states : ℕ → List τ)
    (cps : ℕ → Option (SlotCheckpointStore τ)) :
    Elsewhere seqs c
      { c with kv := kv, pendingRestore := pending, states := states, checkpoints := cps } :=
  ⟨rfl, rfl, rfl, fun _ _ => rfl, fun _ _ hp => hp⟩

variable {c : Recurrent τ}

theorem Shared.elsewhere {seq : Int} {slot : ℕ} (hs : c.Shared seq slot)
    (newSlot : ℕ) (rest : List ℕ) : Elsewhere [seq] c (c.detached seq slot newSlot rest) where
  curSeqs := rfl
  curSlots := rfl
  ensured := rfl
  owner _ hne := Function.update_of_ne (mem_singleton.not.mp hne) _ _
  isPrivate seq' _ hp := hs.private newSlot rest seq' (Or.inr hp)

theorem Isolated.elsewhere {c d : Recurrent τ} {seq : Int} {slot : ℕ} (h : Isolated c seq slot d) :
    Elsewhere [seq] c d := by
  cases h with
  | own _ _ _ => exact Elsewhere.same _ c c.kv c.pendingRestore c.states c.checkpoints
  | copied _ _ rest hs _ => exact hs.elsewhere slot rest

theorem release_elsewhere (c : Recurrent τ) (seq : Int) (slot : ℕ) :
    Elsewhere [seq] c (c.release seq slot) where
  curSeqs := rfl
  curSlots := rfl
  ensured := rfl
  owner _ hne := Function.update_of_ne (mem_singleton.not.mp hne) _ _
  isPrivate seq' hne hp := by
    intro s hs
    have hs' : c.slotForSeq seq' = some s :=
      (Function.update_of_ne (mem_singleton.not.mp hne) _ _).symm.trans hs
    have hle := hp s hs'
    show Function.update c.refCount slot (c.refCount slot - 1) s ≤ 1
    by_cases heq : s = slot
    · rw [heq, Function.update_self]
      rw [heq] at hle
      omega
    · rw [Function.update_of_ne heq]
      exact hle

variable {ids : Finset Int} {n : ℕ}

/-- Sharing the slot of `srcSeq` leaves the private slots of the others
private. -/
theorem shareFrom_elsewhere (h : SlotsCounted ids n c) (srcSeq dstSeq : Int) :
    Elsewhere [srcSeq, dstSeq] c (c.shareFrom srcSeq dstSeq) := by
  rw [shareFrom]
  cases hslot : c.slotForSeq srcSeq with
  | none => exact Elsewhere.same _ c c.kv c.pendingRestore c.states c.checkpoints
  | some srcSlot =>
    simp only [h.validSlot hslot, if_true]
    refine ⟨rfl, rfl, rfl, fun seq hne => ?_, fun seq hne hp s hs => ?_⟩
    · exact Function.update_of_ne (fun heq => hne (by simp [heq])) _ _
    have hs' : c.slotForSeq seq = some s :=
      (Function.update_of_ne (fun heq => hne (by simp [heq])) _ _).symm.trans hs
    have hle := hp s hs'
    show Function.update c.refCount srcSlot _ s ≤ 1
    have hsne : s ≠ srcSlot := by
      rintro rfl
      have : seq = srcSeq := h.counted.owner_unique hle hs' hslot
      exact hne (by simp [this])
    rw [Function.update_of_ne hsne]
    exact hle

theorem applyCheckpointRestore_elsewhere (seqs : List Int) (c : Recurrent τ)
    (restore : CheckpointRestore) :
    Elsewhere seqs c (c.applyCheckpointRestore restore).1 := by
  obtain ⟨⟨states, cps, hf⟩, _⟩ := applyCheckpointRestore_frame c restore
  rw [hf]
  exact Elsewhere.same seqs c c.kv c.pendingRestore states cps

theorem dropState_elsewhere
    (h : SlotsCounted ids n c) (seq : Int) : Elsewhere [seq] c (c.dropState seq) := by
  rw [dropState_eq h]
  cases c.slotForSeq seq with
  | none => exact Elsewhere.same _ c c.kv c.pendingRestore c.states c.checkpoints
  | some slot =>
    refine Elsewhere.trans ?_ (release_elsewhere _ seq slot)
    split
    · obtain ⟨cps, hf⟩ := clearCheckpoints_frame c slot
      rw [hf]
      exact Elsewhere.same _ c c.kv c.pendingRestore c.states cps
    · exact Elsewhere.same _ c c.kv c.pendingRestore c.states c.checkpoints

theorem removeSuffix_elsewhere (hcard : ids.card ≤ n)
    (h : SlotsCounted ids n c) (seq b e : Int) (shiftFails : Bool) :
    Elsewhere [seq] c (c.removeSuffix seq b e shiftFails).1 := by
  have hrefl := Elsewhere.same [seq] c c.kv c.pendingRestore c.states c.checkpoints
  rw [removeSuffix]
  split
  · exact hrefl
  rename_i restore hpending
  split
  · exact hrefl
  split
  · exact hrefl
  have hd : ∃ d restore', c.detachForRestore seq restore = some (d, restore') ∧
      Elsewhere [seq] c d := by
    rcases detachForRestore_cases hcard h seq restore with
      ⟨_, heq⟩ | ⟨slot, newSlot, rest, hs, _, heq⟩
    · exact ⟨c, restore, heq, hrefl⟩
    · exact ⟨_, _, heq, (hs.elsewhere newSlot rest).trans (Elsewhere.same _ _ _ _ _ _)⟩
  obtain ⟨d, restore', heq, hd⟩ := hd
  simp only [heq]
  generalize d.kv.remove seq b e shiftFails = r
  obtain ⟨kv, err⟩ := r
  cases err with
  | some err => exact hd.trans (Elsewhere.same _ d kv _ _ _)
  | none =>
    have hkv : Elsewhere [seq] d (d.kvRemoved seq kv) := Elsewhere.same _ d kv _ _ _
    exact (hd.trans hkv).trans (applyCheckpointRestore_elsewhere _ _ _)

/-- A removal touches no sequence but its own. -/
theorem remove_elsewhere (hcard : ids.card ≤ n)
    (h : SlotsCounted ids n c) (seq b e : Int) (shiftFails : Bool) :
    Elsewhere [seq] c (c.remove seq b e shiftFails).1 := by
  rw [remove]
  split
  · split
    · rw [removeMiddle]
      generalize c.kv.remove seq b e shiftFails = r
      obtain ⟨kv, err⟩ := r
      have hkv : SlotsCounted ids n (c.kvRemoved seq kv) := ⟨h.counted, h.size, h.noError⟩
      have hel : Elsewhere [seq] c (c.kvRemoved seq kv) := Elsewhere.same _ c kv _ _ _
      cases err with
      | some err => exact Elsewhere.same _ c kv _ _ _
      | none =>
        refine hel.trans ?_
        rcases shiftState_cases hcard hkv seq b e with ⟨_, heq⟩ | ⟨slot, d, hi, heq⟩
        · show Elsewhere [seq] _ ((c.kvRemoved seq kv).shiftState seq b e).1
          rw [heq]
          exact Elsewhere.same _ _ _ _ _ _
        · obtain ⟨cps, hf⟩ := shiftCheckpoints_frame d slot b e
          show Elsewhere [seq] _ ((c.kvRemoved seq kv).shiftState seq b e).1
          rw [heq, hf]
          exact hi.elsewhere.trans (Elsewhere.same _ d _ _ _ cps)
    · exact removeSuffix_elsewhere hcard h seq b e shiftFails
  · rw [removeAll]
    generalize c.kv.remove seq b e shiftFails = r
    obtain ⟨kv, err⟩ := r
    have hkv : SlotsCounted ids n (c.kvRemoved seq kv) := ⟨h.counted, h.size, h.noError⟩
    have hel : Elsewhere [seq] c (c.kvRemoved seq kv) := Elsewhere.same _ c kv _ _ _
    cases err with
    | some err => exact Elsewhere.same _ c kv _ _ _
    | none => exact hel.trans (dropState_elsewhere hkv seq)

/-- A fork touches no sequence but its two. -/
theorem copyPrefix_elsewhere (h : SlotsCounted ids n c) (srcSeq dstSeq len : Int) :
    Elsewhere [srcSeq, dstSeq] c (c.copyPrefix srcSeq dstSeq len) := by
  have hkv : SlotsCounted ids n { c with kv := c.kv.copyPrefix srcSeq dstSeq len } :=
    ⟨h.counted, h.size, h.noError⟩
  have hel : Elsewhere [srcSeq, dstSeq] c { c with kv := c.kv.copyPrefix srcSeq dstSeq len } :=
    Elsewhere.same _ c _ _ _ _
  rw [copyPrefix_eq h]
  refine hel.trans ?_
  cases hslot : c.slotForSeq dstSeq with
  | none => exact shareFrom_elsewhere hkv srcSeq dstSeq
  | some dstSlot =>
    have hr := release_elsewhere { c with kv := c.kv.copyPrefix srcSeq dstSeq len } dstSeq dstSlot
    have hsub : ∀ seq, seq ∉ [srcSeq, dstSeq] → seq ∉ [dstSeq] := by
      intro seq hne hmem
      exact hne (mem_cons_of_mem _ hmem)
    refine Elsewhere.trans ⟨hr.curSeqs, hr.curSlots, hr.ensured, fun seq hs => ?_,
      fun seq hs => ?_⟩ (shareFrom_elsewhere (release_counted hkv hslot) srcSeq dstSeq)
    · exact hr.owner seq (hsub seq hs)
    · exact hr.isPrivate seq (hsub seq hs)

/-! ## §3  `EnsureWritable` in a pass -/

variable {batch : Batch}

/-- What leaves the sequences of the batch alone leaves the pass alone. -/
theorem InPass.elsewhere {seqs : List Int} {c d : Recurrent τ}
    (h : InPass batch c) (he : Elsewhere seqs c d)
    (hseqs : ∀ seq ∈ seqs, ∀ e ∈ batch, e.seq ≠ seq) : InPass batch d := by
  have hout : ∀ seq ∈ c.curSeqs, seq ∉ seqs := by
    intro seq hseq hmem
    obtain ⟨e, hb, heq⟩ := (h.seqs seq).mp hseq
    exact hseqs seq hmem e hb heq
  refine ⟨?_, ?_, ?_, ?_⟩
  · rw [he.curSeqs]
    exact h.seqs
  · rw [he.curSeqs]
    exact h.nodup
  · show d.curSlots.map some = d.curSeqs.map d.slotForSeq
    rw [he.curSlots, he.curSeqs, h.agrees]
    exact map_congr_left fun seq hseq => (he.owner seq (hout seq hseq)).symm
  · rw [he.curSeqs, he.ensured]
    exact fun hen seq hseq => he.isPrivate seq (hout seq hseq) (h.ensured hen seq hseq)

/-- `EnsureWritable` in a pass makes its sequences private. -/
theorem InPass.ensureLoop (hcard : ids.card ≤ n) (hc : SlotsCounted ids n c) (h : InPass batch c) :
    InPass batch (ensureLoop c.curSeqs 0 c).1 ∧
      ∀ seq ∈ c.curSeqs, (Recurrent.ensureLoop c.curSeqs 0 c).1.Private seq := by
  obtain ⟨hagrees, hseqs⟩ := ensureLoop_agrees hcard c.curSeqs 0 c hc h.agrees h.nodup rfl
  have hpriv := ensureLoop_private hcard c.curSeqs 0 c hc
  refine ⟨⟨?_, ?_, hagrees, ?_⟩, fun seq hseq => hpriv seq (Or.inl hseq)⟩
  · rw [hseqs]
    exact h.seqs
  · rw [hseqs]
    exact h.nodup
  · rw [hseqs]
    exact fun _ seq hseq => hpriv seq (Or.inl hseq)

theorem needsWritable_false (h : SlotsCounted ids n c) (hneeds : ¬c.needsWritable = true) :
    ∀ seq ∈ c.curSeqs, c.Private seq := by
  intro seq hseq slot hslot
  by_contra hcount
  refine hneeds (any_eq_true.mpr ⟨seq, hseq, ?_⟩)
  rw [hslot]
  show (c.validSlot slot && decide (1 < c.refCount slot)) = true
  rw [h.validSlot hslot, Bool.true_and]
  exact decide_eq_true (Nat.lt_of_not_le hcount)

/-- **`ensureWritable` makes the slots of the pass private.** -/
theorem InPass.ensureWritableOnce (hcard : ids.card ≤ n)
    (hc : SlotsCounted ids n c) (h : InPass batch c) :
    InPass batch c.ensureWritableOnce ∧
      ∀ seq ∈ c.ensureWritableOnce.curSeqs, c.ensureWritableOnce.Private seq := by
  rw [ensureWritableOnce_eq hcard hc]
  by_cases hen : c.writableEnsured = true
  · rw [if_pos hen]
    exact ⟨h, h.ensured hen⟩
  rw [if_neg hen]
  by_cases hneeds : c.needsWritable = true
  · simp only [if_pos hneeds]
    obtain ⟨hp, hpriv⟩ := h.ensureLoop hcard hc
    have hpriv' : ∀ seq ∈ (Recurrent.ensureLoop c.curSeqs 0 c).1.curSeqs,
        (Recurrent.ensureLoop c.curSeqs 0 c).1.Private seq := by
      intro seq hseq
      exact hpriv seq ((h.seqs seq).mpr ((hp.seqs seq).mp hseq))
    exact ⟨⟨hp.seqs, hp.nodup, hp.agrees, fun _ => hpriv'⟩, hpriv'⟩
  · simp only [if_neg hneeds]
    have hpriv := needsWritable_false hc hneeds
    exact ⟨⟨h.seqs, h.nodup, h.agrees, fun _ => hpriv⟩, hpriv⟩

/-- Private slots of different sequences differ. -/
theorem InPass.writable (hc : SlotsCounted ids n c) (h : InPass batch c)
    (hpriv : ∀ seq ∈ c.curSeqs, c.Private seq) : Writable batch c := by
  have hown : ∀ slot ∈ c.curSlots, ∃ seq ∈ c.curSeqs, c.slotForSeq seq = some slot := by
    intro slot hslot
    have hmem : some slot ∈ c.curSlots.map some := mem_map_of_mem hslot
    rw [h.agrees] at hmem
    exact mem_map.mp hmem
  have hmapped : (c.curSeqs.map c.slotForSeq).Nodup := by
    refine List.Nodup.map_on (fun seq hseq seq' hseq' heq => ?_) h.nodup
    cases hslot : c.slotForSeq seq with
    | some slot =>
      rw [hslot] at heq
      exact hc.counted.owner_unique (hpriv seq hseq slot hslot) hslot heq.symm
    | none =>
      have hmem : none ∈ c.curSeqs.map c.slotForSeq := mem_map.mpr ⟨seq, hseq, hslot⟩
      rw [← h.agrees] at hmem
      obtain ⟨slot, _, hc⟩ := mem_map.mp hmem
      cases hc
  refine ⟨h.seqs, h.agrees, ?_, ?_⟩
  · rw [← h.agrees] at hmapped
    exact hmapped.of_map some
  intro slot hslot
  obtain ⟨seq, hseq, howner⟩ := hown slot hslot
  have hle := hpriv seq hseq slot howner
  have hpos : 0 < c.refCount slot := hc.counted.count_pos howner
  omega

/-! ## §4  Runs -/

/-- A pass that returns nil and does not reserve is under way. -/
theorem startForward_inPass (hcard : ids.card ≤ n)
    (h : SlotsCounted ids n c) (hids : ∀ e ∈ batch, e.seq ∈ ids)
    {maxMoves : Int} (hnil : (c.startForward batch false maxMoves).2 = none) :
    InPass batch (c.startForward batch false maxMoves).1 := by
  rw [startForward] at hnil ⊢
  generalize c.kv.startForward batch false maxMoves = f at hnil ⊢
  obtain ⟨kv, _, err⟩ := f
  cases err with
  | some e => cases hnil
  | none =>
    have hkv : SlotsCounted ids n { c with kv := kv } := ⟨h.counted, h.size, h.noError⟩
    have hcases := startSlots_cases hcard hkv hids false
    have hnil' : (startSlots { c with kv := kv } batch false).2 = none := hnil
    generalize startSlots { c with kv := kv } batch false = r at hcases hnil'
    cases hcases with
    | empty _ hempty =>
      refine ⟨fun seq => ?_, nodup_nil, rfl, fun hen => by cases hen⟩
      rw [hempty]
      simp
    | notSupported _ => cases hnil'
    | started d newSlots _ hd =>
      obtain ⟨pos, cps, hf⟩ := finalizeStartForward_frame (d.zeroSlots newSlots) batch false
      have hseqs : d.curSeqs = batchSeqs batch := by
        obtain ⟨owner, count, free, cur, rfl⟩ := hd.frame
        rfl
      rw [hf]
      refine ⟨?_, ?_, ?_, fun hen => by cases hen⟩
      · intro seq
        rw [← mem_batchSeqs, ← hseqs]
        exact Iff.rfl
      · show d.curSeqs.Nodup
        rw [hseqs]
        exact batchSeqs_nodup batch
      · show d.curSlots.map some = d.curSeqs.map d.slotForSeq
        rw [hseqs]
        exact hd.slots

/-- The call starts no other pass, and names no sequence of the batch in a
`CopyPrefix` or a `Remove`. -/
def Call.Leaves (batch : Batch) : Call τ → Prop
  | .startForward _ _ _ => False
  | .copyPrefix srcSeq dstSeq _ => ∀ e ∈ batch, e.seq ≠ srcSeq ∧ e.seq ≠ dstSeq
  | .remove seq _ _ _ => ∀ e ∈ batch, e.seq ≠ seq
  | _ => True

/-- **Step lemma** for the calls within a pass. -/
theorem InPass.apply (hcard : ids.card ≤ n)
    (hc : SlotsCounted ids n c) (h : InPass batch c) {call : Call τ}
    (hleaves : call.Leaves batch) : InPass batch (c.apply call).1 := by
  cases call with
  | startForward _ _ _ => exact hleaves.elim
  | ensureWritableAll => exact (h.ensureLoop hcard hc).1
  | ensureWritable => exact (h.ensureWritableOnce hcard hc).1
  | updateStates batch' tokens =>
    obtain ⟨slots, cps, hf⟩ := updateStates_frame c batch' tokens
    show InPass batch (c.updateStates batch' tokens)
    rw [hf]
    exact ⟨h.seqs, h.nodup, h.agrees, h.ensured⟩
  | copyPrefix srcSeq dstSeq len =>
    refine h.elsewhere (copyPrefix_elsewhere hc srcSeq dstSeq len) fun seq hseq e he => ?_
    rcases mem_cons.mp hseq with rfl | hseq'
    · exact (hleaves e he).1
    · rw [mem_singleton.mp hseq']
      exact (hleaves e he).2
  | prepareRestore seq targetPos =>
    obtain ⟨pending, hf⟩ := prepareRestore_frame c seq targetPos
    show InPass batch (c.prepareRestore seq targetPos).1
    rw [hf]
    exact ⟨h.seqs, h.nodup, h.agrees, h.ensured⟩
  | remove seq b e shiftFails =>
    refine h.elsewhere (remove_elsewhere hcard hc seq b e shiftFails) fun seq' hseq e' he => ?_
    rw [mem_singleton.mp hseq]
    exact hleaves e' he

/-- The cache after a list of calls. -/
def run (c : Recurrent τ) (calls : List (Call τ)) : Recurrent τ :=
  calls.foldl (fun c call => (c.apply call).1) c

/-- **Run lemma** for the calls within a pass. -/
theorem InPass.run (hcard : ids.card ≤ n)
    (calls : List (Call τ)) (hcalls : ∀ call ∈ calls, call.Within ids ∧ call.Leaves batch)
    (hc : SlotsCounted ids n c) (h : InPass batch c) :
    SlotsCounted ids n (c.run calls) ∧ InPass batch (c.run calls) := by
  induction calls generalizing c with
  | nil => exact ⟨hc, h⟩
  | cons call calls ih =>
    obtain ⟨hwithin, hleaves⟩ := hcalls call mem_cons_self
    exact ih (fun call' hmem => hcalls call' (mem_cons_of_mem _ hmem))
      (apply_counted hcard hc hwithin).1 (h.apply hcard hc hleaves)

/-- **The slot allocator.** In every run with no more sequences than slots the
counts are the numbers of sequences of the slots and the free list holds the
slots without one; no call runs out of slots; and if the calls since a
`StartForward` that returned nil leave its sequences alone, `ensureWritable`
returns nil and leaves each of them a slot of its own. -/
theorem allocator_exact {ids : Finset Int} {n : ℕ} (hcard : ids.card ≤ n) {c : Recurrent τ}
    (hc : (slotSystem ids n).Reachable c) :
    Counted ids n c.alloc ∧
    (∀ call : Call τ, call.Within ids → (c.apply call).2 ≠ some .noSlot) ∧
    ∀ (batch : Batch) (maxMoves : Int), (∀ e ∈ batch, e.seq ∈ ids) →
      (c.startForward batch false maxMoves).2 = none →
      ∀ calls : List (Call τ), (∀ call ∈ calls, call.Within ids ∧ call.Leaves batch) →
        ((c.startForward batch false maxMoves).1.run calls).ensureWritable.2 = none ∧
        Writable batch ((c.startForward batch false maxMoves).1.run calls).ensureWritable.1 := by
  have hcounted := reachable_counted hcard hc
  refine ⟨hcounted.counted, fun call hcall => (apply_counted hcard hcounted hcall).2, ?_⟩
  intro batch maxMoves hids hnil calls hcalls
  have hstart := (startForward_counted hcard hcounted hids false maxMoves).1
  have hpass := startForward_inPass hcard hcounted hids hnil
  obtain ⟨hrun, hin⟩ := hpass.run hcard calls hcalls hstart
  have hens := (apply_counted hcard hrun (show (Call.ensureWritable : Call τ).Within ids from
    trivial)).1
  obtain ⟨hin', hpriv⟩ := hin.ensureWritableOnce hcard hrun
  exact ⟨hens.noError, hin'.writable hens hpriv⟩

/-- A cache of two slots over four cells. -/
def twoSlots : Recurrent ℕ :=
  Recurrent.init ((Causal.init 0 0 0 ⟨1, 1⟩ 2 2 1).get rfl) 2 24 16 1664

theorem twoSlots_reachable : (slotSystem {0, 1} 2).Reachable twoSlots :=
  .init ⟨_, _, _, _, rfl⟩

/-- A pass of two sequences over the empty cache. -/
theorem allocator_exact_twoSlots : ({0, 1} : Finset Int).card ≤ 2 ∧
    (twoSlots.startForward [⟨0, 0⟩, ⟨0, 1⟩] false 1).2 = none ∧
    Writable [⟨0, 0⟩, ⟨0, 1⟩]
      ((twoSlots.startForward [⟨0, 0⟩, ⟨0, 1⟩] false 1).1.run []).ensureWritable.1 :=
  ⟨by decide, by decide, ((allocator_exact (by decide) twoSlots_reachable).2.2 _ _ (by decide)
    (by decide) [] (fun _ hmem => absurd hmem not_mem_nil)).2⟩

/-- **A removal between `StartForward` and `ensureWritable`** leaves a sequence
of the batch without a slot, and `curSlots` with one that is free. -/
theorem removed_in_pass :
    ({0, 1} : Finset Int).card ≤ 2 ∧ ∃ c : Recurrent ℕ, (slotSystem {0, 1} 2).Reachable c ∧
      c.ensureWritable.2 = none ∧
      c.ensureWritable.1.curSeqs = [0] ∧ c.ensureWritable.1.curSlots = [0] ∧
      c.ensureWritable.1.slotForSeq 0 = none ∧ c.ensureWritable.1.refCount 0 = 0 := by
  have hstart : (Call.startForward [⟨0, 0⟩] false 1 : Call ℕ).Within {0, 1} := by
    show ∀ e ∈ ([⟨0, 0⟩] : Batch), e.seq ∈ ({0, 1} : Finset Int)
    decide
  have hremove : (Call.remove 0 0 maxInt32 false : Call ℕ).Within {0, 1} := by
    show (0 : Int) ∈ ({0, 1} : Finset Int)
    decide
  refine ⟨by decide, twoSlots.run [.startForward [⟨0, 0⟩] false 1, .remove 0 0 maxInt32 false],
    .step (.step twoSlots_reachable ⟨hstart, rfl⟩) ⟨hremove, rfl⟩, ?_⟩
  decide

end Recurrent

end Ollama.KvCache
