import Ollama.KvCache.Frame
import Ollama.KvCache.RecurrentSlots

/-!
# Several caches: model of `kvcache/wrapper.go` and `kvcache/encoder.go`

A wrapper passes each call on to a list of causal, encoder and recurrent
caches. The tensors of the encoder cache are left out. The model's layers store
in one cache at a time.
-/

namespace Ollama.KvCache

open List

/-! ## §1  `EncoderCache` -/

structure EncoderCache where
  curPos : Int := 0
  curReserve : Bool := false
  encoderCached : Bool := false
  encoderPos : Int := 0
deriving DecidableEq, Repr

namespace EncoderCache

/-- `StartForward`; `image` is the position of the last multimodal input of the
batch, if there is one. -/
def startForward (c : EncoderCache) (image : Option Int) (reserve : Bool) : EncoderCache :=
  { c with curPos := image.getD c.curPos, curReserve := reserve }

def put (c : EncoderCache) : EncoderCache :=
  if !c.curReserve then { c with encoderPos := c.curPos, encoderCached := true } else c

def remove (c : EncoderCache) (beginIndex endIndex : Int) : EncoderCache :=
  if beginIndex ≤ c.encoderPos ∧ c.encoderPos < endIndex then { c with encoderCached := false }
  else c

end EncoderCache

/-! ## §2  One cache -/

inductive AnyCache (τ : Type) where
  | causal (c : Causal)
  | encoder (c : EncoderCache)
  | recurrent (c : Recurrent τ)

inductive LayerCall (τ : Type) where
  | setCausal (ctx : Bool) (except : List Nat)
  | put
  | ensureWritableAll
  | ensureWritable
  | updateStates (batch : Batch) (tokens : List τ)

namespace AnyCache

variable {τ : Type}

def startForward (c : AnyCache τ) (batch : Batch) (image : Option Int) (reserve : Bool)
    (maxMoves : Int) : AnyCache τ × Option RecurrentError :=
  match c with
  | .causal c =>
      let f := c.startForward batch reserve maxMoves
      (.causal f.cache, f.err.map .kv)
  | .encoder c => (.encoder (c.startForward image reserve), none)
  | .recurrent c =>
      let (c, err) := c.startForward batch reserve maxMoves
      (.recurrent c, err)

def remove (c : AnyCache τ) (seq beginIndex endIndex : Int) (shiftFails : Bool) :
    AnyCache τ × Option RecurrentError :=
  match c with
  | .causal c =>
      let (c, err) := c.remove seq beginIndex endIndex shiftFails
      (.causal c, err.map .kv)
  | .encoder c => (.encoder (c.remove beginIndex endIndex), none)
  | .recurrent c =>
      let (c, err) := c.remove seq beginIndex endIndex shiftFails
      (.recurrent c, err)

/-- `CopyPrefix`, which panics in the encoder cache. -/
def copyPrefix (c : AnyCache τ) (srcSeq dstSeq len : Int) : Option (AnyCache τ) :=
  match c with
  | .causal c => some (.causal (c.copyPrefix srcSeq dstSeq len))
  | .encoder _ => none
  | .recurrent c => some (.recurrent (c.copyPrefix srcSeq dstSeq len))

/-- A call of a layer, to a cache of the kind it is for. -/
def layer (c : AnyCache τ) (call : LayerCall τ) : AnyCache τ :=
  match c, call with
  | .causal c, .setCausal ctx except => .causal (c.setCausal ctx except)
  | .encoder c, .put => .encoder c.put
  | .recurrent c, .ensureWritableAll => .recurrent c.ensureWritableAll.1
  | .recurrent c, .ensureWritable => .recurrent c.ensureWritable.1
  | .recurrent c, .updateStates batch tokens => .recurrent (c.updateStates batch tokens)
  | c, _ => c

/-- The state after `Init`. -/
def Initial : AnyCache τ → Prop
  | .causal c => Causal.system.init c
  | .encoder c => c = {}
  | .recurrent c => ∃ kv n count minPos interval,
      Causal.system.init kv ∧ c = Recurrent.init kv n count minPos interval

end AnyCache

/-! ## §3  `WrapperCache` -/

abbrev WrapperCache (τ : Type) := List (AnyCache τ)

namespace WrapperCache

variable {τ : Type}

/-- The calls of `Remove` that undo a batch in one cache. Up to
`math.MaxInt32` nothing is shifted. -/
def undo (batch : Batch) (c : AnyCache τ) : AnyCache τ :=
  batch.foldl (fun c e => (c.remove e.seq e.pos maxInt32 false).1) c

/-- The loop of `StartForward`, after the caches `done`. -/
def startLoop (batch : Batch) (image : Option Int) (reserve : Bool) (maxMoves : ℕ → Int) :
    List (AnyCache τ) → List (AnyCache τ) → WrapperCache τ × Option RecurrentError
  | done, [] => (done, none)
  | done, cache :: rest =>
      match cache.startForward batch image reserve (maxMoves done.length) with
      | (cache, some err) => (done.map (undo batch) ++ cache :: rest, some err)
      | (cache, none) => startLoop batch image reserve maxMoves (done ++ [cache]) rest

def startForward (c : WrapperCache τ) (batch : Batch) (image : Option Int) (reserve : Bool)
    (maxMoves : ℕ → Int) : WrapperCache τ × Option RecurrentError :=
  startLoop batch image reserve maxMoves [] c

/-- `Remove`, which stops at the first error. `shiftFails` is what the shift
function of each cache does. -/
def remove (seq beginIndex endIndex : Int) (shiftFails : ℕ → Bool) :
    WrapperCache τ → WrapperCache τ × Option RecurrentError
  | [] => ([], none)
  | cache :: rest =>
      match cache.remove seq beginIndex endIndex (shiftFails 0) with
      | (cache, some err) => (cache :: rest, some err)
      | (cache, none) =>
          let (rest, err) := remove seq beginIndex endIndex (fun i => shiftFails (i + 1)) rest
          (cache :: rest, err)

def copyPrefix (srcSeq dstSeq len : Int) : WrapperCache τ → Option (WrapperCache τ)
  | [] => some []
  | cache :: rest =>
      match cache.copyPrefix srcSeq dstSeq len with
      | none => none
      | some cache => (copyPrefix srcSeq dstSeq len rest).map (cache :: ·)

/-! ## §4  Runs -/

/-- The calls a run makes; `layer i` is a call of the model to cache `i`. -/
inductive Call (τ : Type) where
  | startForward (batch : Batch) (image : Option Int) (reserve : Bool) (maxMoves : ℕ → Int)
  | layer (i : ℕ) (call : LayerCall τ)
  | copyPrefix (srcSeq dstSeq len : Int)
  | remove (seq beginIndex endIndex : Int) (shiftFails : ℕ → Bool)

/-- The caches that a call leaves, if it does not panic. -/
def apply (c : WrapperCache τ) : Call τ → Option (WrapperCache τ)
  | .startForward batch image reserve maxMoves => some (c.startForward batch image reserve maxMoves).1
  | .layer i call => some (c.modify i fun cache => cache.layer call)
  | .copyPrefix srcSeq dstSeq len => copyPrefix srcSeq dstSeq len c
  | .remove seq beginIndex endIndex shiftFails =>
      some (remove seq beginIndex endIndex shiftFails c).1

/-- The runs of a wrapper over any list of caches. -/
def system (τ : Type) : Lib.System (WrapperCache τ) (Call τ) where
  init c := ∀ cache ∈ c, cache.Initial
  step c call c' := c.apply call = some c'

/-- Batches with positions below `math.MaxInt32`, which stands for the end, and
removals of a range. -/
def InRange (_c : WrapperCache τ) : Call τ → Prop
  | .startForward batch _ _ _ => ∀ e ∈ batch, 0 ≤ e.pos ∧ e.pos < maxInt32
  | .remove _ beginIndex endIndex _ => 0 ≤ beginIndex ∧ beginIndex ≤ endIndex
  | _ => True

end WrapperCache

/-! ## §5  What every run keeps -/

namespace Recurrent

variable {τ : Type}

structure SameCore (c d : Recurrent τ) : Prop where
  kv : d.kv = c.kv
  pending : d.pendingRestore = c.pendingRestore

theorem SameCore.refl (c : Recurrent τ) : SameCore c c := ⟨rfl, rfl⟩

theorem SameCore.trans {c d e : Recurrent τ} (h : SameCore c d) (h' : SameCore d e) :
    SameCore c e := ⟨h'.kv.trans h.kv, h'.pending.trans h.pending⟩

theorem SameCore.after {c d e : Recurrent τ} (h : SameCore d e) (hkv : d.kv = c.kv)
    (hpending : d.pendingRestore = c.pendingRestore) : SameCore c e :=
  ⟨h.kv.trans hkv, h.pending.trans hpending⟩

theorem finalizeStartForward_core (c : Recurrent τ) (batch : Batch) (reserve : Bool) :
    SameCore c (c.finalizeStartForward batch reserve) := by
  obtain ⟨pos, cps, h⟩ := finalizeStartForward_frame c batch reserve
  rw [h]
  exact ⟨rfl, rfl⟩

theorem assignSlots_core : ∀ (seqs : List Int) (c : Recurrent τ) (newSlots : List ℕ),
    SameCore c (assignSlots seqs c newSlots).1 := by
  intro seqs
  induction seqs with
  | nil => exact fun c _ => SameCore.refl c
  | cons seq seqs ih =>
      intro c newSlots
      unfold assignSlots
      split
      · exact (ih _ newSlots).after rfl rfl
      · split
        · exact SameCore.refl c
        · exact (ih _ _).after rfl rfl

theorem startForwardSingleSeq_core (c : Recurrent τ) (seq : Int) (batch : Batch)
    (reserve : Bool) : SameCore c (c.startForwardSingleSeq seq batch reserve).1 := by
  unfold startForwardSingleSeq
  extract_lets d
  split
  · exact (finalizeStartForward_core _ batch true).after rfl rfl
  split
  · exact (finalizeStartForward_core _ batch false).after rfl rfl
  · split
    · exact ⟨rfl, rfl⟩
    · exact (finalizeStartForward_core _ batch false).after rfl rfl

theorem startSlots_core (c : Recurrent τ) (batch : Batch) (reserve : Bool) :
    SameCore c (c.startSlots batch reserve).1 := by
  cases batch with
  | nil => exact ⟨rfl, rfl⟩
  | cons first batch =>
      rw [startSlots]
      split
      · exact startForwardSingleSeq_core c first.seq _ reserve
      show SameCore c (ite _ _ (ite _ _ _) : Recurrent τ × Option RecurrentError).1
      split
      · exact ⟨rfl, rfl⟩
      split
      · exact (finalizeStartForward_core _ _ true).after rfl rfl
      have hassign := assignSlots_core (batchSeqs (first :: batch))
        { c with curSeqs := batchSeqs (first :: batch), curSlots := [] } []
      generalize assignSlots (batchSeqs (first :: batch)) _ [] = r at hassign
      obtain ⟨d, newSlots, err⟩ := r
      cases err with
      | some err => exact hassign.after rfl rfl
      | none =>
          have hd : SameCore c d := hassign.after rfl rfl
          exact (finalizeStartForward_core (d.zeroSlots newSlots) _ false).after hd.kv hd.pending

theorem startForward_core (c : Recurrent τ) (batch : Batch) (reserve : Bool) (maxMoves : Int) :
    (c.startForward batch reserve maxMoves).1.kv = (c.kv.startForward batch reserve maxMoves).cache ∧
      (c.startForward batch reserve maxMoves).1.pendingRestore = c.pendingRestore := by
  unfold startForward
  extract_lets f d
  split
  · exact ⟨rfl, rfl⟩
  · have h := startSlots_core d batch reserve
    exact ⟨h.kv, h.pending⟩

theorem detach_core {c d : Recurrent τ} {seq : Int} {slot newSlot : ℕ}
    (h : c.detach seq slot = some (d, newSlot)) : SameCore c d := by
  cases hfree : c.freeSlots with
  | nil =>
      unfold detach at h
      rw [hfree] at h
      cases h
  | cons s rest =>
      rw [detach_eq hfree] at h
      cases h
      exact ⟨rfl, rfl⟩

theorem ensureLoop_core : ∀ (seqs : List Int) (i : ℕ) (c : Recurrent τ),
    SameCore c (ensureLoop seqs i c).1 := by
  intro seqs
  induction seqs with
  | nil => exact fun _ c => SameCore.refl c
  | cons seq seqs ih =>
      intro i c
      unfold ensureLoop
      split
      · exact ih (i + 1) c
      split
      · exact ih (i + 1) c
      split
      · exact ih (i + 1) c
      split
      · exact SameCore.refl c
      · rename_i d newSlot hdetach
        have hd := detach_core hdetach
        exact (ih (i + 1) _).after hd.kv hd.pending

theorem ensureWritableOnce_core (c : Recurrent τ) : SameCore c c.ensureWritableOnce := by
  have hloop := ensureLoop_core c.curSeqs 0 c
  unfold ensureWritableOnce ensureWritableAll
  split
  · exact SameCore.refl c
  split
  · generalize ensureLoop c.curSeqs 0 c = r at hloop
    obtain ⟨d, err⟩ := r
    cases err with
    | some err => exact ⟨hloop.kv, hloop.pending⟩
    | none => exact ⟨hloop.kv, hloop.pending⟩
  · exact ⟨rfl, rfl⟩

theorem updateStates_core (c : Recurrent τ) (batch : Batch) (tokens : List τ) :
    SameCore c (c.updateStates batch tokens) := by
  obtain ⟨slots, cps, h⟩ := updateStates_frame c batch tokens
  rw [h]
  exact ⟨rfl, rfl⟩

theorem copyPrefix_core (c : Recurrent τ) (srcSeq dstSeq len : Int) :
    (c.copyPrefix srcSeq dstSeq len).kv = c.kv.copyPrefix srcSeq dstSeq len ∧
      (c.copyPrefix srcSeq dstSeq len).pendingRestore = c.pendingRestore := by
  unfold copyPrefix release forget
  extract_lets d e
  have he : SameCore d e := by
    unfold e
    split
    · exact SameCore.refl d
    · split
      · exact ⟨rfl, rfl⟩
      · exact ⟨rfl, rfl⟩
  split
  · exact ⟨he.kv, he.pending⟩
  · split
    · exact ⟨he.kv, he.pending⟩
    · exact ⟨he.kv, he.pending⟩

theorem shiftState_core (c : Recurrent τ) (seq b e : Int) : SameCore c (c.shiftState seq b e).1 := by
  have hshift : ∀ (d : Recurrent τ) slot, SameCore d (d.shiftCheckpoints slot b e) := by
    intro d slot
    unfold shiftCheckpoints
    split
    · exact SameCore.refl d
    · exact ⟨rfl, rfl⟩
  unfold shiftState
  split
  · exact SameCore.refl c
  split
  · exact SameCore.refl c
  split
  · split
    · exact SameCore.refl c
    · rename_i d newSlot hdetach
      exact (detach_core hdetach).trans (hshift d newSlot)
  · exact hshift c _

theorem dropState_core (c : Recurrent τ) (seq : Int) : SameCore c (c.dropState seq) := by
  unfold dropState
  split
  · exact SameCore.refl c
  split
  · exact ⟨rfl, rfl⟩
  split
  · unfold clearCheckpoints
    split
    · exact ⟨rfl, rfl⟩
    · exact ⟨rfl, rfl⟩
  · exact ⟨rfl, rfl⟩

/-- A removal from a position after the start, up to the end, needs a prepared
restore. -/
theorem remove_suffix_of_none {c : Recurrent τ} {seq beginIndex : Int} {shiftFails : Bool}
    (hpending : c.pendingRestore seq = none) (hbegin : 0 < beginIndex) :
    c.remove seq beginIndex maxInt32 shiftFails = (c, some .notSupported) := by
  unfold remove removeSuffix
  rw [if_pos hbegin, if_neg (not_not.mpr rfl), hpending]

theorem kvRemoved_pending {c : Recurrent τ} {seq s : Int} {kv : Causal}
    (h : c.pendingRestore s = none) : (c.kvRemoved seq kv).pendingRestore s = none := by
  show Function.update c.pendingRestore seq none s = none
  by_cases hs : s = seq
  · rw [hs, Function.update_self]
  · rw [Function.update_of_ne hs]
    exact h

/-- A removal from the start removes from the causal cache. -/
theorem removeAll_core (c : Recurrent τ) (seq b e : Int) (shiftFails : Bool) :
    (c.removeAll seq b e shiftFails).1.kv = (c.kv.remove seq b e shiftFails).1 ∧
      ∀ s, c.pendingRestore s = none →
        (c.removeAll seq b e shiftFails).1.pendingRestore s = none := by
  unfold removeAll
  generalize c.kv.remove seq b e shiftFails = r
  obtain ⟨kv, err⟩ := r
  cases err with
  | some err => exact ⟨rfl, fun s hs => hs⟩
  | none =>
      have hdrop := dropState_core (c.kvRemoved seq kv) seq
      exact ⟨hdrop.kv, fun s hs => (congrFun hdrop.pending s).trans (kvRemoved_pending hs)⟩

theorem applyCheckpointRestore_core (c : Recurrent τ) (restore : CheckpointRestore) :
    SameCore c (c.applyCheckpointRestore restore).1 := by
  unfold applyCheckpointRestore
  split
  · exact SameCore.refl c
  rename_i entry _
  cases entry.state with
  | none =>
      dsimp only
      split
      · exact SameCore.refl c
      · exact ⟨rfl, rfl⟩
  | some state =>
      dsimp only
      split
      · exact ⟨rfl, rfl⟩
      · exact ⟨rfl, rfl⟩

theorem detachForRestore_kv {c d : Recurrent τ} {seq : Int} {restore restore' : CheckpointRestore}
    (h : c.detachForRestore seq restore = some (d, restore')) : d.kv = c.kv := by
  unfold detachForRestore at h
  split at h
  · cases h
    rfl
  split at h
  · split at h
    · cases h
    · rename_i e newSlot hdetach
      cases h
      exact (detach_core hdetach).kv
  · cases h
    rfl

theorem removeSuffix_kv (c : Recurrent τ) (seq b e : Int) (shiftFails : Bool) :
    (c.removeSuffix seq b e shiftFails).1.kv = c.kv ∨
      (c.removeSuffix seq b e shiftFails).1.kv = (c.kv.remove seq b e shiftFails).1 := by
  unfold removeSuffix
  split
  · exact Or.inl rfl
  split
  · exact Or.inl rfl
  split
  · exact Or.inl rfl
  split
  · exact Or.inl rfl
  rename_i d restore hdetach
  rw [← detachForRestore_kv hdetach]
  generalize d.kv.remove seq b e shiftFails = r
  obtain ⟨kv, err⟩ := r
  cases err with
  | some err => exact Or.inr rfl
  | none => exact Or.inr (applyCheckpointRestore_core _ restore).kv

theorem removeMiddle_core (c : Recurrent τ) (seq b e : Int) (shiftFails : Bool) :
    (c.removeMiddle seq b e shiftFails).1.kv = (c.kv.remove seq b e shiftFails).1 ∧
      ∀ s, c.pendingRestore s = none →
        (c.removeMiddle seq b e shiftFails).1.pendingRestore s = none := by
  unfold removeMiddle
  generalize c.kv.remove seq b e shiftFails = r
  obtain ⟨kv, err⟩ := r
  cases err with
  | some err => exact ⟨rfl, fun s hs => hs⟩
  | none =>
      have hshift := shiftState_core (c.kvRemoved seq kv) seq b e
      exact ⟨hshift.kv, fun s hs => (congrFun hshift.pending s).trans (kvRemoved_pending hs)⟩

theorem remove_kv (c : Recurrent τ) (seq b e : Int) (shiftFails : Bool) :
    (c.remove seq b e shiftFails).1.kv = c.kv ∨
      (c.remove seq b e shiftFails).1.kv = (c.kv.remove seq b e shiftFails).1 := by
  unfold remove
  split
  · split
    · exact Or.inr (removeMiddle_core c seq b e shiftFails).1
    · exact removeSuffix_kv c seq b e shiftFails
  · exact Or.inr (removeAll_core c seq b e shiftFails).1

/-- Without prepared restores a removal leaves none. -/
theorem remove_pending {c : Recurrent τ} (hpending : ∀ s, c.pendingRestore s = none)
    (seq b e : Int) (shiftFails : Bool) (s : Int) :
    (c.remove seq b e shiftFails).1.pendingRestore s = none := by
  by_cases hbegin : 0 < b
  · by_cases hend : e = maxInt32
    · rw [hend, remove_suffix_of_none (hpending seq) hbegin]
      exact hpending s
    · unfold remove
      rw [if_pos hbegin, if_pos hend]
      exact (removeMiddle_core c seq b e shiftFails).2 s (hpending s)
  · unfold remove
    rw [if_neg hbegin]
    exact (removeAll_core c seq b e shiftFails).2 s (hpending s)

/-- The causal cache inside after a call: one of its own calls, if any. -/
theorem apply_kv (c : Recurrent τ) (call : Call τ) :
    (c.apply call).1.kv = c.kv ∨ ∃ kvCall, (c.apply call).1.kv = c.kv.apply kvCall := by
  cases call with
  | startForward batch reserve maxMoves =>
      exact Or.inr ⟨.startForward batch reserve maxMoves,
        (startForward_core c batch reserve maxMoves).1⟩
  | ensureWritableAll => exact Or.inl (ensureLoop_core c.curSeqs 0 c).kv
  | ensureWritable => exact Or.inl (ensureWritableOnce_core c).kv
  | updateStates batch tokens => exact Or.inl (updateStates_core c batch tokens).kv
  | copyPrefix srcSeq dstSeq len =>
      exact Or.inr ⟨.copyPrefix srcSeq dstSeq len, (copyPrefix_core c srcSeq dstSeq len).1⟩
  | prepareRestore seq targetPos =>
      obtain ⟨pending, h⟩ := prepareRestore_frame c seq targetPos
      refine Or.inl ?_
      show (c.prepareRestore seq targetPos).1.kv = c.kv
      rw [h]
  | remove seq b e shiftFails =>
      exact (remove_kv c seq b e shiftFails).imp_right fun h => ⟨.remove seq b e shiftFails, h⟩

/-- The runs of a recurrent cache on its own. -/
def system (τ : Type) : Lib.System (Recurrent τ) (Call τ) where
  init c := (AnyCache.recurrent c).Initial
  step c call c' := c' = (c.apply call).1

theorem reachable_kv {c : Recurrent τ} (h : (system τ).Reachable c) : Causal.Wellformed c.kv := by
  refine h.invariant (P := fun c => Causal.Wellformed c.kv) ?_ ?_
  · rintro c ⟨kv, n, count, minPos, interval, hkv, rfl⟩
    exact Causal.init_wellformed hkv
  rintro c call c' hc rfl
  rcases apply_kv c call with hkv | ⟨kvCall, hkv⟩
  · rw [hkv]
    exact hc
  · rw [hkv]
    exact Causal.apply_wellformed hc kvCall

end Recurrent

namespace AnyCache

variable {τ : Type}

structure SoundKv (c : Causal) : Prop where
  wellformed : Causal.Wellformed c
  ranged : c.Ranged

theorem SoundKv.apply {c : Causal} (h : SoundKv c) (call : Causal.Call)
    (hcall : Causal.InRange c call) : SoundKv (c.apply call) :=
  ⟨Causal.apply_wellformed h.wellformed call, Causal.apply_ranged h.wellformed h.ranged hcall⟩

theorem SoundKv.init {c : Causal} (h : Causal.system.init c) : SoundKv c :=
  ⟨Causal.init_wellformed h, Causal.init_ranged h⟩

/-- A wrapper has no `PrepareRestore`, so a recurrent cache in it never has a
prepared restore. -/
def Sound : AnyCache τ → Prop
  | .causal c => SoundKv c
  | .encoder _ => True
  | .recurrent c => SoundKv c.kv ∧ ∀ seq, c.pendingRestore seq = none

theorem Initial.sound {c : AnyCache τ} (h : c.Initial) : c.Sound := by
  cases c with
  | causal c => exact SoundKv.init h
  | encoder c => trivial
  | recurrent c =>
      obtain ⟨kv, n, count, minPos, interval, hkv, rfl⟩ := h
      exact ⟨SoundKv.init hkv, fun _ => rfl⟩

variable {c : AnyCache τ}

theorem Sound.startForward (h : c.Sound) {batch : Batch}
    (hbatch : ∀ e ∈ batch, 0 ≤ e.pos ∧ e.pos < maxInt32) (image : Option Int) (reserve : Bool)
    (maxMoves : Int) : (c.startForward batch image reserve maxMoves).1.Sound := by
  cases c with
  | causal c => exact SoundKv.apply h (.startForward batch reserve maxMoves) hbatch
  | encoder c => trivial
  | recurrent c =>
      obtain ⟨hkv, hpending⟩ := c.startForward_core batch reserve maxMoves
      show SoundKv (c.startForward batch reserve maxMoves).1.kv ∧ ∀ seq,
        (c.startForward batch reserve maxMoves).1.pendingRestore seq = none
      rw [hkv, hpending]
      exact ⟨SoundKv.apply h.1 (.startForward batch reserve maxMoves) hbatch, h.2⟩

theorem Sound.layer (h : c.Sound) (call : LayerCall τ) : (c.layer call).Sound := by
  have hcore : ∀ {r d : Recurrent τ}, Recurrent.SameCore r d → (recurrent r).Sound →
      (recurrent d).Sound := by
    intro r d hd hr
    refine ⟨?_, fun seq => ?_⟩
    · rw [hd.kv]
      exact hr.1
    · rw [hd.pending]
      exact hr.2 seq
  cases c with
  | causal c =>
      cases call with
      | setCausal ctx except => exact SoundKv.apply h (.setCausal ctx except) trivial
      | _ => exact h
  | encoder c => cases call <;> trivial
  | recurrent c =>
      cases call with
      | ensureWritableAll => exact hcore (Recurrent.ensureLoop_core c.curSeqs 0 c) h
      | ensureWritable => exact hcore c.ensureWritableOnce_core h
      | updateStates batch tokens => exact hcore (c.updateStates_core batch tokens) h
      | _ => exact h

theorem Sound.copyPrefix (h : c.Sound) {c' : AnyCache τ} {srcSeq dstSeq len : Int}
    (hc : c.copyPrefix srcSeq dstSeq len = some c') : c'.Sound := by
  cases c with
  | causal c =>
      cases hc
      exact SoundKv.apply h (.copyPrefix srcSeq dstSeq len) trivial
  | encoder c => cases hc
  | recurrent c =>
      cases hc
      obtain ⟨hkv, hpending⟩ := c.copyPrefix_core srcSeq dstSeq len
      show SoundKv (c.copyPrefix srcSeq dstSeq len).kv ∧ ∀ seq,
        (c.copyPrefix srcSeq dstSeq len).pendingRestore seq = none
      rw [hkv, hpending]
      exact ⟨SoundKv.apply h.1 (.copyPrefix srcSeq dstSeq len) trivial, h.2⟩

theorem Sound.remove (h : c.Sound) {seq b e : Int} (hb : 0 ≤ b) (hbe : b ≤ e)
    (shiftFails : Bool) : (c.remove seq b e shiftFails).1.Sound := by
  cases c with
  | causal c => exact SoundKv.apply h (.remove seq b e shiftFails) ⟨hb, hbe⟩
  | encoder c => trivial
  | recurrent c =>
      refine ⟨?_, Recurrent.remove_pending h.2 seq b e shiftFails⟩
      rcases c.remove_kv seq b e shiftFails with hkv | hkv
      · show SoundKv (c.remove seq b e shiftFails).1.kv
        rw [hkv]
        exact h.1
      · show SoundKv (c.remove seq b e shiftFails).1.kv
        rw [hkv]
        exact SoundKv.apply h.1 (.remove seq b e shiftFails) ⟨hb, hbe⟩

end AnyCache

namespace WrapperCache

variable {τ : Type}

theorem undo_sound {batch : Batch} (hbatch : ∀ e ∈ batch, 0 ≤ e.pos ∧ e.pos < maxInt32)
    {c : AnyCache τ} (h : c.Sound) : (undo batch c).Sound := by
  induction batch generalizing c with
  | nil => exact h
  | cons e batch ih =>
      obtain ⟨h0, hlt⟩ := hbatch e mem_cons_self
      exact ih (fun e' he' => hbatch e' (mem_cons_of_mem e he'))
        (h.remove h0 (Int.le_of_lt hlt) false)

theorem startLoop_sound {batch : Batch} (hbatch : ∀ e ∈ batch, 0 ≤ e.pos ∧ e.pos < maxInt32)
    (image : Option Int) (reserve : Bool) (maxMoves : ℕ → Int) :
    ∀ (rest done : List (AnyCache τ)), (∀ c ∈ done, c.Sound) → (∀ c ∈ rest, c.Sound) →
      ∀ c ∈ (startLoop batch image reserve maxMoves done rest).1, c.Sound := by
  intro rest
  induction rest with
  | nil => exact fun done hdone _ => hdone
  | cons cache rest ih =>
      intro done hdone hrest
      have hcache := (hrest cache mem_cons_self).startForward hbatch image reserve
        (maxMoves done.length)
      have hrest' : ∀ c ∈ rest, c.Sound := fun c hc => hrest c (mem_cons_of_mem cache hc)
      unfold startLoop
      generalize cache.startForward batch image reserve (maxMoves done.length) = r at hcache
      obtain ⟨cache', err⟩ := r
      cases err with
      | some err =>
          intro c hc
          rcases mem_append.mp hc with hc | hc
          · obtain ⟨c', hc', rfl⟩ := mem_map.mp hc
            exact undo_sound hbatch (hdone c' hc')
          · rcases mem_cons.mp hc with rfl | hc
            · exact hcache
            · exact hrest' c hc
      | none =>
          refine ih (done ++ [cache']) (fun c hc => ?_) hrest'
          rcases mem_append.mp hc with hc | hc
          · exact hdone c hc
          · rw [mem_singleton.mp hc]
            exact hcache

theorem remove_sound {seq b e : Int} (hb : 0 ≤ b) (hbe : b ≤ e) :
    ∀ (c : WrapperCache τ) (shiftFails : ℕ → Bool), (∀ cache ∈ c, cache.Sound) →
      ∀ cache ∈ (remove seq b e shiftFails c).1, cache.Sound := by
  intro c
  induction c with
  | nil => exact fun _ h => h
  | cons first rest ih =>
      intro shiftFails h
      have hfirst : (first.remove seq b e (shiftFails 0)).1.Sound :=
        (h first mem_cons_self).remove hb hbe (shiftFails 0)
      have hrest : ∀ cache ∈ rest, cache.Sound := fun cache hc =>
        h cache (mem_cons_of_mem first hc)
      unfold remove
      generalize first.remove seq b e (shiftFails 0) = r at hfirst
      obtain ⟨first', err⟩ := r
      cases err with
      | some err =>
          intro cache hc
          rcases mem_cons.mp hc with rfl | hc
          · exact hfirst
          · exact hrest cache hc
      | none =>
          intro cache hc
          rcases mem_cons.mp hc with rfl | hc
          · exact hfirst
          · exact ih (fun i => shiftFails (i + 1)) hrest cache hc

theorem copyPrefix_sound {srcSeq dstSeq len : Int} :
    ∀ (c c' : WrapperCache τ), (∀ cache ∈ c, cache.Sound) →
      copyPrefix srcSeq dstSeq len c = some c' → ∀ cache ∈ c', cache.Sound := by
  intro c
  induction c with
  | nil =>
      intro c' _ hc
      cases hc
      exact fun _ h => nomatch h
  | cons first rest ih =>
      intro c' h hc
      unfold copyPrefix at hc
      cases hfirst : first.copyPrefix srcSeq dstSeq len with
      | none =>
          rw [hfirst] at hc
          cases hc
      | some first' =>
          rw [hfirst] at hc
          obtain ⟨rest', hrest, rfl⟩ := Option.map_eq_some_iff.mp hc
          intro cache hcache
          rcases mem_cons.mp hcache with rfl | hcache
          · exact (h first mem_cons_self).copyPrefix hfirst
          · exact ih rest' (fun c hc => h c (mem_cons_of_mem first hc)) hrest cache hcache

/-- **The invariant holds in every run** whose calls are in range. -/
theorem reachable_sound {c : WrapperCache τ} (h : ((system τ).guard InRange).Reachable c) :
    ∀ cache ∈ c, cache.Sound := by
  refine h.invariant (P := fun c => ∀ cache ∈ c, cache.Sound)
    (fun c hc cache hcache => (hc cache hcache).sound) ?_
  rintro c call c' hc ⟨hcall, hstep⟩
  cases call with
  | startForward batch image reserve maxMoves =>
      obtain rfl := Option.some.inj hstep
      exact startLoop_sound hcall image reserve maxMoves c [] (fun _ h => nomatch h) hc
  | layer i call =>
      obtain rfl := Option.some.inj hstep
      intro cache hcache
      obtain ⟨j, hj⟩ := mem_iff_getElem?.mp hcache
      rw [getElem?_modify] at hj
      obtain ⟨cache', hcache', rfl⟩ := Option.map_eq_some_iff.mp hj
      have hsound := hc cache' (mem_of_getElem? hcache')
      split
      · exact hsound.layer call
      · exact hsound
  | copyPrefix srcSeq dstSeq len => exact copyPrefix_sound c c' hc hstep
  | remove seq b e shiftFails =>
      obtain rfl := Option.some.inj hstep
      exact remove_sound hcall.1 hcall.2 c shiftFails hc

end WrapperCache

end Ollama.KvCache
