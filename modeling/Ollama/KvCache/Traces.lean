import Ollama.KvCache.Fragmentation
import Ollama.KvCache.Wrapper

/-!
# What a failed `StartForward` leaves

The caches store a batch one after the other, and the recurrent cache stores it
in its causal part before it looks at the shape of the batch. A wrapper undoes
what the caches before the failing one have stored by calls of `Remove`; these
also remove what was stored before at later positions, and a recurrent cache
refuses them except at position 0.
-/

namespace Ollama.KvCache

open List Causal Recurrent

namespace AnyCache

variable {τ : Type}

/-! ## §1  What a cache stores -/

/-- The positions stored for a sequence; the encoder cache has one position for
all. -/
def holds : AnyCache τ → Int → Set Int
  | .causal c, seq => stored c.cells seq
  | .encoder c, _ => {p | c.encoderCached = true ∧ c.encoderPos = p}
  | .recurrent c, seq => stored c.kv.cells seq

def kept (batch : Batch) : AnyCache τ → Int → Set Int
  | .causal c, seq => {p ∈ stored c.cells seq | (c.beginBatch batch).Keeps seq p}
  | .encoder c, _ => {p | c.encoderCached = true ∧ c.encoderPos = p}
  | .recurrent c, seq => {p ∈ stored c.kv.cells seq | (c.kv.beginBatch batch).Keeps seq p}

/-- The same positions are stored as before, apart from what the sliding window
evicts. -/
structure Untraced (batch : Batch) (c c' : AnyCache τ) : Prop where
  kept : ∀ seq, c.kept batch seq ⊆ c'.holds seq
  only : ∀ seq, c'.holds seq ⊆ c.holds seq

theorem kept_subset (batch : Batch) (c : AnyCache τ) (seq : Int) :
    c.kept batch seq ⊆ c.holds seq := by
  cases c with
  | causal c => exact fun p hp => hp.1
  | encoder c => exact fun p hp => hp
  | recurrent c => exact fun p hp => hp.1

theorem Untraced.refl (batch : Batch) (c : AnyCache τ) : Untraced batch c c :=
  ⟨kept_subset batch c, fun _ => subset_rfl⟩

/-! ## §2  When a cache refuses a batch -/

def KvFull (c : Causal) (batch : Batch) : Prop :=
  freeCells (c.beginBatch batch).updateSlidingWindow.cells < batch.length

theorem kv_err_iff {c : Causal} (hw : Wellformed c) {batch : Batch} (hne : batch ≠ [])
    (maxMoves : Int) : (c.startForward batch false maxMoves).err ≠ none ↔ KvFull c batch := by
  have hb : (c.beginBatch batch).RangesCover := ⟨hw.cover.covers, hw.cover.below⟩
  have hnone := locate_none_iff hb (length_pos_of_ne_nil hne) maxMoves
  obtain ⟨-, hres⟩ := startForward_located c batch maxMoves
  refine Iff.trans ?_ hnone
  cases hloc : ((c.beginBatch batch).locate maxMoves).loc with
  | none =>
      rw [hloc] at hres
      exact iff_of_true (by rw [hres]; simp) rfl
  | some loc =>
      rw [hloc] at hres
      exact iff_of_false (fun h => h hres.1) (by simp)

/-- A batch whose sequences have different numbers of tokens. -/
def Unsupported (batch : Batch) : Prop :=
  ∃ seq ∈ batchSeqs batch, seqCount batch seq ≠ batch.length / (batchSeqs batch).length

def NoRoom (c : Recurrent τ) (batch : Batch) : Prop :=
  c.freeSlots.length < (batchSeqs batch).countP fun seq => decide (c.slotForSeq seq = none)

theorem assignSlots_err : ∀ (seqs : List Int) (c : Recurrent τ) (newSlots : List ℕ), seqs.Nodup →
    ((assignSlots seqs c newSlots).2.2 ≠ none ↔
      c.freeSlots.length < seqs.countP fun seq => decide (c.slotForSeq seq = none)) := by
  intro seqs
  induction seqs with
  | nil =>
      intro c newSlots _
      exact iff_of_false (fun h => h rfl) (Nat.not_lt_zero _)
  | cons seq seqs ih =>
      intro c newSlots hnodup
      obtain ⟨hnot, hnodup⟩ := nodup_cons.mp hnodup
      unfold assignSlots
      rw [countP_cons]
      cases hslot : c.slotForSeq seq with
      | some slot =>
          exact ih _ newSlots hnodup
      | none =>
          rw [if_pos (by simp)]
          cases hfree : c.freeSlots with
          | nil => exact iff_of_true (by simp) (Nat.succ_pos _)
          | cons slot free =>
              rw [ih _ _ hnodup]
              -- the slot that is assigned is not the one of a later sequence
              have hcount : seqs.countP (fun s => decide ((c.assign seq slot free).slotForSeq s = none)) =
                  seqs.countP fun s => decide (c.slotForSeq s = none) := by
                refine countP_congr fun s hs => ?_
                have hne : s ≠ seq := fun h => hnot (h ▸ hs)
                show decide (Function.update c.slotForSeq seq (some slot) s = none) = true ↔ _
                rw [Function.update_of_ne hne]
              show free.length < _ ↔ _
              rw [length_cons]
              rw [hcount]
              omega

theorem seqCount_single {batch : Batch} {seq : Int} (h : ∀ e ∈ batch, e.seq = seq) :
    seqCount batch seq = batch.length :=
  countP_eq_length.mpr fun e he => decide_eq_true (h e he)

/-- When the recurrent part refuses a batch. -/
theorem startSlots_err (c : Recurrent τ) (batch : Batch) :
    (c.startSlots batch false).2 ≠ none ↔ Unsupported batch ∨ NoRoom c batch := by
  cases batch with
  | nil =>
      refine iff_of_false (fun h => h rfl) ?_
      rintro (⟨seq, hseq, -⟩ | h)
      · cases hseq
      · exact Nat.not_lt_zero _ h
  | cons first rest =>
      rw [startSlots]
      by_cases hall : (first :: rest).all fun e => decide (e.seq = first.seq)
      · -- one sequence
        have hseq : ∀ e ∈ first :: rest, e.seq = first.seq := fun e he =>
          of_decide_eq_true (all_eq_true.mp hall e he)
        have hone := batchSeqs_single (cons_ne_nil first rest) hseq
        have hsup : ¬ Unsupported (first :: rest) := by
          rintro ⟨seq, hmem, hne⟩
          rw [hone] at hmem hne
          rw [mem_singleton.mp hmem, seqCount_single hseq, length_singleton, Nat.div_one] at hne
          exact hne rfl
        rw [if_pos hall, or_iff_right hsup]
        unfold NoRoom startForwardSingleSeq
        rw [hone, countP_singleton]
        dsimp only
        cases hslot : c.slotForSeq first.seq with
        | some slot => exact iff_of_false (fun h => h rfl) (by simp)
        | none =>
            cases hfree : c.freeSlots with
            | nil => exact iff_of_true (by simp) (by simp)
            | cons slot free => exact iff_of_false (fun h => h rfl) (by simp)
      · rw [if_neg hall]
        by_cases hcounts : (batchSeqs (first :: rest)).any fun seq =>
            decide (seqCount (first :: rest) seq ≠
              (first :: rest).length / (batchSeqs (first :: rest)).length)
        · rw [if_pos hcounts]
          obtain ⟨seq, hmem, hne⟩ := any_eq_true.mp hcounts
          exact iff_of_true (by simp) (Or.inl ⟨seq, hmem, of_decide_eq_true hne⟩)
        rw [if_neg hcounts, if_neg Bool.false_ne_true]
        have hsup : ¬ Unsupported (first :: rest) := by
          rintro ⟨seq, hmem, hne⟩
          exact hcounts (any_eq_true.mpr ⟨seq, hmem, decide_eq_true hne⟩)
        rw [or_iff_right hsup]
        have hassign := assignSlots_err (batchSeqs (first :: rest))
          { c with curSeqs := batchSeqs (first :: rest), curSlots := [] } []
          (batchSeqs_nodup _)
        refine Iff.trans ?_ hassign
        generalize assignSlots (batchSeqs (first :: rest)) _ [] = r
        obtain ⟨d, newSlots, err⟩ := r
        cases err with
        | some err => exact iff_of_true (by simp) (by simp)
        | none => exact iff_of_false (fun h => h rfl) (fun h => h rfl)

/-- A cache refuses a batch. -/
def Refuses (batch : Batch) : AnyCache τ → Prop
  | .causal c => KvFull c batch
  | .encoder _ => False
  | .recurrent c => KvFull c.kv batch ∨ Unsupported batch ∨ NoRoom c batch

/-! ## §3  One cache -/

def Solid : AnyCache τ → Prop
  | .causal c => Wellformed c
  | .encoder _ => True
  | .recurrent c => Wellformed c.kv

theorem Sound.solid {c : AnyCache τ} (h : c.Sound) : c.Solid := by
  cases c with
  | causal c => exact SoundKv.wellformed h
  | encoder c => trivial
  | recurrent c => exact h.1.wellformed

variable {batch : Batch} {c c' : AnyCache τ} {image : Option Int} {maxMoves : Int}

theorem recurrent_err (c : Recurrent τ) (batch : Batch) (maxMoves : Int) :
    (c.startForward batch false maxMoves).2 ≠ none ↔
      (c.kv.startForward batch false maxMoves).err ≠ none ∨ Unsupported batch ∨ NoRoom c batch := by
  have hslots := startSlots_err
    { c with kv := (c.kv.startForward batch false maxMoves).cache } batch
  unfold Recurrent.startForward
  dsimp only
  cases (c.kv.startForward batch false maxMoves).err with
  | some err => exact iff_of_true (by simp) (Or.inl (by simp))
  | none =>
      rw [or_iff_right (not_not.mpr rfl)]
      exact hslots

/-- **When `StartForward` of a cache returns an error.** -/
theorem startForward_err_iff (hc : c.Solid) (hne : batch ≠ []) (image : Option Int)
    (maxMoves : Int) :
    (c.startForward batch image false maxMoves).2 ≠ none ↔ c.Refuses batch := by
  cases c with
  | causal c =>
      refine Iff.trans ?_ (kv_err_iff hc hne maxMoves)
      show (c.startForward batch false maxMoves).err.map RecurrentError.kv ≠ none ↔ _
      rw [ne_eq, Option.map_eq_none_iff]
  | encoder c => exact iff_of_false (fun h => h rfl) id
  | recurrent c =>
      refine (recurrent_err c batch maxMoves).trans ?_
      rw [kv_err_iff hc hne maxMoves]
      rfl

theorem not_refuses (hc : c.Solid) (hne : batch ≠ [])
    (h : c.startForward batch image false maxMoves = (c', none)) : ¬ c.Refuses batch :=
  fun hrefuses => (startForward_err_iff hc hne image maxMoves).mpr hrefuses (congrArg Prod.snd h)

theorem refuses_of_err (hc : c.Solid) (hne : batch ≠ []) {err : RecurrentError}
    (h : c.startForward batch image false maxMoves = (c', some err)) : c.Refuses batch := by
  refine (startForward_err_iff hc hne image maxMoves).mp fun hnil => ?_
  rw [h] at hnil
  cases hnil

def batchPositions (batch : Batch) (seq : Int) : Set Int :=
  {p | ∃ e ∈ batch, e.seq = seq ∧ e.pos = p}

def stores (batch : Batch) (c : AnyCache τ) (seq : Int) : Set Int :=
  match c with
  | .encoder _ => c.kept batch seq
  | _ => c.kept batch seq ∪ batchPositions batch seq

/-- A cache that returns nil has stored the batch. -/
theorem startForward_stores (hc : c.Solid)
    (h : c.startForward batch image false maxMoves = (c', none)) (seq : Int) :
    c'.holds seq = c.stores batch seq := by
  cases c with
  | causal c =>
      obtain ⟨rfl, herr⟩ := Prod.mk.inj h
      exact startForward_stored hc.cover (Option.map_eq_none_iff.mp herr) seq
  | encoder c =>
      obtain ⟨rfl, -⟩ := Prod.mk.inj h
      rfl
  | recurrent c =>
      obtain ⟨rfl, herr⟩ := Prod.mk.inj h
      have hnil : (c.kv.startForward batch false maxMoves).err = none := by
        by_contra hkv
        exact (recurrent_err c batch maxMoves).mpr (Or.inl hkv) herr
      show stored (c.startForward batch false maxMoves).1.kv.cells seq = _
      rw [(c.startForward_core batch false maxMoves).1]
      exact startForward_stored hc.cover hnil seq

/-- A cache that refuses a batch leaves nothing of it: a recurrent one only if
its causal part refuses it, or if all of it is stored already. -/
def LeavesNothing (batch : Batch) : AnyCache τ → Prop
  | .recurrent c => KvFull c.kv batch ∨ ∀ e ∈ batch, e.pos ∈ stored c.kv.cells e.seq
  | _ => True

/-- Storing a batch leaves no trace exactly when all of it is stored already. -/
theorem untraced_stored_iff {P : Int → Set Int} {c c' : AnyCache τ}
    (hkept : ∀ seq, c'.holds seq = c.kept batch seq ∪ batchPositions batch seq)
    (hholds : ∀ seq, c.holds seq = P seq) :
    Untraced batch c c' ↔ ∀ e ∈ batch, e.pos ∈ P e.seq := by
  constructor
  · rintro ⟨-, honly⟩ e he
    rw [← hholds]
    refine honly e.seq ?_
    rw [hkept]
    exact Or.inr ⟨e, he, rfl, rfl⟩
  intro hall
  refine ⟨fun seq p hp => ?_, fun seq p hp => ?_⟩
  · rw [hkept]
    exact Or.inl hp
  rw [hkept] at hp
  rcases hp with hp | ⟨e, he, rfl, rfl⟩
  · exact kept_subset batch c seq hp
  · rw [hholds]
    exact hall e he

/-- **What a cache that returns an error leaves.** -/
theorem untraced_failed_iff (hc : c.Solid) {err : RecurrentError}
    (h : c.startForward batch image false maxMoves = (c', some err)) :
    Untraced batch c c' ↔ c.LeavesNothing batch := by
  have hevicted : ∀ {kv : Causal}, Wellformed kv →
      (kv.startForward batch false maxMoves).err ≠ none → ∀ seq,
      stored (kv.startForward batch false maxMoves).cache.cells seq =
        {p ∈ stored kv.cells seq | (kv.beginBatch batch).Keeps seq p} :=
    fun hw herr seq => startForward_failed_stored hw.cover herr seq
  cases c with
  | causal c =>
      obtain ⟨rfl, herr⟩ := Prod.mk.inj h
      refine iff_of_true ?_ trivial
      have herr' : (c.startForward batch false maxMoves).err ≠ none := by
        intro hnone
        rw [hnone] at herr
        cases herr
      refine ⟨fun seq p hp => ?_, fun seq p hp => ?_⟩
      · exact (hevicted hc herr' seq).ge hp
      · exact ((hevicted hc herr' seq).le hp).1
  | encoder c => cases (Prod.mk.inj h).2
  | recurrent c =>
      obtain ⟨rfl, herr⟩ := Prod.mk.inj h
      have hkv := (c.startForward_core batch false maxMoves).1
      by_cases hfull : (c.kv.startForward batch false maxMoves).err = none
      · -- the causal part has stored the batch
        have hroom : batch ≠ [] → ¬ KvFull c.kv batch := fun hne hfull' =>
          (kv_err_iff hc hne maxMoves).mpr hfull' hfull
        have hstored : Untraced batch (.recurrent c)
            (.recurrent (c.startForward batch false maxMoves).1) ↔
            ∀ e ∈ batch, e.pos ∈ stored c.kv.cells e.seq := by
          refine untraced_stored_iff (fun seq => ?_) fun _ => rfl
          show stored (c.startForward batch false maxMoves).1.kv.cells seq = _
          rw [hkv]
          exact startForward_stored hc.cover hfull seq
        refine hstored.trans ⟨Or.inr, fun hleaves => ?_⟩
        rcases hleaves with hfull' | hall
        · intro e he
          exact absurd hfull' (hroom (ne_nil_of_mem he))
        · exact hall
      · refine iff_of_true ⟨fun seq p hp => ?_, fun seq p hp => ?_⟩ ?_
        · show p ∈ stored (c.startForward batch false maxMoves).1.kv.cells seq
          rw [hkv]
          exact (hevicted hc hfull seq).ge hp
        · have hp' : p ∈ stored (c.startForward batch false maxMoves).1.kv.cells seq := hp
          rw [hkv] at hp'
          exact ((hevicted hc hfull seq).le hp').1
        by_cases hne : batch = []
        · refine Or.inr fun e he => ?_
          rw [hne] at he
          cases he
        · exact Or.inl ((kv_err_iff hc hne maxMoves).mp hfull)

/-! ## §4  Undoing -/

/-- The position is removed when the batch is undone in the cache: a recurrent
cache removes from the start only. -/
def Undoes (batch : Batch) : AnyCache τ → Int → Int → Prop
  | .causal _, seq, p => ∃ e ∈ batch, e.seq = seq ∧ e.pos ≤ p
  | .encoder _, _, p => ∃ e ∈ batch, e.pos ≤ p ∧ p < maxInt32
  | .recurrent _, seq, p => ∃ e ∈ batch, e.seq = seq ∧ e.pos ≤ 0 ∧ e.pos ≤ p

theorem remove_undoes (hc : c.Sound) (e : BatchEntry) (seq : Int) :
    (c.remove e.seq e.pos maxInt32 false).1.holds seq =
      {p ∈ c.holds seq | ¬ c.Undoes [e] seq p} := by
  have hkv : ∀ {kv : Causal}, kv.Ranged →
      stored (kv.remove e.seq e.pos maxInt32 false).1.cells seq =
        {p ∈ stored kv.cells seq | ¬ (e.seq = seq ∧ e.pos ≤ p)} := by
    intro kv hkv
    rw [remove_tail_stored fun p hp => (hkv e.seq p hp).2]
    split
    · rename_i hseq
      ext p
      rw [← hseq]
      exact and_congr_right fun _ => by simp
    · rename_i hseq
      ext p
      exact (and_iff_left fun h => hseq h.1.symm).symm
  cases c with
  | causal c =>
      refine (hkv hc.ranged).trans (Set.ext fun p => and_congr_right fun _ => not_congr ?_)
      exact ⟨fun h => ⟨e, mem_singleton_self e, h⟩, fun ⟨e', he', h⟩ =>
        mem_singleton.mp he' ▸ h⟩
  | encoder c =>
      ext p
      show p ∈ {p | (c.remove e.pos maxInt32).encoderCached = true ∧
        (c.remove e.pos maxInt32).encoderPos = p} ↔ _
      have hundo : Undoes [e] (.encoder c : AnyCache τ) seq p ↔ e.pos ≤ p ∧ p < maxInt32 :=
        ⟨fun ⟨e', he', h⟩ => mem_singleton.mp he' ▸ h, fun h => ⟨e, mem_singleton_self e, h⟩⟩
      unfold EncoderCache.remove
      constructor
      · rintro ⟨hcached, hpos⟩
        split at hcached
        · cases hcached
        rename_i hout
        rw [if_neg hout] at hpos
        refine ⟨⟨hcached, hpos⟩, fun h => hout ?_⟩
        rw [hpos]
        exact hundo.mp h
      · rintro ⟨⟨hcached, hpos⟩, hnot⟩
        rw [hundo, ← hpos] at hnot
        rw [if_neg hnot]
        exact ⟨hcached, hpos⟩
  | recurrent c =>
      show stored (c.remove e.seq e.pos maxInt32 false).1.kv.cells seq = _
      by_cases hpos : 0 < e.pos
      · rw [remove_suffix_of_none (hc.2 e.seq) hpos]
        ext p
        refine (and_iff_left ?_).symm
        rintro ⟨e', he', -, hle, -⟩
        rw [mem_singleton.mp he'] at hle
        omega
      · have hall : c.remove e.seq e.pos maxInt32 false =
            c.removeAll e.seq e.pos maxInt32 false := if_neg hpos
        rw [hall, (c.removeAll_core e.seq e.pos maxInt32 false).1]
        refine (hkv hc.1.ranged).trans (Set.ext fun p => and_congr_right fun _ => not_congr ?_)
        constructor
        · rintro ⟨hseq, hle⟩
          exact ⟨e, mem_singleton_self e, hseq, Int.not_lt.mp hpos, hle⟩
        · rintro ⟨e', he', hseq, -, hle⟩
          rw [mem_singleton.mp he'] at hseq hle
          exact ⟨hseq, hle⟩

theorem undoes_remove (e : BatchEntry) (seq p : Int) :
    (c.remove e.seq e.pos maxInt32 false).1.Undoes batch seq p ↔ c.Undoes batch seq p := by
  cases c with
  | causal c => exact Iff.rfl
  | encoder c => exact Iff.rfl
  | recurrent c => exact Iff.rfl

theorem undoes_cons (e : BatchEntry) (seq p : Int) :
    c.Undoes (e :: batch) seq p ↔ c.Undoes [e] seq p ∨ c.Undoes batch seq p := by
  cases c <;> simp [Undoes]

/-- **What undoing a batch leaves.** -/
theorem undo_holds (hbatch : ∀ e ∈ batch, 0 ≤ e.pos ∧ e.pos < maxInt32) (hc : c.Sound) (seq : Int) :
    (WrapperCache.undo batch c).holds seq = {p ∈ c.holds seq | ¬ c.Undoes batch seq p} := by
  unfold WrapperCache.undo
  induction batch generalizing c with
  | nil =>
      ext p
      refine (and_iff_left fun h => ?_).symm
      cases c <;> simp [Undoes] at h
  | cons e batch ih =>
      obtain ⟨h0, hlt⟩ := hbatch e mem_cons_self
      rw [foldl_cons, ih (fun e' he' => hbatch e' (mem_cons_of_mem e he'))
        (hc.remove h0 (Int.le_of_lt hlt) false), remove_undoes hc]
      ext p
      rw [Set.mem_ofPred_eq, Set.mem_ofPred_eq, Set.mem_ofPred_eq, undoes_remove,
        @undoes_cons τ batch c e seq p, not_or, and_assoc]

/-- The batch can be undone in a cache: what was stored before is not removed
with it, and what is new of it is removed. -/
structure Undoable (batch : Batch) (c : AnyCache τ) : Prop where
  before : ∀ seq, ∀ p ∈ c.kept batch seq, ¬ c.Undoes batch seq p
  new : ∀ seq, ∀ p ∈ c.stores batch seq, p ∈ c.holds seq ∨ c.Undoes batch seq p

theorem undoable_nil (c : AnyCache τ) : c.Undoable [] := by
  refine ⟨fun seq p _ hu => ?_, fun seq p hp => Or.inl ?_⟩
  · cases c <;> simp [Undoes] at hu
  · cases c with
    | encoder c => exact hp
    | causal c => exact (hp.resolve_right fun ⟨e, he, _⟩ => nomatch he).1
    | recurrent c => exact (hp.resolve_right fun ⟨e, he, _⟩ => nomatch he).1

theorem leavesNothing_nil (c : AnyCache τ) : c.LeavesNothing [] := by
  cases c with
  | recurrent c => exact Or.inr fun e he => nomatch he
  | _ => trivial

/-- **When undoing leaves no trace.** -/
theorem untraced_undo_iff (hbatch : ∀ e ∈ batch, 0 ≤ e.pos ∧ e.pos < maxInt32) (hc : c.Sound)
    (h : c.startForward batch image false maxMoves = (c', none)) :
    Untraced batch c (WrapperCache.undo batch c') ↔ c.Undoable batch := by
  have hsound : c'.Sound := by
    have := hc.startForward hbatch image false maxMoves
    rwa [h] at this
  have hstores := startForward_stores hc.solid h
  have hkind : ∀ seq p, c'.Undoes batch seq p ↔ c.Undoes batch seq p := by
    intro seq p
    cases c with
    | causal c =>
        obtain ⟨rfl, -⟩ := Prod.mk.inj h
        exact Iff.rfl
    | encoder c =>
        obtain ⟨rfl, -⟩ := Prod.mk.inj h
        exact Iff.rfl
    | recurrent c =>
        obtain ⟨rfl, -⟩ := Prod.mk.inj h
        exact Iff.rfl
  have hsub : ∀ seq, c.kept batch seq ⊆ c.stores batch seq := by
    intro seq p hp
    cases c with
    | causal c => exact Or.inl hp
    | encoder c => exact hp
    | recurrent c => exact Or.inl hp
  have hundo : ∀ seq p, p ∈ (WrapperCache.undo batch c').holds seq ↔
      p ∈ c.stores batch seq ∧ ¬ c.Undoes batch seq p := by
    intro seq p
    rw [undo_holds hbatch hsound, ← hstores seq, ← hkind]
    exact Iff.rfl
  constructor
  · rintro ⟨hkept, honly⟩
    refine ⟨fun seq p hp => ((hundo seq p).mp (hkept seq hp)).2, fun seq p hp => ?_⟩
    by_cases hu : c.Undoes batch seq p
    · exact Or.inr hu
    · exact Or.inl (honly seq ((hundo seq p).mpr ⟨hp, hu⟩))
  · rintro ⟨hbefore, hnew⟩
    refine ⟨fun seq p hp => (hundo seq p).mpr ⟨hsub seq hp, hbefore seq p hp⟩, fun seq p hp => ?_⟩
    obtain ⟨hp, hnot⟩ := (hundo seq p).mp hp
    exact (hnew seq p hp).resolve_right hnot

end AnyCache

/-! ## §5  The wrapper -/

namespace WrapperCache

open AnyCache

variable {τ : Type} {batch : Batch} {image : Option Int}

def Started (batch : Batch) (image : Option Int) (c c' : AnyCache τ) : Prop :=
  ∃ maxMoves, c.startForward batch image false maxMoves = (c', none)

/-- **How `StartForward` ends**: all caches have stored the batch, or one has
returned an error and those before it are undone. -/
theorem startLoop_cases (maxMoves : ℕ → Int) : ∀ (rest done : List (AnyCache τ)),
    (∃ rest', List.Forall₂ (Started batch image) rest rest' ∧
      startLoop batch image false maxMoves done rest = (done ++ rest', none)) ∨
    ∃ pre c post pre' c' err i, rest = pre ++ c :: post ∧
      List.Forall₂ (Started batch image) pre pre' ∧
      c.startForward batch image false (maxMoves i) = (c', some err) ∧
      startLoop batch image false maxMoves done rest =
        ((done ++ pre').map (undo batch) ++ c' :: post, some err) := by
  intro rest
  induction rest with
  | nil => exact fun done => Or.inl ⟨[], .nil, by rw [append_nil]; rfl⟩
  | cons cache rest ih =>
      intro done
      unfold startLoop
      cases hcache : cache.startForward batch image false (maxMoves done.length) with
      | mk cache' err =>
        cases err with
        | some err =>
            exact Or.inr ⟨[], cache, rest, [], cache', err, done.length, rfl, .nil, hcache,
              by rw [append_nil]⟩
        | none =>
            have hstarted : Started batch image cache cache' := ⟨_, hcache⟩
            rcases ih (done ++ [cache']) with ⟨rest', hrest, heq⟩ |
              ⟨pre, c, post, pre', c', err, i, rfl, hpre, hc, heq⟩
            · refine Or.inl ⟨cache' :: rest', .cons hstarted hrest, ?_⟩
              rw [append_assoc] at heq
              exact heq
            · refine Or.inr ⟨cache :: pre, c, post, cache' :: pre', c', err, i, rfl,
                .cons hstarted hpre, hc, ?_⟩
              rw [append_assoc] at heq
              exact heq

/-- The first cache that refuses the batch leaves nothing of it, and it can be
undone in those before. -/
def Traceless (batch : Batch) (c : WrapperCache τ) : Prop :=
  ∀ pre x post, c = pre ++ x :: post → (∀ y ∈ pre, ¬ y.Refuses batch) → x.Refuses batch →
    (∀ y ∈ pre, y.Undoable batch) ∧ x.LeavesNothing batch

/-- The first cache that refuses is unique. -/
theorem first_refusing {R : AnyCache τ → Prop} : ∀ {pre pre' post post' : List (AnyCache τ)}
    {x x' : AnyCache τ}, pre ++ x :: post = pre' ++ x' :: post' → (∀ y ∈ pre, ¬ R y) → R x →
      (∀ y ∈ pre', ¬ R y) → R x' → pre = pre' ∧ x = x' := by
  intro pre
  induction pre with
  | nil =>
      intro pre' post post' x x' heq _ hx hpre' _
      cases pre' with
      | nil => exact ⟨rfl, (List.cons.inj heq).1⟩
      | cons y pre' =>
          have hxy := (List.cons.inj heq).1
          exact absurd (hxy ▸ hx) (hpre' y mem_cons_self)
  | cons z pre ih =>
      intro pre' post post' x x' heq hpre hx hpre' hx'
      cases pre' with
      | nil =>
          have hzx := (List.cons.inj heq).1
          exact absurd (hzx ▸ hx') (hpre z mem_cons_self)
      | cons y pre' =>
          obtain ⟨rfl, htail⟩ := List.cons.inj heq
          obtain ⟨rfl, rfl⟩ := ih htail (fun y hy => hpre y (mem_cons_of_mem z hy)) hx
            (fun y hy => hpre' y (mem_cons_of_mem z hy)) hx'
          exact ⟨rfl, rfl⟩

theorem exists_started {rest rest' : List (AnyCache τ)}
    (h : List.Forall₂ (Started batch image) rest rest') :
    ∀ y ∈ rest, ∃ y', Started batch image y y' := by
  induction h with
  | nil => exact fun y hy => nomatch hy
  | cons hstarted _ ih => exact forall_mem_cons.mpr ⟨⟨_, hstarted⟩, ih⟩

theorem forall₂_append_map {R S : AnyCache τ → AnyCache τ → Prop} {f : AnyCache τ → AnyCache τ}
    {pre pre' a b : List (AnyCache τ)} (h : List.Forall₂ S pre pre') :
    List.Forall₂ R (pre ++ a) (pre'.map f ++ b) ↔
      List.Forall₂ R pre (pre'.map f) ∧ List.Forall₂ R a b := by
  induction h with
  | nil => exact (and_iff_right .nil).symm
  | cons _ _ ih =>
      rw [map_cons, cons_append, cons_append, forall₂_cons, ih, forall₂_cons, and_assoc]

theorem forall₂_started {pre pre' : List (AnyCache τ)}
    (hbatch : ∀ e ∈ batch, 0 ≤ e.pos ∧ e.pos < maxInt32) (hsound : ∀ y ∈ pre, y.Sound)
    (h : List.Forall₂ (Started batch image) pre pre') :
    List.Forall₂ (Untraced batch) pre (pre'.map (undo batch)) ↔ ∀ y ∈ pre, y.Undoable batch := by
  induction h with
  | nil => exact iff_of_true .nil fun y hy => nomatch hy
  | cons hstarted _ ih =>
      obtain ⟨maxMoves, hy⟩ := hstarted
      have hiff := untraced_undo_iff hbatch (hsound _ mem_cons_self) hy
      have hrest := ih fun y hy => hsound y (mem_cons_of_mem _ hy)
      rw [map_cons, forall₂_cons, hiff, hrest, forall_mem_cons]

/-- What it means that a failed call leaves no trace: every cache stores what it
has stored before, apart from the eviction. -/
def FailsUntraced (batch : Batch) (c : WrapperCache τ)
    (res : WrapperCache τ × Option RecurrentError) : Prop :=
  ∀ err, res.2 = some err → List.Forall₂ (Untraced batch) c res.1

theorem failsUntraced_iff {c : WrapperCache τ} (hsound : ∀ cache ∈ c, cache.Sound)
    (hbatch : ∀ e ∈ batch, 0 ≤ e.pos ∧ e.pos < maxInt32) (maxMoves : ℕ → Int) :
    FailsUntraced batch c (c.startForward batch image false maxMoves) ↔ Traceless batch c := by
  have hstarted : batch ≠ [] → ∀ {pre pre' : List (AnyCache τ)}, (∀ y ∈ pre, y.Sound) →
      List.Forall₂ (Started batch image) pre pre' → ∀ y ∈ pre, ¬ y.Refuses batch := by
    intro hne pre pre' hpre h y hy
    obtain ⟨y', maxMoves, hy'⟩ := exists_started h y hy
    exact not_refuses (hpre y hy).solid hne hy'
  unfold startForward
  rcases @startLoop_cases τ batch image maxMoves c [] with
    ⟨c', hall, heq⟩ | ⟨pre, x, post, pre', x', err, i, rfl, hpre, hx, heq⟩
  · rw [heq]
    refine iff_of_true (fun err herr => nomatch herr) ?_
    rintro pre x post rfl - hrefuses
    by_cases hne : batch = []
    · rw [hne]
      exact ⟨fun y _ => undoable_nil y, leavesNothing_nil x⟩
    · have hx : x ∈ pre ++ x :: post := mem_append_right _ mem_cons_self
      exact absurd hrefuses (hstarted hne hsound hall x hx)
  · have hsoundPre : ∀ y ∈ pre, y.Sound := fun y hy => hsound y (mem_append_left _ hy)
    have hsoundX : x.Sound := hsound x (mem_append_right _ mem_cons_self)
    have hrefl : List.Forall₂ (Untraced batch) post post :=
      forall₂_same.mpr fun y _ => Untraced.refl batch y
    have hiff : FailsUntraced batch (pre ++ x :: post)
        (startLoop batch image false maxMoves [] (pre ++ x :: post)) ↔
        (∀ y ∈ pre, y.Undoable batch) ∧ x.LeavesNothing batch := by
      rw [heq, nil_append, ← forall₂_started hbatch hsoundPre hpre,
        ← untraced_failed_iff hsoundX.solid hx]
      refine Iff.trans ⟨fun h => h err rfl, fun h _ _ => h⟩ ?_
      rw [forall₂_append_map hpre, forall₂_cons, and_iff_left hrefl]
    rw [hiff]
    constructor
    · rintro hgood pre₂ x₂ post₂ heq₂ hpre₂ hx₂
      by_cases hne : batch = []
      · rw [hne]
        exact ⟨fun y _ => undoable_nil y, leavesNothing_nil x₂⟩
      · obtain ⟨rfl, rfl⟩ := first_refusing heq₂ (hstarted hne hsoundPre hpre)
          (refuses_of_err hsoundX.solid hne hx) hpre₂ hx₂
        exact hgood
    · intro htraceless
      by_cases hne : batch = []
      · rw [hne]
        exact ⟨fun y _ => undoable_nil y, leavesNothing_nil x⟩
      · exact htraceless pre x post rfl (hstarted hne hsoundPre hpre)
          (refuses_of_err hsoundX.solid hne hx)

/-- **A failed `StartForward`.** In every run of a recurrent cache, and in every
run of a wrapper whose positions are in range: the call leaves no trace exactly
when the first cache that refuses the batch leaves nothing of it and the batch
can be undone in the caches before. -/
theorem startForward_untraced_iff (τ : Type) :
    (∀ c : Recurrent τ, (Recurrent.system τ).Reachable c → ∀ batch maxMoves,
      (∀ err, (c.startForward batch false maxMoves).2 = some err →
        Untraced batch (.recurrent c) (.recurrent (c.startForward batch false maxMoves).1)) ↔
      (Refuses batch (.recurrent c) → LeavesNothing batch (.recurrent c))) ∧
    ∀ c : WrapperCache τ, ((system τ).guard InRange).Reachable c → ∀ batch image maxMoves,
      (∀ e ∈ batch, 0 ≤ e.pos ∧ e.pos < maxInt32) →
        (FailsUntraced batch c (c.startForward batch image false maxMoves) ↔
          Traceless batch c) := by
  refine ⟨fun c h batch maxMoves => ?_, fun c h batch image maxMoves hbatch =>
    failsUntraced_iff (reachable_sound h) hbatch maxMoves⟩
  have hsolid : Solid (.recurrent c) := reachable_kv h
  have hstart : ∀ err, (c.startForward batch false maxMoves).2 = some err →
      (AnyCache.recurrent c).startForward batch none false maxMoves =
        (.recurrent (c.startForward batch false maxMoves).1, some err) :=
    fun err herr => congrArg (Prod.mk _) herr
  constructor
  · intro huntraced hrefuses
    by_cases hne : batch = []
    · rw [hne]
      exact leavesNothing_nil _
    · have herr := (startForward_err_iff hsolid hne none maxMoves).mpr hrefuses
      obtain ⟨err, herr⟩ := Option.ne_none_iff_exists'.mp herr
      exact (untraced_failed_iff hsolid (hstart err herr)).mp (huntraced err herr)
  · intro hleaves err herr
    refine (untraced_failed_iff hsolid (hstart err herr)).mpr ?_
    by_cases hne : batch = []
    · rw [hne]
      exact leavesNothing_nil _
    · exact hleaves (refuses_of_err hsolid hne (hstart err herr))

/-- A cache of one cell. -/
def oneCell : Causal := (init 0 0 0 ⟨1, 1⟩ 1 1 1).get rfl

/-- The second cache is full, and the first one stores nothing else. -/
theorem startForward_untraced_twoCaches :
    FailsUntraced [⟨0, 0⟩, ⟨1, 0⟩] ([.causal sixCells, .causal oneCell] : WrapperCache ℕ)
      (startForward [.causal sixCells, .causal oneCell] [⟨0, 0⟩, ⟨1, 0⟩] none false
        fun _ => 1) := by
  have hreach : ((system ℕ).guard InRange).Reachable [.causal sixCells, .causal oneCell] := by
    refine .init fun cache hcache => ?_
    rcases mem_cons.mp hcache with rfl | hcache
    · exact ⟨0, 0, 0, ⟨1, 1⟩, 2, 3, 4, (Option.some_get _).symm⟩
    · rw [mem_singleton.mp hcache]
      exact ⟨0, 0, 0, ⟨1, 1⟩, 1, 1, 1, (Option.some_get _).symm⟩
  have hempty : ∀ seq, stored sixCells.cells seq = ∅ := fun seq =>
    stored_replicate 6 seq
  refine ((startForward_untraced_iff ℕ).2 _ hreach _ none (fun _ => 1) (by decide)).mpr ?_
  rintro pre x post heq hpre hx
  match pre, heq with
  | [], heq =>
      obtain ⟨rfl, -⟩ := List.cons.inj heq
      have hroom : ¬ KvFull sixCells [⟨0, 0⟩, ⟨1, 0⟩] := by
        unfold KvFull
        decide +kernel
      exact absurd hx hroom
  | [first], heq =>
      obtain ⟨hfirst, htail⟩ := List.cons.inj heq
      obtain ⟨rfl, -⟩ := List.cons.inj htail
      refine ⟨fun y hy => ?_, trivial⟩
      rw [mem_singleton.mp hy, ← hfirst]
      refine ⟨fun seq p hp => ?_, fun seq p hp => Or.inr ?_⟩
      · have hp' := hp.1
        rw [hempty] at hp'
        cases hp'
      rcases hp with hp | ⟨e, he, hseq, hpos⟩
      · have hp' := hp.1
        rw [hempty] at hp'
        cases hp'
      · exact ⟨e, he, hseq, Int.le_of_eq hpos⟩
  | y :: z :: pre, heq =>
      have hlen := congrArg List.length heq
      simp at hlen

/-- The tokens of two sequences in different numbers: the recurrent cache
refuses the batch after its causal part has stored it. -/
theorem not_untraced_unequal :
    ¬ ∀ c : Recurrent ℕ, (Recurrent.system ℕ).Reachable c → ∀ batch maxMoves err,
      (c.startForward batch false maxMoves).2 = some err →
        Untraced batch (.recurrent c) (.recurrent (c.startForward batch false maxMoves).1) := by
  intro h
  have hreach : (Recurrent.system ℕ).Reachable (.init sixCells 2 0 0 0) :=
    .init ⟨_, 2, 0, 0, 0, ⟨0, 0, 0, ⟨1, 1⟩, 2, 3, 4, (Option.some_get _).symm⟩, rfl⟩
  have honly := (h _ hreach [⟨0, 0⟩, ⟨1, 0⟩, ⟨0, 1⟩] 1 .notSupported (by decide +kernel)).only 1
  have hmem : (0 : Int) ∈ stored sixCells.cells 1 :=
    honly ⟨2, by decide +kernel, by decide +kernel⟩
  rw [show stored sixCells.cells 1 = ∅ from stored_replicate 6 1] at hmem
  cases hmem

end WrapperCache

end Ollama.KvCache
