import Mathlib
import Ollama.KvCache.Stored
import Ollama.KvCache.Masking

/-!
# Resuming in a sliding window

A token sees every position of its window, as in a cache that evicts nothing, when
each sequence that got a copied prefix is resumed before it goes on: cut off at a
position that `CanResume` allows, or at 0.
-/

namespace Ollama.KvCache

open Set

namespace Causal

/-! ## §1  Positions that reach back a window -/

/-- Positions that end before `next` and reach back a window from it. -/
structure ReachesBack (window next : Int) (P : Set Int) : Prop where
  nonneg : 0 ≤ next
  within : ∀ p ∈ P, 0 ≤ p ∧ p < next
  back : ∀ p, 0 ≤ p → next - window ≤ p → p < next → p ∈ P

section ReachesBack

variable {window next : Int} {P K : Set Int}

theorem ReachesBack.startsAt (h : ReachesBack window next P) (hw : 1 ≤ window) {n : Int}
    (hn : StartsAt P n) (hempty : P = ∅ → n = 0) : n = next := by
  have hlast : 0 < next → next - 1 ∈ P := fun hpos =>
    h.back (next - 1) (by omega) (by omega) (by omega)
  by_cases hP : P.Nonempty
  · have hle := (h.within _ (hn.direct hP)).2
    have hnonneg := (h.within _ (hn.direct hP)).1
    have := hn.above _ (hlast (by omega))
    omega
  have hP := not_nonempty_iff_eq_empty.mp hP
  have hzero : ¬ 0 < next := by
    intro hpos
    have := hlast hpos
    rw [hP] at this
    exact notMem_empty _ this
  have := h.nonneg
  have := hempty hP
  omega

/-- The window of a later position needs less of what was there. -/
theorem ReachesBack.forward (h : ReachesBack window next P) (hsub : K ⊆ P)
    (hkeep : ∀ p ∈ P, next - window ≤ p → p ∈ K) (k : Nat) :
    ReachesBack window (next + k) (K ∪ Ico next (next + k)) := by
  have hnonneg := h.nonneg
  refine ⟨by omega, ?_, fun p hp hle hlt => ?_⟩
  · rintro p (hp | hp)
    · have := h.within p (hsub hp)
      omega
    · have hle := hp.1
      have hlt := hp.2
      omega
  · by_cases hnew : next ≤ p
    · exact Or.inr ⟨hnew, hlt⟩
    · exact Or.inl (hkeep p (h.back p hp (by omega) (by omega)) (by omega))

theorem ReachesBack.cut (hP : P.OrdConnected) (hnonneg : ∀ p ∈ P, 0 ≤ p) {first last b : Int}
    (hfirst : first ∈ P) (hlast : last ∈ P) (hb : 0 ≤ b) (hstart : first ≤ max 0 (b - window))
    (hend : b ≤ last + 1) : ReachesBack window b {p ∈ P | p < b} := by
  refine ⟨hb, fun p hp => ⟨hnonneg p hp.1, hp.2⟩, fun p hp hle hlt => ⟨?_, hlt⟩⟩
  refine hP.out hfirst hlast ⟨?_, ?_⟩
  · exact Int.le_trans hstart (max_le hp hle)
  · omega

/-- A window that begins in what is kept is whole. -/
theorem ReachesBack.seen (h : ReachesBack window next P) (hsub : K ⊆ P)
    (hkeep : ∀ p ∈ P, next - window ≤ p → p ∈ K) {k : Nat} {q : Int}
    (hq : q ∈ Ico next (next + k)) :
    {p ∈ K ∪ Ico next (next + k) | q - window ≤ p ∧ p ≤ q} = Icc (max 0 (q - window)) q := by
  have hreach := h.forward hsub hkeep k
  ext p
  constructor
  · rintro ⟨hp, hle, hge⟩
    exact ⟨max_le (hreach.within p hp).1 hle, hge⟩
  rintro ⟨hle, hge⟩
  have hp := Int.le_trans (Int.le_max_left _ _) hle
  have hw := Int.le_trans (Int.le_max_right _ _) hle
  refine ⟨?_, hw, hge⟩
  have hqle := hq.1
  have hqlt := hq.2
  by_cases hnew : next ≤ p
  · exact Or.inr ⟨hnew, by omega⟩
  · exact Or.inl (hkeep p (h.back p hp (by omega) (by omega)) (by omega))

/-- New positions that follow on directly leave no gap. -/
theorem ordConnected_union (hP : P.OrdConnected) (hn : StartsAt P next) (hsub : K ⊆ P)
    (hup : ∀ p ∈ K, ∀ q ∈ P, p ≤ q → q ∈ K) (k : Nat) :
    (K ∪ Ico next (next + k)).OrdConnected := by
  refine ⟨fun x hx y hy r hr => ?_⟩
  have hle := hr.1
  have hge := hr.2
  by_cases hnew : next ≤ r
  · right
    obtain hy | hy := hy
    · have := hn.above y (hsub hy)
      omega
    · have := hy.2
      exact ⟨hnew, by omega⟩
  · left
    obtain hx | hx := hx
    · have hlast := hn.direct ⟨x, hsub hx⟩
      have hr : r ∈ P := hP.out (hsub hx) hlast ⟨hle, by omega⟩
      exact hup x hx r hr hle
    · have := hx.1
      omega

end ReachesBack

/-! ## §2  `CanResume` -/

/-- The loop's first and last position are stored, as soon as it has met a cell. -/
theorem foldl_firstLast {cells : List CacheCell} {seq : Int} : ∀ (l : List Nat) (fl : Int × Int),
      let r := l.foldl
        (fun (fl : Int × Int) i =>
          if seq ∈ (cellAt cells i).sequences then
            (min fl.1 (cellAt cells i).pos, max fl.2 (cellAt cells i).pos)
          else fl) fl
      r.1 ≤ fl.1 ∧ (r.1 = fl.1 ∨ r.1 ∈ stored cells seq) ∧
        (r.2 = fl.2 ∨ r.2 ∈ stored cells seq ∧ ∃ p ∈ stored cells seq, r.1 ≤ p)
  | [], fl => ⟨Int.le_refl _, Or.inl rfl, Or.inl rfl⟩
  | i :: l, fl => by
      rw [List.foldl_cons]
      by_cases hi : seq ∈ (cellAt cells i).sequences
      · rw [if_pos hi]
        have hmem : (cellAt cells i).pos ∈ stored cells seq := ⟨i, hi, rfl⟩
        obtain ⟨hle, hfirst, hlast⟩ := @foldl_firstLast cells seq l
          (min fl.1 (cellAt cells i).pos, max fl.2 (cellAt cells i).pos)
        have hseen := Int.le_trans hle (Int.min_le_right _ _)
        refine ⟨Int.le_trans hle (Int.min_le_left _ _), ?_, ?_⟩
        · obtain hfirst | hfirst := hfirst
          · obtain he | he := min_choice fl.1 (cellAt cells i).pos
            · exact Or.inl (hfirst.trans he)
            · exact Or.inr (by rw [hfirst, he]; exact hmem)
          · exact Or.inr hfirst
        obtain hlast | hlast := hlast
        · obtain he | he := max_choice fl.2 (cellAt cells i).pos
          · exact Or.inl (hlast.trans he)
          · exact Or.inr ⟨by rw [hlast, he]; exact hmem, _, hmem, hseen⟩
        · exact Or.inr hlast
      · rw [if_neg hi]
        exact foldl_firstLast l fl

/-- What `CanResume` has found when it says yes. -/
theorem canResume_spec {c : Causal} {seq pos : Int} (hmem : c.swaMemorySize ≠ maxInt32)
    (hbound : ∀ p ∈ stored c.cells seq, p < maxInt32) (h : c.canResume seq pos = true) :
    ∃ first ∈ stored c.cells seq, ∃ last ∈ stored c.cells seq,
      first ≤ max 0 (pos - c.swaWindowSize) ∧ pos ≤ last + 1 := by
  unfold canResume at h
  rw [if_neg hmem] at h
  cases hr : c.cellRanges.lookup seq with
  | none =>
      rw [hr] at h
      cases h
  | some r =>
      rw [hr] at h
      obtain ⟨hle, hfirst, hlast⟩ := @foldl_firstLast c.cells seq
        (List.range' r.min (r.max + 1 - r.min)) (maxInt32, -1)
      simp only at h
      generalize (List.range' r.min (r.max + 1 - r.min)).foldl _ _ = fl at h hle hfirst hlast
      obtain ⟨first, last⟩ := fl
      by_cases hnone : last = -1
      · rw [if_pos hnone] at h
        cases h
      rw [if_neg hnone] at h
      obtain ⟨hstart, hend⟩ := of_decide_eq_true h
      obtain ⟨hlast, p, hp, hfp⟩ := hlast.resolve_left hnone
      refine ⟨first, hfirst.resolve_left fun he => ?_, last, hlast, hstart, hend⟩
      have := hbound p hp
      omega

/-! ## §3  Runs -/

/-- A cache, with the sequences that got a copied prefix and were not resumed. -/
structure Tracked where
  cache : Causal
  unchecked : List Int

/-- The batch goes on where each of its sequences ends, at 0 where nothing is
stored. -/
def Continues (c : Causal) (batch : Batch) : Prop :=
  (∃ next : Int → Int, (∀ seq, StartsAt (stored c.cells seq) (next seq) ∧
      (stored c.cells seq = ∅ → next seq = 0)) ∧ Follows next batch) ∧
  ∀ e ∈ batch, e.pos < maxInt32

/-- The calls of these runs: batches that continue the sequences, and removals of
a tail where `CanResume` allows it or of everything. -/
def Allowed (c : Causal) : Call → Prop
  | .startForward batch reserve _ => reserve = false → Continues c batch
  | .setCausal _ _ => True
  | .copyPrefix _ _ _ => True
  | .remove seq beginIndex endIndex _ =>
      endIndex = maxInt32 ∧ 0 ≤ beginIndex ∧ (0 < beginIndex → c.canResume seq beginIndex = true)

/-- The cache and the sequences to be resumed, after a call. -/
def Tracked.apply (t : Tracked) (call : Call) : Tracked :=
  ⟨t.cache.apply call,
    match call with
    | .copyPrefix _ dstSeq _ => dstSeq :: t.unchecked
    | .remove seq _ _ _ => t.unchecked.filter fun s => s ≠ seq
    | _ => t.unchecked⟩

/-- The runs of a sliding-window cache, of any size. -/
def resumeSystem : Lib.System Tracked Call where
  init t := t.unchecked = [] ∧ ∃ window memory config maxSequences capacity maxBatch, 0 ≤ window ∧
    Causal.init window memory 0 config maxSequences capacity maxBatch = some t.cache
  step t call t' := Allowed t.cache call ∧ t' = t.apply call

/-- The positions that attention shows to the token at index `i` of the batch. -/
def seenPositions (c : Causal) (i : Nat) : Set Int :=
  {p | ∃ j, c.get.row ≤ j ∧ j < c.get.row + c.get.size ∧
    c.get.mask.masked i (j - c.get.row) = false ∧ (cellAt c.cells j).pos = p}

/-- Every sequence is stored without gaps, and one that may go on reaches back a
window; without eviction it is stored from 0 on. -/
structure Resumable (unchecked : List Int) (c : Causal) : Prop where
  wellformed : Wellformed c
  window : 1 ≤ c.swaWindowSize ∧ c.swaWindowSize ≤ c.swaMemorySize
  chunk : c.chunkSize = 0
  bound : ∀ seq, ∀ p ∈ stored c.cells seq, 0 ≤ p ∧ p < maxInt32
  connected : ∀ seq, (stored c.cells seq).OrdConnected
  back : ∀ seq, seq ∉ unchecked → ∃ next, ReachesBack c.swaWindowSize next (stored c.cells seq)
  whole : c.swaMemorySize = maxInt32 → ∀ seq, ∃ n, 0 ≤ n ∧ stored c.cells seq = Ico 0 n

/-! ## §4  What each call keeps -/

variable {c c' : Causal} {unchecked : List Int}

theorem Resumable.of_cells (h : Resumable unchecked c) (hw : Wellformed c')
    (hs : SameSetup c c') (hcells : c'.cells = c.cells) : Resumable unchecked c' where
  wellformed := hw
  window := by rw [hs.window, hs.memory]; exact h.window
  chunk := by rw [hs.chunk]; exact h.chunk
  bound := by rw [hcells]; exact h.bound
  connected := by rw [hcells]; exact h.connected
  back := by rw [hcells, hs.window]; exact h.back
  whole := by rw [hcells, hs.memory]; exact h.whole

def keptFor (c : Causal) (batch : Batch) (seq : Int) : Set Int :=
  {p ∈ stored c.cells seq | (c.beginBatch batch).Keeps seq p}

theorem keptFor_subset (c : Causal) (batch : Batch) (seq : Int) :
    keptFor c batch seq ⊆ stored c.cells seq := fun _ hp => hp.1

variable {batch : Batch}

theorem keptFor_up {seq : Int} :
    ∀ p ∈ keptFor c batch seq, ∀ q ∈ stored c.cells seq, p ≤ q → q ∈ keptFor c batch seq :=
  fun _ hp _ hq hle => ⟨hq, hp.2.mono hle⟩

/-- Eviction keeps the window of the position where a sequence goes on. -/
theorem Resumable.kept (h : Resumable unchecked c) {next : Int → Int}
    (hnext : ∀ seq, StartsAt (stored c.cells seq) (next seq)) (hfollows : Follows next batch)
    (seq : Int) : ∀ p ∈ stored c.cells seq, next seq - c.swaWindowSize ≤ p →
      p ∈ keptFor c batch seq := by
  intro p hp hle
  refine ⟨hp, Keeps.of_le (c := c.beginBatch batch) (hnext seq) hp (h.bound seq p hp).1
    (fun e he hs => ?_) ?_⟩
  · have hpos : e.pos ∈ {p | ∃ e ∈ batch, e.seq = seq ∧ e.pos = p} := ⟨e, he, hs, rfl⟩
    rw [hfollows.positions seq] at hpos
    have hfirst : next seq ∈ Ico (next seq) (next seq + tokens batch seq) :=
      ⟨Int.le_refl _, Int.lt_of_le_of_lt hpos.1 hpos.2⟩
    rw [← hfollows.positions seq] at hfirst
    obtain ⟨e', he', hs', hp'⟩ := hfirst
    exact ⟨e', he', hs', Int.le_of_eq hp'⟩
  · have := h.window.2
    show next seq - c.swaMemorySize ≤ p
    omega

/-- A forward pass, whether the batch fits or not. -/
theorem forward_stored (hw : Wellformed c) {next : Int → Int}
    (hfollows : Follows next batch) (maxMoves seq : Int) :
    stored (c.startForward batch false maxMoves).cache.cells seq =
      keptFor c batch seq ∪ Ico (next seq) (next seq +
        (if (c.startForward batch false maxMoves).err = none then tokens batch seq else 0 : Nat)) := by
  split
  · rename_i hnil
    rw [startForward_stored hw.cover hnil, hfollows.positions seq]
    rfl
  · rename_i herr
    rw [startForward_failed_stored hw.cover herr, Int.natCast_zero, Int.add_zero, Ico_self,
      union_empty]
    rfl

theorem Resumable.startForward (h : Resumable unchecked c)
    (hcont : Continues c batch) (maxMoves : Int) :
    Resumable unchecked (c.startForward batch false maxMoves).cache := by
  obtain ⟨⟨next, hnext, hfollows⟩, hlimit⟩ := hcont
  have hsetup := startForward_sameSetup h.wellformed batch maxMoves
  have hstored := forward_stored h.wellformed hfollows maxMoves
  have hkeep := h.kept (fun seq => (hnext seq).1) hfollows
  refine ⟨startForward_wellformed h.wellformed batch false maxMoves, ?_, ?_, ?_, ?_, ?_, ?_⟩
  · rw [hsetup.window, hsetup.memory]
    exact h.window
  · rw [hsetup.chunk]
    exact h.chunk
  · intro seq p hp
    rw [hstored seq] at hp
    obtain hp | hp := hp
    · exact h.bound seq p hp.1
    refine ⟨Int.le_trans (hnext seq).1.nonneg hp.1, ?_⟩
    split at hp
    · rw [← hfollows.positions seq] at hp
      obtain ⟨e, he, -, rfl⟩ := hp
      exact hlimit e he
    · have hlt := hp.2
      have hle := hp.1
      omega
  · intro seq
    rw [hstored seq]
    exact ordConnected_union (h.connected seq) (hnext seq).1 (keptFor_subset c batch seq)
      keptFor_up _
  · intro seq hseq
    obtain ⟨n, hn⟩ := h.back seq hseq
    have he := hn.startsAt h.window.1 (hnext seq).1 (hnext seq).2
    rw [hstored seq, hsetup.window, he]
    exact ⟨_, hn.forward (keptFor_subset c batch seq) (he ▸ hkeep seq) _⟩
  intro hmem seq
  rw [hsetup.memory] at hmem
  obtain ⟨n, hn, hwhole⟩ := h.whole hmem seq
  have hall : keptFor c batch seq = Ico 0 n := by
    rw [← hwhole]
    exact Subset.antisymm (keptFor_subset c batch seq)
      fun p hp => ⟨hp, fun hne => absurd hmem hne⟩
  have he : next seq = n := by
    have hreach : ReachesBack c.swaWindowSize n (stored c.cells seq) := by
      rw [hwhole]
      exact ⟨hn, fun p hp => ⟨hp.1, hp.2⟩, fun p hp _ hlt => ⟨hp, hlt⟩⟩
    exact hreach.startsAt h.window.1 (hnext seq).1 (hnext seq).2
  rw [hstored seq, hall, he, Ico_union_Ico_eq_Ico hn (by omega)]
  exact ⟨_, by omega, rfl⟩

theorem Resumable.copyPrefix (h : Resumable unchecked c) (srcSeq dstSeq len : Int) :
    Resumable (dstSeq :: unchecked) (c.copyPrefix srcSeq dstSeq len) := by
  have hstored := copyPrefix_stored c srcSeq dstSeq len
  refine ⟨apply_wellformed h.wellformed (.copyPrefix srcSeq dstSeq len), h.window, h.chunk,
    fun seq p hp => ?_, fun seq => ?_, fun seq hseq => ?_, fun hmem seq => ?_⟩
  · rw [hstored seq] at hp
    split at hp
    · exact h.bound srcSeq p hp.1
    · exact h.bound seq p hp
  · rw [hstored seq]
    split
    · refine ⟨fun x hx y hy r hr => ⟨(h.connected srcSeq).out hx.1 hy.1 hr, hx.2.1, ?_⟩⟩
      exact Int.lt_of_le_of_lt hr.2 hy.2.2
    · exact h.connected seq
  · rw [List.mem_cons, not_or] at hseq
    rw [hstored seq, if_neg hseq.1]
    exact h.back seq hseq.2
  rw [hstored seq]
  split
  · obtain ⟨n, hn, hwhole⟩ := h.whole hmem srcSeq
    by_cases hne : srcSeq ≠ dstSeq
    · refine ⟨max 0 (min n len), Int.le_max_left _ _, ?_⟩
      ext p
      rw [hwhole]
      simp only [mem_ofPred_eq, mem_Ico]
      omega
    · refine ⟨0, Int.le_refl 0, ?_⟩
      ext p
      rw [Ico_self]
      exact iff_of_false (fun hp => hne hp.2.1) (notMem_empty p)
  · exact h.whole hmem seq

theorem Resumable.remove (h : Resumable unchecked c) {seq beginIndex : Int}
    (hb : 0 ≤ beginIndex) (hcan : 0 < beginIndex → c.canResume seq beginIndex = true)
    (shiftFails : Bool) :
    Resumable (unchecked.filter fun s => s ≠ seq)
      (c.remove seq beginIndex maxInt32 shiftFails).1 := by
  have hbound : ∀ p ∈ stored c.cells seq, p < maxInt32 := fun p hp => (h.bound seq p hp).2
  have hstored := @remove_tail_stored c seq beginIndex shiftFails hbound
  have hs := (@remove_tail c seq beginIndex shiftFails fun i hi => hbound _ ⟨i, hi, rfl⟩).2.1
  have hsub : ∀ seq' p, p ∈ stored (c.remove seq beginIndex maxInt32 shiftFails).1.cells seq' →
      p ∈ stored c.cells seq' := by
    intro seq' p hp
    rw [hstored seq'] at hp
    split at hp
    · rename_i he
      exact he ▸ hp.1
    · exact hp
  refine ⟨remove_wellformed h.wellformed seq beginIndex maxInt32 shiftFails, ?_, ?_,
    fun seq' p hp => h.bound seq' p (hsub seq' p hp), fun seq' => ?_, fun seq' hseq => ?_,
    fun hmem seq' => ?_⟩
  · rw [hs.window, hs.memory]
    exact h.window
  · rw [hs.chunk]
    exact h.chunk
  · rw [hstored seq']
    split
    · refine ⟨fun x hx y hy r hr => ⟨(h.connected seq).out hx.1 hy.1 hr, ?_⟩⟩
      exact Int.lt_of_le_of_lt hr.2 hy.2
    · exact h.connected seq'
  · rw [hs.window, hstored seq']
    split
    · by_cases hmem : c.swaMemorySize = maxInt32
      · obtain ⟨n, hn, hwhole⟩ := h.whole hmem seq
        rw [hwhole]
        refine ⟨min n beginIndex, by omega, fun p hp => ?_, fun p hp _ hlt => ?_⟩
        · have := hp.1.2
          have := hp.2
          exact ⟨hp.1.1, by omega⟩
        · exact ⟨⟨hp, by omega⟩, by omega⟩
      · refine ⟨beginIndex, ?_⟩
        by_cases hpos : 0 < beginIndex
        · obtain ⟨first, hfirst, last, hlast, hstart, hend⟩ :=
            canResume_spec hmem hbound (hcan hpos)
          exact ReachesBack.cut (h.connected seq) (fun p hp => (h.bound seq p hp).1) hfirst hlast
            hb hstart hend
        · refine ⟨hb, fun p hp => ?_, fun p hp _ hlt => by omega⟩
          exact ⟨(h.bound seq p hp.1).1, hp.2⟩
    · rename_i hne
      refine h.back seq' fun hin => hseq ?_
      exact List.mem_filter.mpr ⟨hin, decide_eq_true hne⟩
  · rw [hs.memory] at hmem
    rw [hstored seq']
    split
    · obtain ⟨n, hn, hwhole⟩ := h.whole hmem seq
      refine ⟨min n beginIndex, by omega, ?_⟩
      ext p
      rw [hwhole]
      simp only [mem_ofPred_eq, mem_Ico]
      omega
    · exact h.whole hmem seq'

variable {t : Tracked}

theorem Resumable.apply (h : Resumable t.unchecked t.cache) {call : Call}
    (hcall : Allowed t.cache call) :
    Resumable (t.apply call).unchecked (t.apply call).cache := by
  cases call with
  | startForward batch reserve maxMoves =>
      cases reserve with
      | true =>
          refine h.of_cells (startForward_wellformed h.wellformed batch true maxMoves)
            ⟨rfl, rfl, rfl, rfl, rfl⟩ rfl
      | false => exact h.startForward (hcall rfl) maxMoves
  | setCausal ctx except =>
      obtain ⟨hcells, hsetup⟩ := setCausal_cells t.cache ctx except
      exact h.of_cells (setCausal_wellformed h.wellformed ctx except) hsetup hcells
  | copyPrefix srcSeq dstSeq len => exact h.copyPrefix srcSeq dstSeq len
  | remove seq beginIndex endIndex shiftFails =>
      obtain ⟨rfl, hb, hcan⟩ := hcall
      exact h.remove hb hcan shiftFails

theorem init_resumable (h : resumeSystem.init t) : Resumable t.unchecked t.cache := by
  obtain ⟨hun, window, memory, config, maxSequences, capacity, maxBatch, hw, h⟩ := h
  have hwf := init_wellformed ⟨window, memory, 0, config, maxSequences, capacity, maxBatch, h⟩
  generalize t.cache = c at h hwf ⊢
  unfold Causal.init at h
  extract_lets cachePadding maskBatchPadding window' memory₁ memory₂ memory₃ cacheSize at h
  have hwindow : 1 ≤ window' := by
    show 1 ≤ if window = 0 then maxInt32 else window
    split
    · decide
    · omega
  by_cases hmem : memory₃ < window'
  · rw [if_pos hmem] at h
    cases h
  rw [if_neg hmem] at h
  cases h
  have hnone : ∀ seq, stored (List.replicate (roundUp cacheSize cachePadding) {}) seq = ∅ :=
    stored_replicate _
  refine ⟨hwf, ⟨hwindow, Int.not_lt.mp hmem⟩, rfl, fun seq p hp => ?_, fun seq => ?_,
    fun seq _ => ⟨0, ?_⟩, fun _ seq => ⟨0, Int.le_refl 0, ?_⟩⟩
  · rw [hnone seq] at hp
    exact absurd hp (notMem_empty p)
  · rw [hnone seq]
    exact ordConnected_empty
  · rw [hnone seq]
    exact ⟨Int.le_refl 0, fun p hp => absurd hp (notMem_empty p),
      fun p hp _ hlt => absurd hlt (Int.not_lt.mpr hp)⟩
  · rw [hnone seq, Ico_self]

theorem reachable_resumable (h : resumeSystem.Reachable t) : Resumable t.unchecked t.cache :=
  h.invariant (fun _ => init_resumable) fun t _ t' hr hst => by
    obtain ⟨hcall, rfl⟩ := hst
    exact hr.apply hcall

/-! ## §5  What a token sees -/

theorem startForward_except (hw : Wellformed c) {maxMoves : Int}
    (hnil : (c.startForward batch false maxMoves).err = none) :
    (c.startForward batch false maxMoves).cache.except = [] := by
  have hprep := hnil
  rw [startForward_err] at hprep
  have hexcept := ((prepareForward_spec hw.cover batch false maxMoves).2.2 hprep).1.except
  unfold Causal.startForward
  simp only [hprep]
  exact hexcept

/-- The mask of a forward pass shows the stored positions of the token's window. -/
theorem seenPositions_startForward (hw : Wellformed c) (hchunk : c.chunkSize = 0)
    {maxMoves : Int} (hnil : (c.startForward batch false maxMoves).err = none) {i : Nat}
    {e : BatchEntry} (hi : batch[i]? = some e) :
    seenPositions (c.startForward batch false maxMoves).cache i =
      {p ∈ stored (c.startForward batch false maxMoves).cache.cells e.seq |
        e.pos - c.swaWindowSize ≤ p ∧ p ≤ e.pos} := by
  have hne : batch ≠ [] := by
    rintro rfl
    cases hi
  have hmask := (startForward_upToDate hw hne hnil).maskExact
  have hsetup := startForward_sameSetup hw batch maxMoves
  have hvisible : ∀ j, Visible (c.startForward batch false maxMoves).cache i e j ↔
      e.seq ∈ (cellAt (c.startForward batch false maxMoves).cache.cells j).sequences ∧
      e.pos - c.swaWindowSize ≤ (cellAt (c.startForward batch false maxMoves).cache.cells j).pos ∧
      (cellAt (c.startForward batch false maxMoves).cache.cells j).pos ≤ e.pos := by
    intro j
    rw [← hsetup.window]
    constructor
    · intro hv
      refine ⟨hv.holds, hv.window, hv.causal ?_⟩
      rw [startForward_except hw hnil]
      exact List.not_mem_nil
    · rintro ⟨hholds, hwindow, hcausal⟩
      refine ⟨hholds, fun _ => hcausal, hwindow, fun hpos => ?_⟩
      rw [hsetup.chunk, hchunk] at hpos
      exact absurd hpos (Int.lt_irrefl 0)
  ext p
  constructor
  · rintro ⟨j, hle, hlt, hshown, rfl⟩
    have hv := (hvisible j).mp ((hmask.entry i e hi j hle hlt).mp hshown)
    exact ⟨⟨j, hv.1, rfl⟩, hv.2⟩
  · rintro ⟨⟨j, hj, rfl⟩, hwindow⟩
    have hv := (hvisible j).mpr ⟨hj, hwindow⟩
    obtain ⟨hle, hlt⟩ := hmask.inside i e hi j hv
    exact ⟨j, hle, hlt, (hmask.entry i e hi j hle hlt).mpr hv, rfl⟩

/-- **A resumed window is whole.** In every run, a token of a sequence that is not
continued straight from a copied prefix sees exactly the positions of its window. -/
theorem resume_exact {t : Tracked} (h : resumeSystem.Reachable t) {batch : Batch}
    (hcont : Continues t.cache batch) {maxMoves : Int}
    (hnil : (t.cache.startForward batch false maxMoves).err = none) {i : Nat} {e : BatchEntry}
    (hi : batch[i]? = some e) (hresumed : e.seq ∉ t.unchecked) :
    seenPositions (t.cache.startForward batch false maxMoves).cache i =
      Icc (max 0 (e.pos - t.cache.swaWindowSize)) e.pos := by
  have hr := reachable_resumable h
  obtain ⟨⟨next, hnext, hfollows⟩, -⟩ := hcont
  obtain ⟨n, hn⟩ := hr.back e.seq hresumed
  have he := hn.startsAt hr.window.1 (hnext e.seq).1 (hnext e.seq).2
  have hq : e.pos ∈ Ico (next e.seq) (next e.seq + tokens batch e.seq) := by
    rw [← hfollows.positions e.seq]
    exact ⟨e, List.mem_of_getElem? hi, rfl, rfl⟩
  have hkeep := hr.kept (fun seq => (hnext seq).1) hfollows e.seq
  rw [seenPositions_startForward hr.wellformed hr.chunk hnil hi,
    forward_stored hr.wellformed hfollows, if_pos hnil]
  rw [he] at hq hkeep ⊢
  exact hn.seen (keptFor_subset _ batch e.seq) hkeep hq

theorem continues_of_follows (hcells : ∀ cell ∈ c.cells, 0 ≤ cell.pos)
    (hfollows : Follows (nextOf c.cells) batch) (hlimit : ∀ e ∈ batch, e.pos < maxInt32) :
    Continues c batch := by
  refine ⟨⟨nextOf c.cells, fun seq => nextOf_spec c.cells seq ?_, hfollows⟩, hlimit⟩
  rintro p ⟨i, hi, rfl⟩
  rw [cellAt_eq_getElem (lt_length_of_mem hi)]
  exact hcells _ (List.getElem_mem _)

def windowOfTwo : Causal := (Causal.init 2 0 0 ⟨1, 1⟩ 2 100 6).get rfl

/-- Sequence 0 has processed seven tokens, in two batches; the first three positions
are evicted. -/
def sevenTokens : Tracked :=
  (Tracked.apply ⟨windowOfTwo, []⟩
    (.startForward [⟨0, 0⟩, ⟨1, 0⟩, ⟨2, 0⟩, ⟨3, 0⟩, ⟨4, 0⟩, ⟨5, 0⟩] false 1)).apply
    (.startForward [⟨6, 0⟩] false 1)

theorem reachable_forward (h : resumeSystem.Reachable t)
    (hcont : Continues t.cache batch) (maxMoves : Int) :
    resumeSystem.Reachable (t.apply (.startForward batch false maxMoves)) := by
  have hcall : Allowed t.cache (.startForward batch false maxMoves) := fun _ => hcont
  exact .step h ⟨hcall, rfl⟩

theorem sevenTokens_reachable : resumeSystem.Reachable sevenTokens := by
  have hcache : Causal.init 2 0 0 ⟨1, 1⟩ 2 100 6 = some windowOfTwo := (Option.some_get _).symm
  have hinit : resumeSystem.Reachable ⟨windowOfTwo, []⟩ :=
    .init ⟨rfl, 2, 0, ⟨1, 1⟩, 2, 100, 6, by decide, hcache⟩
  have hcont : Continues windowOfTwo [⟨0, 0⟩, ⟨1, 0⟩, ⟨2, 0⟩, ⟨3, 0⟩, ⟨4, 0⟩, ⟨5, 0⟩] :=
    continues_of_follows (by decide +kernel) (by decide +kernel) (by decide +kernel)
  have hsix := reachable_forward hinit hcont 1
  exact reachable_forward hsix
    (continues_of_follows (by decide +kernel) (by decide +kernel) (by decide +kernel)) 1

theorem resume_exact_sevenTokens :
    seenPositions (sevenTokens.cache.startForward [⟨7, 0⟩] false 1).cache 0 =
      Icc (max 0 (7 - sevenTokens.cache.swaWindowSize)) 7 :=
  resume_exact sevenTokens_reachable
    (continues_of_follows (by decide +kernel) (by decide +kernel) (by decide +kernel))
    (by decide +kernel) (i := 0) (e := ⟨7, 0⟩) rfl (by decide +kernel)

/-! ## §6  A copied prefix that is continued at once -/

/-- The token after a copied prefix misses a position of its window that the source
has evicted. -/
theorem copied_prefix_lacks :
    ¬ ∀ t, resumeSystem.Reachable t → ∀ batch maxMoves, Continues t.cache batch →
      (t.cache.startForward batch false maxMoves).err = none →
      ∀ i e, batch[i]? = some e →
        seenPositions (t.cache.startForward batch false maxMoves).cache i =
          Icc (max 0 (e.pos - t.cache.swaWindowSize)) e.pos := by
  intro hall
  have hcopy : Allowed sevenTokens.cache (.copyPrefix 0 1 4) := trivial
  have hr : resumeSystem.Reachable (sevenTokens.apply (.copyPrefix 0 1 4)) :=
    .step sevenTokens_reachable ⟨hcopy, rfl⟩
  have hnil : ((sevenTokens.apply (.copyPrefix 0 1 4)).cache.startForward
      [⟨4, 1⟩] false 1).err = none := by decide +kernel
  have hcont : Continues (sevenTokens.apply (.copyPrefix 0 1 4)).cache [⟨4, 1⟩] :=
    continues_of_follows (by decide +kernel) (by decide +kernel) (by decide +kernel)
  have hseen := hall _ hr [⟨4, 1⟩] 1 hcont hnil 0 ⟨4, 1⟩ rfl
  have hres := reachable_resumable hr
  rw [seenPositions_startForward hres.wellformed hres.chunk hnil rfl] at hseen
  have hmem : (2 : Int) ∈ Icc (max 0
      (4 - (sevenTokens.apply (.copyPrefix 0 1 4)).cache.swaWindowSize)) 4 :=
    ⟨by decide +kernel, by decide⟩
  rw [← hseen] at hmem
  obtain ⟨⟨j, hj, hpos⟩, -⟩ := hmem
  have hnone : ∀ j < 12, 1 ∈ (cellAt ((sevenTokens.apply (.copyPrefix 0 1 4)).cache.startForward
      [⟨4, 1⟩] false 1).cache.cells j).sequences →
      (cellAt ((sevenTokens.apply (.copyPrefix 0 1 4)).cache.startForward
      [⟨4, 1⟩] false 1).cache.cells j).pos ≠ 2 := by decide +kernel
  have hlen : ((sevenTokens.apply (.copyPrefix 0 1 4)).cache.startForward
      [⟨4, 1⟩] false 1).cache.cells.length = 12 := by decide +kernel
  exact hnone j (hlen ▸ lt_length_of_mem hj) hj hpos

end Causal

end Ollama.KvCache
