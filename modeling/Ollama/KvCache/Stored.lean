import Ollama.KvCache.DefragRows
import Mathlib.Order.Interval.Set.Basic

/-!
# The positions a sequence has stored

What each call does to the set of positions that are stored for a sequence, and
when no position is stored twice. Where the cells lie does not matter here, so a
defragmentation is not seen.
-/

namespace Ollama.KvCache

open List

namespace Causal

/-! ## §1  Stored positions -/

/-- The positions stored for a sequence. -/
def stored (cells : List CacheCell) (seq : Int) : Set Int :=
  {p | ∃ i, seq ∈ (cellAt cells i).sequences ∧ (cellAt cells i).pos = p}

def StoredOnce (cells : List CacheCell) (seq : Int) : Prop :=
  ∀ i j, seq ∈ (cellAt cells i).sequences → seq ∈ (cellAt cells j).sequences →
    (cellAt cells i).pos = (cellAt cells j).pos → i = j

/-- The used cells of `cells'` are those of `cells`, at other locations. -/
structure Rearranged (cells cells' : List CacheCell) : Prop where
  length : cells'.length = cells.length
  places : ∃ f : Nat → Nat, (∀ i, used cells i = true → cellAt cells' (f i) = cellAt cells i) ∧
    (∀ i j, used cells i = true → used cells j = true → f i = f j → i = j) ∧
    ∀ i, used cells' i = true → ∃ j, used cells j = true ∧ f j = i

theorem Rearranged.refl (cells : List CacheCell) : Rearranged cells cells :=
  ⟨rfl, id, fun _ _ => rfl, fun _ _ _ _ h => h, fun i hi => ⟨i, hi, rfl⟩⟩

variable {seq : Int}

theorem used_of_mem {cells : List CacheCell} {i : Nat}
    (h : seq ∈ (cellAt cells i).sequences) : used cells i = true :=
  used_iff.mpr (ne_nil_of_mem h)

theorem Rearranged.stored {cells cells' : List CacheCell} (h : Rearranged cells cells')
    (seq : Int) : stored cells' seq = stored cells seq := by
  obtain ⟨f, hcell, -, honto⟩ := h.places
  ext p
  constructor
  · rintro ⟨i, hi, hp⟩
    obtain ⟨j, hj, rfl⟩ := honto i (used_of_mem hi)
    rw [hcell j hj] at hi hp
    exact ⟨j, hi, hp⟩
  · rintro ⟨i, hi, hp⟩
    refine ⟨f i, ?_, ?_⟩
    · rwa [hcell i (used_of_mem hi)]
    · rwa [hcell i (used_of_mem hi)]

variable {cells cells' : List CacheCell}

theorem Rearranged.storedOnce (h : Rearranged cells cells')
    (hs : StoredOnce cells seq) : StoredOnce cells' seq := by
  obtain ⟨f, hcell, -, honto⟩ := h.places
  intro i j hi hj hp
  obtain ⟨i', hi', rfl⟩ := honto i (used_of_mem hi)
  obtain ⟨j', hj', rfl⟩ := honto j (used_of_mem hj)
  rw [hcell i' hi'] at hi hp
  rw [hcell j' hj'] at hj hp
  rw [hs i' j' hi hj hp]

/-! ## §2  Eviction -/

/-- `updateSlidingWindow` keeps a position of a sequence. -/
def Keeps (c : Causal) (seq p : Int) : Prop :=
  c.swaMemorySize ≠ maxInt32 → ∀ lowest, c.lowestPositions.lookup seq = some lowest →
    lowest.pos - c.swaMemorySize ≤ p

variable {c : Causal}

section

variable (h : c.RangesCover)
include h

/-- What `updateSlidingWindow` leaves in the cells. -/
theorem mem_updateSlidingWindow (seq : Int) (i : Nat) :
    seq ∈ (cellAt c.updateSlidingWindow.cells i).sequences ↔
      seq ∈ (cellAt c.cells i).sequences ∧ c.Keeps seq (cellAt c.cells i).pos := by
  unfold updateSlidingWindow Keeps
  by_cases hmem : c.swaMemorySize = maxInt32
  · rw [if_pos hmem]
    exact (and_iff_left fun hne => absurd hmem hne).symm
  rw [if_neg hmem]
  have hspec := foldl_trimSequence c.lowestPositions.entries
    { c with curCellRange := KvCache.newRange } ⟨h.covers, h.below⟩
  constructor
  · intro hi
    refine ⟨hspec.shrinks.mem i seq hi, fun _ lowest hlow => ?_⟩
    have hkept := hspec.kept _ (mem_lowestPositions hlow) i hi
    rwa [hspec.shrinks.pos i] at hkept
  · rintro ⟨hi, hkeep⟩
    refine hspec.only i seq hi ?_
    rintro e he rfl
    exact hkeep hmem e.2 (lookup_of_mem_lowestPositions he)

theorem updateSlidingWindow_pos (i : Nat) :
    (cellAt c.updateSlidingWindow.cells i).pos = (cellAt c.cells i).pos :=
  (updateSlidingWindow_spec h).shrinks.pos i

theorem updateSlidingWindow_stored (seq : Int) :
    stored c.updateSlidingWindow.cells seq = {p ∈ stored c.cells seq | c.Keeps seq p} := by
  ext p
  constructor
  · rintro ⟨i, hi, rfl⟩
    rw [updateSlidingWindow_pos h]
    obtain ⟨hmem, hkeep⟩ := (mem_updateSlidingWindow h seq i).mp hi
    exact ⟨⟨i, hmem, rfl⟩, hkeep⟩
  · rintro ⟨⟨i, hi, rfl⟩, hkeep⟩
    exact ⟨i, (mem_updateSlidingWindow h seq i).mpr ⟨hi, hkeep⟩, updateSlidingWindow_pos h i⟩

theorem updateSlidingWindow_storedOnce
    (hs : StoredOnce c.cells seq) : StoredOnce c.updateSlidingWindow.cells seq := by
  intro i j hi hj hp
  rw [updateSlidingWindow_pos h, updateSlidingWindow_pos h] at hp
  exact hs i j ((mem_updateSlidingWindow h seq i).mp hi).1
    ((mem_updateSlidingWindow h seq j).mp hj).1 hp

/-! ## §3  Finding room -/

theorem defrag_rearranged (maxMoves : Int) :
    Rearranged c.updateSlidingWindow.cells (c.updateSlidingWindow.defrag maxMoves).1.cells := by
  have hc := (defrag_spec h maxMoves).1
  have hk := compacted_cellsKept hc
  exact ⟨hc.length, newIndex _, hk.cell, hk.inj, hk.onto⟩

theorem locate_rearranged (maxMoves : Int) :
    Rearranged c.updateSlidingWindow.cells (c.locate maxMoves).cache.cells := by
  unfold locate
  simp only
  split
  · exact Rearranged.refl _
  · exact defrag_rearranged h maxMoves

end

variable {maxMoves : Int}

/-- The location found is free for the whole batch. -/
theorem locate_free (h : c.RangesCover) {loc : Nat} (hloc : (c.locate maxMoves).loc = some loc) :
    loc + c.curBatch.length ≤ (c.locate maxMoves).cache.cells.length ∧
      ∀ i, loc ≤ i → i < loc + c.curBatch.length →
        (cellAt (c.locate maxMoves).cache.cells i).sequences = [] := by
  have hspec := locate_spec h maxMoves
  have hfound : (c.locate maxMoves).cache.findStartLoc = some loc := by
    unfold locate at hloc ⊢
    simp only at hloc ⊢
    split at hloc
    · rename_i hfound
      obtain rfl := Option.some.inj hloc
      rw [hfound]
    · exact hloc
  have hfree := findStartLoc_spec hfound
  rwa [hspec.curBatch] at hfree

/-! ## §4  `StartForward` -/

/-- The cells of a forward pass: the kept ones, wherever they are now, and in a free
block those of the batch. -/
structure Filled (cells : List CacheCell) (batch : Batch) (cells' : List CacheCell) : Prop where
  length : cells'.length = cells.length
  block : ∃ (mid : List CacheCell) (loc : Nat), Rearranged cells mid ∧
    loc + batch.length ≤ mid.length ∧
    (∀ i, loc ≤ i → i < loc + batch.length → (cellAt mid i).sequences = []) ∧
    ∀ i, cellAt cells' i =
      if loc ≤ i then
        match batch[i - loc]? with
        | some e => ⟨e.pos, [e.seq]⟩
        | none => cellAt mid i
      else cellAt mid i

theorem startForward_cells (c : Causal) (batch : Batch) (reserve : Bool) (maxMoves : Int) :
    (c.startForward batch reserve maxMoves).cache.cells =
      (c.prepareForward batch reserve maxMoves).cache.cells := by
  unfold startForward
  simp only
  split <;> rfl

theorem startForward_err (c : Causal) (batch : Batch) (reserve : Bool) (maxMoves : Int) :
    (c.startForward batch reserve maxMoves).err =
      (c.prepareForward batch reserve maxMoves).err := by
  unfold startForward
  simp only
  split <;> rfl

theorem startForward_sameSetup (hw : Wellformed c) (batch : Batch) (maxMoves : Int) :
    SameSetup c (c.startForward batch false maxMoves).cache := by
  have hs := (prepareForward_spec hw.cover batch false maxMoves).1
  unfold Causal.startForward
  simp only
  split
  · exact hs
  · exact hs.trans (buildMask_sameSetup _)

variable {batch : Batch}

theorem startForward_filled (h : c.RangesCover)
    (hnil : (c.startForward batch false maxMoves).err = none) :
    Filled (c.beginBatch batch).updateSlidingWindow.cells batch
      (c.startForward batch false maxMoves).cache.cells := by
  have hb : (c.beginBatch batch).RangesCover := ⟨h.covers, h.below⟩
  have hre := locate_rearranged hb maxMoves
  rw [startForward_err] at hnil
  rw [startForward_cells]
  unfold prepareForward at hnil ⊢
  simp only [Bool.false_eq_true, if_false] at hnil ⊢
  cases hloc : ((c.beginBatch batch).locate maxMoves).loc with
  | none =>
      rw [hloc] at hnil
      cases hnil
  | some loc =>
      obtain ⟨hroom, hfree⟩ := locate_free hb hloc
      have hcover := (locate_spec hb maxMoves).cover
      generalize ((c.beginBatch batch).locate maxMoves).cache = l at hre hroom hfree hcover
      have hst := storeBatch_spec batch loc { l with curLoc := loc }
        ⟨hcover.covers, hcover.below⟩ hroom
      exact ⟨hst.length.trans hre.length, l.cells, loc, hre, hroom, hfree, hst.cell⟩

/-- A batch that does not fit leaves what was kept. -/
theorem startForward_failed (h : c.RangesCover)
    (herr : (c.startForward batch false maxMoves).err ≠ none) :
    Rearranged (c.beginBatch batch).updateSlidingWindow.cells
      (c.startForward batch false maxMoves).cache.cells := by
  have hb : (c.beginBatch batch).RangesCover := ⟨h.covers, h.below⟩
  have hre := locate_rearranged hb maxMoves
  rw [startForward_err] at herr
  rw [startForward_cells]
  unfold prepareForward at herr ⊢
  simp only [Bool.false_eq_true, if_false] at herr ⊢
  cases hloc : ((c.beginBatch batch).locate maxMoves).loc with
  | none => exact hre
  | some loc =>
      rw [hloc] at herr
      exact absurd rfl herr

/-- A cell of a forward pass is kept or holds a token of the batch. -/
theorem Filled.stored (h : Filled cells batch cells') (seq : Int) : Causal.stored cells' seq =
      Causal.stored cells seq ∪ {p | ∃ e ∈ batch, e.seq = seq ∧ e.pos = p} := by
  obtain ⟨mid, loc, hre, hroom, hfree, hcell⟩ := h.block
  rw [← hre.stored seq]
  have hkept : ∀ i, (cellAt mid i).sequences ≠ [] → cellAt cells' i = cellAt mid i := by
    intro i hi
    rw [hcell i]
    split
    · rename_i hle
      rw [getElem?_eq_none]
      by_contra hlt
      exact hi (hfree i hle (by omega))
    · rfl
  ext p
  constructor
  · rintro ⟨i, hi, hp⟩
    rw [hcell i] at hi hp
    split at hi
    · rename_i hle
      rw [if_pos hle] at hp
      cases hget : batch[i - loc]? with
      | some e =>
          rw [hget] at hi hp
          exact Or.inr ⟨e, mem_of_getElem? hget, (mem_singleton.mp hi).symm, hp⟩
      | none =>
          rw [hget] at hi hp
          exact Or.inl ⟨i, hi, hp⟩
    · rename_i hle
      rw [if_neg hle] at hp
      exact Or.inl ⟨i, hi, hp⟩
  · rintro (⟨i, hi, hp⟩ | ⟨e, he, hseq, hp⟩)
    · refine ⟨i, ?_, ?_⟩
      · rwa [hkept i (ne_nil_of_mem hi)]
      · rwa [hkept i (ne_nil_of_mem hi)]
    obtain ⟨k, hk⟩ := mem_iff_getElem?.mp he
    have hsub : loc + k - loc = k := Nat.add_sub_cancel_left loc k
    refine ⟨loc + k, ?_, ?_⟩
    · rw [hcell, if_pos (Nat.le_add_right loc k), hsub, hk]
      exact mem_singleton.mpr hseq.symm
    · rw [hcell, if_pos (Nat.le_add_right loc k), hsub, hk]
      exact hp

theorem startForward_stored (h : c.RangesCover)
    (hnil : (c.startForward batch false maxMoves).err = none) (seq : Int) :
    stored (c.startForward batch false maxMoves).cache.cells seq =
      {p ∈ stored c.cells seq | (c.beginBatch batch).Keeps seq p} ∪
        {p | ∃ e ∈ batch, e.seq = seq ∧ e.pos = p} := by
  have hb : (c.beginBatch batch).RangesCover := ⟨h.covers, h.below⟩
  rw [(startForward_filled h hnil).stored seq, updateSlidingWindow_stored hb]
  rfl

theorem startForward_failed_stored (h : c.RangesCover)
    (herr : (c.startForward batch false maxMoves).err ≠ none) (seq : Int) :
    stored (c.startForward batch false maxMoves).cache.cells seq =
      {p ∈ stored c.cells seq | (c.beginBatch batch).Keeps seq p} := by
  have hb : (c.beginBatch batch).RangesCover := ⟨h.covers, h.below⟩
  rw [(startForward_failed h herr).stored seq, updateSlidingWindow_stored hb]
  rfl

/-! ## §5  Batches that continue the sequences -/

/-- `n` is where positions that continue `P` start. -/
structure StartsAt (P : Set Int) (n : Int) : Prop where
  nonneg : 0 ≤ n
  above : ∀ p ∈ P, p < n
  direct : P.Nonempty → n - 1 ∈ P

/-- The tokens of each sequence have the positions from `next` on, in order. -/
def Follows (next : Int → Int) (batch : Batch) : Prop :=
  ∀ i e, batch[i]? = some e → e.pos = next e.seq + (batch.take i).countP fun e' => e'.seq = e.seq

instance (next : Int → Int) (batch : Batch) : Decidable (Follows next batch) :=
  decidable_of_iff (∀ i : Fin batch.length, (batch.get i).pos = next (batch.get i).seq +
      (batch.take i).countP fun e => e.seq = (batch.get i).seq)
    ⟨fun h i e hi => by
      obtain ⟨hlt, rfl⟩ := List.getElem?_eq_some_iff.mp hi
      exact h ⟨i, hlt⟩,
    fun h i => h i (batch.get i) (getElem?_eq_getElem i.isLt)⟩

def tokens (batch : Batch) (seq : Int) : Nat := batch.countP fun e => e.seq = seq

theorem tokens_append (batch : Batch) (e : BatchEntry) (seq : Int) :
    tokens (batch ++ [e]) seq = tokens batch seq + if e.seq = seq then 1 else 0 := by
  unfold tokens
  simp

variable {next : Int → Int}

/-- The positions of a sequence in a batch are the ones that follow. -/
theorem Follows.positions (h : Follows next batch) (seq : Int) :
    {p | ∃ e ∈ batch, e.seq = seq ∧ e.pos = p} =
      Set.Ico (next seq) (next seq + tokens batch seq) := by
  induction batch using List.reverseRecOn with
  | nil =>
      ext p
      refine iff_of_false ?_ ?_
      · rintro ⟨e, he, -⟩
        cases he
      · intro hp
        have hlt : p < next seq + ((0 : Nat) : Int) := hp.2
        have hle := hp.1
        omega
  | append_singleton batch e ih =>
      have hinit : Follows next batch := by
        intro i e' hi
        have hlt : i < batch.length := (List.getElem?_eq_some_iff.mp hi).1
        have hi' := h i e' ((getElem?_append_left hlt).trans hi)
        rwa [take_append_of_le_length hlt.le] at hi'
      have hpos : e.pos = next e.seq + tokens batch e.seq := by
        have he := h batch.length e (by simp)
        rwa [take_left] at he
      have ih := ih hinit
      ext p
      have hsplit : p ∈ {p | ∃ e' ∈ batch ++ [e], e'.seq = seq ∧ e'.pos = p} ↔
          p ∈ {p | ∃ e' ∈ batch, e'.seq = seq ∧ e'.pos = p} ∨ e.seq = seq ∧ e.pos = p := by
        constructor
        · rintro ⟨e', he', hs⟩
          obtain he' | he' := mem_append.mp he'
          · exact Or.inl ⟨e', he', hs⟩
          · exact Or.inr (mem_singleton.mp he' ▸ hs)
        · rintro (⟨e', he', hs⟩ | hs)
          · exact ⟨e', mem_append_left _ he', hs⟩
          · exact ⟨e, mem_append_right _ (mem_singleton.mpr rfl), hs⟩
      rw [hsplit, ih, tokens_append, Set.mem_Ico, Set.mem_Ico]
      by_cases hs : e.seq = seq
      · subst hs
        rw [if_pos rfl]
        push_cast
        omega
      · rw [if_neg hs, Nat.add_zero]
        exact or_iff_left fun hc => hs hc.1

/-- Two tokens of a sequence have different positions. -/
theorem Follows.injective (h : Follows next batch) {i j : Nat}
    {e e' : BatchEntry} (hi : batch[i]? = some e) (hj : batch[j]? = some e')
    (hs : e.seq = e'.seq) (hp : e.pos = e'.pos) : i = j := by
  have hlt : ∀ {i j : Nat} {e e' : BatchEntry}, batch[i]? = some e → batch[j]? = some e' →
      e.seq = e'.seq → i < j → e.pos < e'.pos := by
    intro i j e e' hi hj hs hij
    obtain ⟨hlen, rfl⟩ := List.getElem?_eq_some_iff.mp hi
    have hsub : (batch.take (i + 1)).Sublist (batch.take j) := take_sublist_take_left hij
    have hcount := hsub.countP_le (p := fun e'' => decide (e''.seq = e'.seq))
    rw [take_succ_eq_append_getElem hlen, countP_append, countP_singleton,
      if_pos (decide_eq_true hs)] at hcount
    rw [h i _ hi, h j _ hj, hs]
    omega
  rcases Nat.lt_trichotomy i j with hij | hij | hij
  · have := hlt hi hj hs hij
    omega
  · exact hij
  · have := hlt hj hi hs.symm hij
    omega

/-- A batch of new positions stores none twice. -/
theorem Filled.storedOnce (h : Filled cells batch cells') (hfollows : Follows next batch)
    (hnew : ∀ p ∈ Causal.stored cells seq, p < next seq) (hs : StoredOnce cells seq) :
    StoredOnce cells' seq := by
  obtain ⟨mid, loc, hre, -, -, hcell⟩ := h.block
  have hmid := hre.storedOnce hs
  have hcase : ∀ i, seq ∈ (cellAt cells' i).sequences →
      (∃ e, loc ≤ i ∧ batch[i - loc]? = some e ∧ e.seq = seq ∧ (cellAt cells' i).pos = e.pos) ∨
      seq ∈ (cellAt mid i).sequences ∧ (cellAt cells' i).pos = (cellAt mid i).pos := by
    intro i hi
    rw [hcell i] at hi ⊢
    by_cases hle : loc ≤ i
    · rw [if_pos hle] at hi ⊢
      cases hget : batch[i - loc]? with
      | some e =>
          rw [hget] at hi
          exact Or.inl ⟨e, hle, rfl, (mem_singleton.mp hi).symm, rfl⟩
      | none =>
          rw [hget] at hi
          exact Or.inr ⟨hi, rfl⟩
    · rw [if_neg hle] at hi ⊢
      exact Or.inr ⟨hi, rfl⟩
  have happart : ∀ {i k : Nat} {e : BatchEntry}, batch[k]? = some e → e.seq = seq →
      seq ∈ (cellAt mid i).sequences → e.pos ≠ (cellAt mid i).pos := by
    intro i k e hget hseq hi hp
    have hstored : (cellAt mid i).pos ∈ Causal.stored cells seq := by
      rw [← hre.stored seq]
      exact ⟨i, hi, rfl⟩
    have hlt := hnew _ hstored
    have hpos := hfollows k e hget
    rw [hseq] at hpos
    omega
  intro i j hi hj hp
  obtain ⟨e, hle, hget, hseq, hpos⟩ | ⟨hmem, hpos⟩ := hcase i hi
  · obtain ⟨e', hle', hget', hseq', hpos'⟩ | ⟨hmem', hpos'⟩ := hcase j hj
    · have := hfollows.injective hget hget' (hseq.trans hseq'.symm)
        (hpos.symm.trans (hp.trans hpos'))
      omega
    · exact absurd (hpos.symm.trans (hp.trans hpos')) (happart hget hseq hmem')
  · obtain ⟨e', hle', hget', hseq', hpos'⟩ | ⟨hmem', hpos'⟩ := hcase j hj
    · exact absurd (hpos'.symm.trans (hp.symm.trans hpos)) (happart hget' hseq' hmem)
    · exact hmid i j hmem hmem' (hpos.symm.trans (hp.trans hpos'))

def nextOf (cells : List CacheCell) (seq : Int) : Int :=
  cells.foldl (fun n cell => if seq ∈ cell.sequences then max n (cell.pos + 1) else n) 0

theorem stored_nil (seq : Int) : stored [] seq = ∅ := by
  ext p
  refine iff_of_false ?_ (Set.notMem_empty p)
  rintro ⟨i, hi, -⟩
  cases hi

theorem mem_stored_append {cells : List CacheCell} {cell : CacheCell} {seq p : Int} :
    p ∈ stored (cells ++ [cell]) seq ↔
      p ∈ stored cells seq ∨ seq ∈ cell.sequences ∧ cell.pos = p := by
  have hat : ∀ i, cellAt (cells ++ [cell]) i =
      if i < cells.length then cellAt cells i else if i = cells.length then cell else {} := by
    intro i
    unfold cellAt
    split
    · rename_i hlt
      rw [getElem?_append_left hlt]
    rename_i hlt
    rw [getElem?_append_right (Nat.le_of_not_lt hlt)]
    split
    · rename_i he
      rw [he, Nat.sub_self]
      rfl
    · rw [getElem?_eq_none (by rw [length_singleton]; omega)]
      rfl
  constructor
  · rintro ⟨i, hi, hp⟩
    rw [hat i] at hi hp
    split at hi
    · rename_i hlt
      rw [if_pos hlt] at hp
      exact Or.inl ⟨i, hi, hp⟩
    rename_i hlt
    rw [if_neg hlt] at hp
    split at hi
    · rename_i he
      rw [if_pos he] at hp
      exact Or.inr ⟨hi, hp⟩
    · cases hi
  · rintro (⟨i, hi, hp⟩ | ⟨hmem, hp⟩)
    · have hlt := lt_length_of_mem hi
      exact ⟨i, by rwa [hat i, if_pos hlt], by rwa [hat i, if_pos hlt]⟩
    · refine ⟨cells.length, ?_, ?_⟩
      · rwa [hat, if_neg (Nat.lt_irrefl _), if_pos rfl]
      · rwa [hat, if_neg (Nat.lt_irrefl _), if_pos rfl]

theorem nextOf_append (cells : List CacheCell) (cell : CacheCell) (seq : Int) :
    nextOf (cells ++ [cell]) seq =
      if seq ∈ cell.sequences then max (nextOf cells seq) (cell.pos + 1)
      else nextOf cells seq := by
  unfold nextOf
  rw [foldl_append]
  rfl

/-- Positions that are not negative are continued from `nextOf`, and from 0 when
there are none. -/
theorem nextOf_spec (cells : List CacheCell) (seq : Int) (h : ∀ p ∈ stored cells seq, 0 ≤ p) :
    StartsAt (stored cells seq) (nextOf cells seq) ∧
      (stored cells seq = ∅ → nextOf cells seq = 0) := by
  induction cells using List.reverseRecOn with
  | nil =>
      rw [stored_nil]
      refine ⟨⟨Int.le_refl 0, fun p hp => absurd hp (Set.notMem_empty p), fun hp => ?_⟩,
        fun _ => rfl⟩
      exact absurd hp Set.not_nonempty_empty
  | append_singleton cells cell ih =>
      obtain ⟨⟨hnonneg, habove, hdirect⟩, hempty⟩ :=
        ih fun p hp => h p (mem_stored_append.mpr (Or.inl hp))
      rw [nextOf_append]
      by_cases hmem : seq ∈ cell.sequences
      · have hcell : 0 ≤ cell.pos := h _ (mem_stored_append.mpr (Or.inr ⟨hmem, rfl⟩))
        rw [if_pos hmem]
        refine ⟨⟨Int.le_trans hnonneg (Int.le_max_left _ _), fun p hp => ?_, fun _ => ?_⟩,
          fun hnone => ?_⟩
        · obtain hp | ⟨-, rfl⟩ := mem_stored_append.mp hp
          · exact Int.lt_of_lt_of_le (habove p hp) (Int.le_max_left _ _)
          · exact Int.lt_of_lt_of_le (Int.lt_succ _) (Int.le_max_right _ _)
        · rw [mem_stored_append]
          rcases Int.le_total (nextOf cells seq) (cell.pos + 1) with hle | hle
          · rw [Int.max_eq_right hle, Int.add_sub_cancel]
            exact Or.inr ⟨hmem, rfl⟩
          rw [Int.max_eq_left hle]
          refine Or.inl (hdirect ?_)
          by_contra hnone
          have := hempty (Set.not_nonempty_iff_eq_empty.mp hnone)
          omega
        · have hp : cell.pos ∈ stored (cells ++ [cell]) seq :=
            mem_stored_append.mpr (Or.inr ⟨hmem, rfl⟩)
          rw [hnone] at hp
          exact absurd hp (Set.notMem_empty _)
      · have hsame : stored (cells ++ [cell]) seq = stored cells seq := by
          ext p
          rw [mem_stored_append]
          exact or_iff_left fun hc => hmem hc.1
        rw [if_neg hmem, hsame]
        exact ⟨⟨hnonneg, habove, hdirect⟩, hempty⟩

/-- What eviction keeps of a sequence that ends before `n`, in the batch or not. -/
theorem Keeps.of_le {seq n p : Int}
    (hn : StartsAt (stored c.cells seq) n) (hp : p ∈ stored c.cells seq) (hnonneg : 0 ≤ p)
    (hbatch : ∀ e ∈ c.curBatch, e.seq = seq → ∃ e' ∈ c.curBatch, e'.seq = seq ∧ e'.pos ≤ n)
    (hle : n - c.swaMemorySize ≤ p) : c.Keeps seq p := by
  intro _ lowest hlow
  rw [lookup_lowestPositions] at hlow
  cases hin : (batchLowest c.curBatch).lookup seq with
  | some lowest' =>
      rw [hin] at hlow
      obtain rfl := Option.some.inj hlow
      obtain ⟨-, hall, e, he, hs⟩ := (batchLowest_spec c.curBatch).spec seq lowest' hin
      obtain ⟨e', he', hs', hpos⟩ := hbatch e he hs
      have := hall e' he' hs'
      omega
  | none =>
      rw [hin] at hlow
      obtain ⟨r, hr, rfl⟩ := Option.map_eq_some_iff.mp hlow
      have hlt := hn.above p hp
      show lastPos c.cells seq r + 1 - c.swaMemorySize ≤ p
      obtain ⟨-, -, hzero | ⟨j, hj, hpos⟩⟩ := lastPos_spec c.cells seq r
      · omega
      · have := hn.above _ ⟨j, hj, rfl⟩
        omega

theorem Keeps.mono {seq p q : Int} (h : c.Keeps seq p) (hle : p ≤ q) :
    c.Keeps seq q := fun hmem lowest hlow => Int.le_trans (h hmem lowest hlow) hle

theorem stored_replicate (n : Nat) (seq : Int) : stored (List.replicate n {}) seq = ∅ := by
  ext p
  refine iff_of_false ?_ (Set.notMem_empty p)
  rintro ⟨i, hi, -⟩
  rw [cellAt_replicate] at hi
  cases hi

/-! ## §6  The other calls -/

theorem setCausal_cells (c : Causal) (ctx : Bool) (except : List Nat) :
    (c.setCausal ctx except).cells = c.cells ∧ SameSetup c (c.setCausal ctx except) := by
  unfold setCausal
  split
  · exact ⟨rfl, SameSetup.refl _⟩
  · split
    · exact ⟨rfl, rfl, rfl, rfl, rfl, rfl⟩
    · exact ⟨rfl, rfl, rfl, rfl, rfl, rfl⟩

theorem cellAt_copyPrefix (c : Causal) (srcSeq dstSeq len : Int) (i : Nat) :
    cellAt (c.copyPrefix srcSeq dstSeq len).cells i = copyCell srcSeq dstSeq len (cellAt c.cells i) :=
  cellAt_map (copyCell_empty srcSeq dstSeq len) i

/-- The destination of a copy has the source's positions below `len`. -/
theorem copyPrefix_stored (c : Causal) (srcSeq dstSeq len seq : Int) :
    stored (c.copyPrefix srcSeq dstSeq len).cells seq =
      if seq = dstSeq then {p ∈ stored c.cells srcSeq | srcSeq ≠ dstSeq ∧ p < len}
      else stored c.cells seq := by
  have hmem : ∀ p, p ∈ stored (c.copyPrefix srcSeq dstSeq len).cells seq ↔
      ∃ i, (if seq = dstSeq then srcSeq ≠ dstSeq ∧ srcSeq ∈ (cellAt c.cells i).sequences ∧
        (cellAt c.cells i).pos < len else seq ∈ (cellAt c.cells i).sequences) ∧
        (cellAt c.cells i).pos = p := by
    intro p
    refine exists_congr fun i => ?_
    rw [cellAt_copyPrefix, mem_copyCell, copyCell_pos]
  ext p
  rw [hmem]
  by_cases hs : seq = dstSeq
  · simp only [if_pos hs]
    constructor
    · rintro ⟨i, ⟨hne, hi, hlt⟩, rfl⟩
      exact ⟨⟨i, hi, rfl⟩, hne, hlt⟩
    · rintro ⟨⟨i, hi, rfl⟩, hne, hlt⟩
      exact ⟨i, ⟨hne, hi, hlt⟩, rfl⟩
  · simp only [if_neg hs]
    rfl

/-- A removal up to `math.MaxInt32` cuts the positions off. -/
theorem remove_tail_stored {seq beginIndex : Int} {shiftFails : Bool}
    (h : ∀ p ∈ stored c.cells seq, p < maxInt32) (seq' : Int) :
    stored (c.remove seq beginIndex maxInt32 shiftFails).1.cells seq' =
      if seq' = seq then {p ∈ stored c.cells seq | p < beginIndex} else stored c.cells seq' := by
  obtain ⟨-, -, hcell⟩ := @remove_tail c seq beginIndex shiftFails fun i hi => h _ ⟨i, hi, rfl⟩
  have hpos : ∀ i, (cellAt (c.remove seq beginIndex maxInt32 shiftFails).1.cells i).pos =
      (cellAt c.cells i).pos := by
    intro i
    rw [hcell i]
    split <;> rfl
  have hmem : ∀ i, seq' ∈ (cellAt (c.remove seq beginIndex maxInt32 shiftFails).1.cells i).sequences ↔
      seq' ∈ (cellAt c.cells i).sequences ∧ ¬ (seq' = seq ∧ beginIndex ≤ (cellAt c.cells i).pos) := by
    intro i
    rw [hcell i]
    split
    · rename_i hin
      rw [CacheCell.mem_drop]
      exact and_congr_right fun _ => not_congr (and_iff_left hin.2).symm
    · rename_i hout
      refine (and_iff_left_of_imp fun hi hc => hout ?_).symm
      exact ⟨hc.1 ▸ hi, hc.2⟩
  ext p
  by_cases hs : seq' = seq
  · rw [if_pos hs]
    constructor
    · rintro ⟨i, hi, hp⟩
      rw [hpos i] at hp
      obtain ⟨hi, hlt⟩ := (hmem i).mp hi
      refine ⟨⟨i, hs ▸ hi, hp⟩, ?_⟩
      rw [← hp]
      exact Int.not_le.mp fun hle => hlt ⟨hs, hle⟩
    · rintro ⟨⟨i, hi, rfl⟩, hlt⟩
      refine ⟨i, (hmem i).mpr ⟨hs ▸ hi, fun hc => ?_⟩, hpos i⟩
      exact Int.not_le.mpr hlt hc.2
  · rw [if_neg hs]
    constructor
    · rintro ⟨i, hi, hp⟩
      rw [hpos i] at hp
      exact ⟨i, ((hmem i).mp hi).1, hp⟩
    · rintro ⟨i, hi, rfl⟩
      exact ⟨i, (hmem i).mpr ⟨hi, fun hc => hs hc.1⟩, hpos i⟩

end Causal

end Ollama.KvCache
