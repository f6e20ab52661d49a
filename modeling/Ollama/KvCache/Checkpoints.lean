import Ollama.KvCache.Recurrent
import Ollama.Lib.FirstMax
import Mathlib.Data.Set.Basic

/-!
# The checkpoint ring

`marks` is what a ring is for: the set of the positions it holds a state for,
with the states. Each operation of a ring is described by what it does to the
marks; `Wellformed` are the facts about the slice that this needs.
-/

namespace Ollama.KvCache.SlotCheckpointStore

open List

variable {τ : Type}

/-! ## §1  Marks -/

def marks (s : SlotCheckpointStore τ) : Set (Int × List τ) :=
  {m | ⟨m.1, some m.2⟩ ∈ s.entries ∧ 0 ≤ m.1}

/-- A ring of `n` entries: one that counts as empty has no live entry, and a
live entry has a state. -/
structure Wellformed (n : ℕ) (s : SlotCheckpointStore τ) : Prop where
  length : s.entries.length = n
  size : s.size = 0 → ∀ e ∈ s.entries, e.pos < 0
  filled : ∀ e ∈ s.entries, 0 ≤ e.pos → e.state.isSome

variable {s : SlotCheckpointStore τ} {st : List τ}

theorem mem_marks {p : Int} : (p, st) ∈ s.marks ↔ ⟨p, some st⟩ ∈ s.entries ∧ 0 ≤ p := Iff.rfl

variable {n : ℕ} {e : CheckpointEntry τ}

theorem Wellformed.exists_mark (h : s.Wellformed n) (he : e ∈ s.entries) (hpos : 0 ≤ e.pos) :
    ∃ st, e.state = some st ∧ (e.pos, st) ∈ s.marks := by
  obtain ⟨st, hst⟩ := Option.isSome_iff_exists.mp (h.filled e he hpos)
  refine ⟨st, hst, mem_marks.mpr ⟨?_, hpos⟩⟩
  rw [← hst]
  exact he

theorem marks_eq_empty (h : ∀ e ∈ s.entries, e.pos < 0) : s.marks = ∅ := by
  refine Set.eq_empty_iff_forall_notMem.mpr fun m hm => ?_
  have hneg : m.1 < 0 := h _ hm.1
  exact absurd hm.2 (Int.not_le.mpr hneg)

theorem Wellformed.marks_of_size (h : s.Wellformed n)
    (hsize : s.size = 0) : s.marks = ∅ := marks_eq_empty (h.size hsize)

theorem new_wellformed (n : ℕ) : (new n : SlotCheckpointStore τ).Wellformed n := by
  have hdead : ∀ e ∈ (new n : SlotCheckpointStore τ).entries, e.pos < 0 := by
    intro e he
    rw [(mem_replicate.mp he).2]
    exact Int.negSucc_lt_zero 0
  refine ⟨length_replicate, fun _ => hdead, fun e he hpos => ?_⟩
  have := hdead e he
  omega

theorem new_marks (n : ℕ) : (new n : SlotCheckpointStore τ).marks = ∅ :=
  (new_wellformed n).marks_of_size rfl

theorem reset_dead (s : SlotCheckpointStore τ) : ∀ e ∈ s.reset.entries, e.pos < 0 := by
  intro e he
  obtain ⟨e', _, rfl⟩ := mem_map.mp he
  exact Int.negSucc_lt_zero 0

theorem Wellformed.reset (h : s.Wellformed n) : s.reset.Wellformed n := by
  refine ⟨(length_map _).trans h.length, fun _ => reset_dead s, fun e he hpos => ?_⟩
  have := reset_dead s e he
  omega

theorem reset_marks (s : SlotCheckpointStore τ) : s.reset.marks = ∅ :=
  marks_eq_empty (reset_dead s)

/-! ## §2  A capture -/

/-- `record` and the copy of the state to the recorded entry. -/
def recordState (s : SlotCheckpointStore τ) (pos : Int) (state : List τ) : SlotCheckpointStore τ :=
  { (s.record pos).1 with
    entries := (s.record pos).1.entries.modify s.next fun e => { e with state := some state } }

theorem mem_modify {α : Type} {l : List α} {i : ℕ} {f : α → α} {a : α}
    (h : a ∈ l.modify i f) : a ∈ l ∨ ∃ b ∈ l, a = f b := by
  obtain ⟨j, hj⟩ := mem_iff_getElem?.mp h
  rw [getElem?_modify] at hj
  obtain ⟨b, hb, hab⟩ := Option.map_eq_some_iff.mp hj
  by_cases hij : i = j
  · rw [if_pos hij] at hab
    exact Or.inr ⟨b, mem_of_getElem? hb, hab.symm⟩
  · rw [if_neg hij] at hab
    exact Or.inl (hab ▸ mem_of_getElem? hb)

/-- The entries of a capture: the old ones and the new one. -/
theorem mem_recordState {pos : Int} {state : List τ} (he : e ∈ (s.recordState pos state).entries) :
    e ∈ s.entries ∨ e = ⟨pos, some state⟩ := by
  unfold recordState record at he
  split at he
  · rename_i hnil
    rw [hnil] at he
    simp at he
  have he' : e ∈ (s.entries.modify s.next fun e => { e with pos }).modify s.next
      fun e => { e with state := some state } := he
  rw [modify_modify_eq] at he'
  rcases mem_modify he' with h | ⟨b, _, h⟩
  · exact Or.inl h
  · exact Or.inr h

theorem recordState_marks (s : SlotCheckpointStore τ) (pos : Int) (state : List τ) :
    (s.recordState pos state).marks ⊆ insert (pos, state) s.marks := by
  rintro ⟨p, st⟩ ⟨he, hpos⟩
  rcases mem_recordState he with h | h
  · exact Or.inr ⟨h, hpos⟩
  · cases h
    exact Or.inl rfl

theorem Wellformed.recordState (h : s.Wellformed n)
    (pos : Int) (state : List τ) : (s.recordState pos state).Wellformed n := by
  refine ⟨?_, ?_, ?_⟩
  · unfold SlotCheckpointStore.recordState record
    split
    · exact (length_modify _ _ _).trans h.length
    · exact (length_modify _ _ _).trans ((length_modify _ _ _).trans h.length)
  · intro hsize e he
    by_cases hnil : s.entries = []
    · unfold SlotCheckpointStore.recordState record at he
      rw [if_pos hnil, hnil] at he
      simp at he
    -- a ring with entries counts at least one after `record`
    unfold SlotCheckpointStore.recordState record at hsize
    rw [if_neg hnil] at hsize
    have hlen := length_pos_of_ne_nil hnil
    have hsize' : (if s.size < s.entries.length then s.size + 1 else s.size) = 0 := hsize
    split at hsize' <;> omega
  · intro e he hpos
    rcases mem_recordState he with h' | h'
    · exact h.filled e h' hpos
    · rw [h']
      rfl

/-! ## §3  `pruneAfter` and `shiftRange` -/

theorem rescan_entries (entries : List (CheckpointEntry τ)) (lastPos : Int) :
    (rescan entries lastPos).entries = entries := by
  unfold rescan
  extract_lets size
  split
  · rfl
  · rfl

theorem rescan_wellformed {entries : List (CheckpointEntry τ)} (lastPos : Int)
    (hlen : entries.length = n) (hfilled : ∀ e ∈ entries, 0 ≤ e.pos → e.state.isSome) :
    (rescan entries lastPos).Wellformed n := by
  refine ⟨?_, ?_, ?_⟩
  · rw [rescan_entries]
    exact hlen
  · intro hsize e he
    rw [rescan_entries] at he
    have hcount : entries.countP (fun e => decide (0 ≤ e.pos)) = 0 := by
      unfold rescan at hsize
      extract_lets size at hsize
      split at hsize
      · assumption
      · exact hsize
    by_contra hge
    refine countP_eq_zero.mp hcount e he ?_
    exact decide_eq_true (Int.not_lt.mp hge)
  · rw [rescan_entries]
    exact hfilled

theorem Wellformed.pruneAfter (h : s.Wellformed n)
    (pos : Int) : (s.pruneAfter pos).Wellformed n := by
  refine rescan_wellformed pos ((length_map _).trans h.length) fun e he hpos => ?_
  obtain ⟨e', he', rfl⟩ := mem_map.mp he
  split at hpos
  · simp at hpos
  · rename_i hle
    rw [if_neg hle]
    exact h.filled e' he' hpos

/-- Pruning keeps the marks up to the position. -/
theorem mem_pruneAfter_marks {pos p : Int} :
    (p, st) ∈ (s.pruneAfter pos).marks ↔ (p, st) ∈ s.marks ∧ p ≤ pos := by
  rw [mem_marks, mem_marks, pruneAfter, rescan_entries, mem_map]
  constructor
  · rintro ⟨⟨e, he, heq⟩, hpos⟩
    by_cases hle : pos < e.pos
    · rw [if_pos hle] at heq
      have hdead : (-1 : Int) = p := congrArg CheckpointEntry.pos heq
      omega
    · rw [if_neg hle] at heq
      rw [heq] at he hle
      exact ⟨⟨he, hpos⟩, Int.not_lt.mp hle⟩
  · rintro ⟨⟨he, hpos⟩, hle⟩
    exact ⟨⟨_, he, if_neg (Int.not_lt.mpr hle)⟩, hpos⟩

theorem Wellformed.shiftRange (h : s.Wellformed n)
    (b e : Int) : (s.shiftRange b e).Wellformed n := by
  refine rescan_wellformed _ ((length_map _).trans h.length) fun e' he hpos => ?_
  obtain ⟨e'', he'', rfl⟩ := mem_map.mp he
  refine h.filled e'' he'' ?_
  by_contra hneg
  have hneg' : e''.pos < 0 := Int.not_le.mp hneg
  have hpos' : 0 ≤ shiftPos b e e''.pos := hpos
  rw [shiftPos, if_pos hneg'] at hpos'
  omega

/-- Shifting moves the marks as `shiftPos` says, and drops those it removes. -/
theorem mem_shiftRange_marks {b e p : Int} : (p, st) ∈ (s.shiftRange b e).marks ↔
      ∃ p', (p', st) ∈ s.marks ∧ shiftPos b e p' = p ∧ 0 ≤ p := by
  rw [mem_marks]
  unfold shiftRange
  extract_lets entries
  rw [rescan_entries, mem_map]
  constructor
  · rintro ⟨⟨e', he', heq⟩, hpos⟩
    obtain ⟨p', state⟩ := e'
    cases heq
    refine ⟨p', ⟨he', ?_⟩, rfl, hpos⟩
    by_contra hneg
    have hneg' : p' < 0 := Int.not_le.mp hneg
    have hpos' : 0 ≤ shiftPos b e p' := hpos
    rw [shiftPos, if_pos hneg'] at hpos'
    omega
  · rintro ⟨p', ⟨he', _⟩, heq, hpos⟩
    exact ⟨⟨⟨p', some st⟩, he', by rw [heq]⟩, hpos⟩

/-! ## §4  Copies -/

/-- The ring `copyCheckpoints` leaves at the destination. -/
def copyTo (src dst : SlotCheckpointStore τ) : SlotCheckpointStore τ :=
  { src with
    entries := List.zipWith (fun s d => ⟨s.pos, s.state.or d.state⟩) src.entries dst.entries }

variable {src dst : SlotCheckpointStore τ}

theorem mem_copyTo (hs : src.Wellformed n) (hd : dst.Wellformed n) (hpos : 0 ≤ e.pos) :
    e ∈ (src.copyTo dst).entries ↔ e ∈ src.entries := by
  show e ∈ List.zipWith _ src.entries dst.entries ↔ _
  have hlen : src.entries.length = dst.entries.length := hs.length.trans hd.length.symm
  -- a live entry has a state, so the one of the destination is not used
  have hcopy : ∀ s ∈ src.entries, ∀ d : CheckpointEntry τ, 0 ≤ s.pos →
      (⟨s.pos, s.state.or d.state⟩ : CheckpointEntry τ) = s := by
    intro s hmem d hp
    obtain ⟨st, hst⟩ := Option.isSome_iff_exists.mp (hs.filled s hmem hp)
    rw [hst, Option.some_or, ← hst]
  constructor
  · intro he
    obtain ⟨i, hi⟩ := mem_iff_getElem?.mp he
    rw [getElem?_zipWith_eq_some] at hi
    obtain ⟨s, d, hsi, _, heq⟩ := hi
    have hmem := mem_of_getElem? hsi
    have hp : 0 ≤ s.pos := by rw [← heq] at hpos; exact hpos
    rw [hcopy s hmem d hp] at heq
    exact heq ▸ hmem
  · intro he
    obtain ⟨i, hi⟩ := mem_iff_getElem?.mp he
    have hlt := (List.getElem?_eq_some_iff.mp hi).1
    refine mem_iff_getElem?.mpr ⟨i, getElem?_zipWith_eq_some.mpr
      ⟨e, dst.entries[i], hi, getElem?_eq_getElem _, ?_⟩⟩
    exact hcopy e he _ hpos

/-- **A copy has the marks of its source.** -/
theorem copyTo_marks (hs : src.Wellformed n)
    (hd : dst.Wellformed n) : (src.copyTo dst).marks = src.marks := by
  ext ⟨p, st⟩
  exact and_congr_left fun hpos => mem_copyTo hs hd hpos

theorem Wellformed.copyTo (hs : src.Wellformed n)
    (hd : dst.Wellformed n) (hsize : src.size ≠ 0) : (src.copyTo dst).Wellformed n where
  length := by
    show (List.zipWith _ src.entries dst.entries).length = n
    rw [length_zipWith, hs.length, hd.length, Nat.min_self]
  size h := absurd h hsize
  filled e he hpos := hs.filled e ((mem_copyTo hs hd hpos).mp he) hpos

/-! ## §5  `bestIndex` -/

/-- The key of the loop of `bestIndex`: live positions below the target. -/
def bestKey (targetPos : Int) (e : CheckpointEntry τ) : Option Int :=
  if e.pos < 0 ∨ targetPos ≤ e.pos then none else some e.pos

theorem bestStep_eq (targetPos : Int) :
    (bestStep targetPos : Int × Option ℕ → CheckpointEntry τ × ℕ → Int × Option ℕ) =
      Lib.FirstMax.step (bestKey targetPos) := by
  funext best p
  unfold bestStep Lib.FirstMax.step bestKey
  split
  · rfl
  · rfl

/-- **`bestIndex` finds a live entry** below the target, and none is closer. -/
theorem bestIndex_some {targetPos : Int} {idx : ℕ} {pos : Int}
    (h : s.bestIndex targetPos = some (idx, pos)) :
    (∃ e, s.entries[idx]? = some e ∧ e.pos = pos) ∧ 0 ≤ pos ∧ pos < targetPos := by
  unfold bestIndex at h
  rw [bestStep_eq] at h
  have hmax := Lib.FirstMax.scan_isFirstMax (bestKey targetPos) (-1) s.entries
  unfold Lib.FirstMax.scan at hmax
  generalize s.entries.zipIdx.foldl (Lib.FirstMax.step (bestKey targetPos)) (-1, none) = best
    at h hmax
  obtain ⟨bestPos, bestIdx⟩ := best
  obtain ⟨i, hi, heq⟩ := Option.map_eq_some_iff.mp h
  cases heq
  obtain ⟨_, ⟨e, he, hkey⟩, _⟩ := hmax.some idx hi
  unfold bestKey at hkey
  split at hkey
  · cases hkey
  · have hpos : e.pos = pos := Option.some.inj hkey
    exact ⟨⟨e, he, hpos⟩, by omega, by omega⟩

end Ollama.KvCache.SlotCheckpointStore
