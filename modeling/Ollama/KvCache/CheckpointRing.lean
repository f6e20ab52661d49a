import Ollama.KvCache.Checkpoints
import Ollama.Lib.Ring
import Ollama.Lib.Transition

/-!
# Which checkpoints the ring keeps

A ring is to keep the newest checkpoints. It has one index, `next`, for the
entry a new checkpoint goes to; `pruneAfter` and `shiftRange` free entries
anywhere and set it to the first free one. The runs are those of a ring of its
own, together with the list of the positions that were recorded and not taken
away since (`recorded`): what the ring should hold is the end of that list.
-/

namespace Ollama.KvCache.SlotCheckpointStore

open Lib Lib.Ring List Lib.FirstMax

variable {τ : Type}

/-! ## §1  Live entries -/

/-- The position of an entry, none if it is free. -/
def livePos (e : CheckpointEntry τ) : Option Int := if e.pos < 0 then none else some e.pos

def cells (s : SlotCheckpointStore τ) : List (Option Int) := s.entries.map livePos

def live (s : SlotCheckpointStore τ) : List Int := s.entries.filterMap livePos

theorem livePos_eq_some {e : CheckpointEntry τ} {p : Int} :
    livePos e = some p ↔ e.pos = p ∧ 0 ≤ p := by
  unfold livePos
  split
  · constructor
    · intro h
      cases h
    · rintro ⟨rfl, h⟩
      omega
  constructor
  · intro h
    cases h
    exact ⟨rfl, by omega⟩
  · rintro ⟨rfl, _⟩
    rfl

theorem livePos_eq_none {e : CheckpointEntry τ} : livePos e = none ↔ e.pos < 0 := by
  unfold livePos
  split
  · exact iff_of_true rfl ‹_›
  · exact iff_of_false (by simp) ‹_›

variable {s : SlotCheckpointStore τ}

theorem mem_live {p : Int} : p ∈ s.live ↔ 0 ≤ p ∧ ∃ e ∈ s.entries, e.pos = p := by
  unfold live
  rw [mem_filterMap]
  constructor
  · rintro ⟨e, he, hp⟩
    obtain ⟨hpos, h0⟩ := livePos_eq_some.mp hp
    exact ⟨h0, e, he, hpos⟩
  · rintro ⟨h0, e, he, hpos⟩
    exact ⟨e, he, livePos_eq_some.mpr ⟨hpos, h0⟩⟩

theorem live_eq_cells (s : SlotCheckpointStore τ) : s.live = s.cells.filterMap id := by
  unfold live cells
  rw [filterMap_map]
  rfl

theorem cells_length (s : SlotCheckpointStore τ) : s.cells.length = s.entries.length :=
  length_map _

theorem cells_getElem? (s : SlotCheckpointStore τ) (i : ℕ) :
    s.cells[i]? = s.entries[i]?.map livePos := getElem?_map

/-! ## §2  Runs -/

/-- A ring, and the positions recorded in it and not taken away since, in
the order they were recorded. -/
structure Recording (τ : Type) where
  store : SlotCheckpointStore τ
  recorded : List Int

inductive RingOp where
  | record (pos : Int)
  | pruneAfter (pos : Int)
  | shiftRange (beginIndex endIndex : Int)
deriving DecidableEq, Repr

/-- What `pruneAfter` makes of a position. -/
def prunedPos (pos p : Int) : Option Int := if pos < p then none else some p

/-- What `shiftRange` makes of a position: one moved before 0 is gone. -/
def shiftedPos (beginIndex endIndex p : Int) : Option Int :=
  if shiftPos beginIndex endIndex p < 0 then none else some (shiftPos beginIndex endIndex p)

def applyOp (s : Recording τ) : RingOp → Recording τ
  | .record pos => ⟨(s.store.record pos).1, s.recorded ++ [pos]⟩
  | .pruneAfter pos => ⟨s.store.pruneAfter pos, s.recorded.filterMap (prunedPos pos)⟩
  | .shiftRange b e => ⟨s.store.shiftRange b e, s.recorded.filterMap (shiftedPos b e)⟩

/-- How the operations are called: positions are of type int32, and a new
one is larger than those of the live entries. -/
def Called (s : Recording τ) : RingOp → Prop
  | .record pos => pos ≤ maxInt32 ∧ ∀ p ∈ s.store.live, p < pos
  | .pruneAfter _ => True
  | .shiftRange b e => b < e

/-- The runs of a ring of `n` entries. -/
def ring (τ : Type) (n : ℕ) : System (Recording τ) RingOp where
  init s := s = ⟨new n, []⟩
  step s op s' := Called s op ∧ s' = applyOp s op

/-! ## §3  What a ring keeps -/

/-- The last `n` of a list. -/
def newest (n : ℕ) (recorded : List Int) : List Int := recorded.drop (recorded.length - n)

/-- `best` is the live entry with the greatest position below `targetPos`. -/
def IsBest (s : SlotCheckpointStore τ) (targetPos : Int) : Option (ℕ × Int) → Prop
  | none => ∀ q ∈ s.live, targetPos ≤ q
  | some (idx, pos) => (∃ e, s.entries[idx]? = some e ∧ e.pos = pos) ∧ pos ∈ s.live ∧
      pos < targetPos ∧ ∀ q ∈ s.live, q < targetPos → q ≤ pos

/-- A ring that keeps the newest checkpoints. -/
structure KeepsNewest (n : ℕ) (s : Recording τ) : Prop where
  size : s.store.size = s.store.live.length
  distinct : s.store.live.Nodup
  newest : s.store.live.Perm (newest n s.recorded)
  /-- `record` writes one entry, a live one only if no entry is free, and then
  the oldest. -/
  overwrites : ∀ pos idx, (s.store.record pos).2 = some idx →
    (∀ j, j ≠ idx → (s.store.record pos).1.entries[j]? = s.store.entries[j]?) ∧
    ∀ e, s.store.entries[idx]? = some e → 0 ≤ e.pos →
      ∀ e' ∈ s.store.entries, 0 ≤ e'.pos ∧ e.pos ≤ e'.pos
  best : ∀ targetPos, s.store.IsBest targetPos (s.store.bestIndex targetPos)

variable {n : ℕ}

theorem newest_of_le {recorded : List Int} (h : recorded.length ≤ n) :
    newest n recorded = recorded := by
  unfold newest
  rw [Nat.sub_eq_zero_of_le h]
  rfl

theorem newest_length (n : ℕ) (recorded : List Int) :
    (newest n recorded).length = min n recorded.length := by
  unfold newest
  rw [length_drop]
  omega

theorem newest_snoc (n : ℕ) (recorded : List Int) (pos : Int) : newest n (recorded ++ [pos]) =
      (newest n recorded ++ [pos]).drop ((newest n recorded).length + 1 - n) := by
  have hlen := newest_length n recorded
  by_cases hle : recorded.length < n
  · have h0 : (newest n recorded).length + 1 - n = 0 := by omega
    rw [h0, drop_zero, newest_of_le (Nat.le_of_lt hle), newest_of_le]
    rw [length_append]
    exact hle
  by_cases hn : n = 0
  · have hnil : newest n recorded = [] := eq_nil_of_length_eq_zero (by omega)
    rw [hnil, hn]
    unfold newest
    simp
  have h1 : (newest n recorded).length + 1 - n = 1 := by omega
  have hsplit : newest n recorded ++ [pos] = (recorded ++ [pos]).drop (recorded.length - n) := by
    unfold newest
    rw [drop_append_of_le_length (Nat.sub_le _ _)]
  rw [h1, hsplit, drop_drop]
  unfold newest
  rw [length_append, length_singleton]
  congr 1
  omega

/-- Taking away what is outside the last `n`, or everything, leaves the
last `n`. -/
theorem newest_filterMap {recorded : List Int} {f : Int → Option Int}
    (h : recorded.length ≤ n ∨ (∀ p ∈ newest n recorded, f p ≠ none) ∨ ∀ p ∈ recorded, f p = none) :
    newest n (recorded.filterMap f) = (newest n recorded).filterMap f := by
  rcases h with hle | hkeep | hnone
  · rw [newest_of_le hle, newest_of_le]
    exact Nat.le_trans (length_filterMap_le _ _) hle
  · by_cases hle : recorded.length ≤ n
    · rw [newest_of_le hle, newest_of_le]
      exact Nat.le_trans (length_filterMap_le _ _) hle
    have hall : ((newest n recorded).filterMap f).length = n := by
      rw [length_filterMap_eq_countP, countP_eq_length.mpr, newest_length]
      · omega
      · exact fun p hp => Option.isSome_iff_ne_none.mpr (hkeep p hp)
    have hsplit : recorded.filterMap f =
        (recorded.take (recorded.length - n)).filterMap f ++ (newest n recorded).filterMap f := by
      unfold newest
      rw [← filterMap_append, take_append_drop]
    rw [hsplit]
    generalize (newest n recorded).filterMap f = kept at hall
    unfold newest
    rw [length_append, hall, Nat.add_sub_cancel, drop_left]
  · have hnil : recorded.filterMap f = [] := filterMap_eq_nil_iff.mpr hnone
    have hnil' : (newest n recorded).filterMap f = [] :=
      filterMap_eq_nil_iff.mpr fun p hp => hnone p (mem_of_mem_drop hp)
    rw [hnil, hnil', newest_of_le (Nat.zero_le n)]

/-- **`bestIndex` finds the best entry**, whatever the ring. -/
theorem bestIndex_isBest (s : SlotCheckpointStore τ) (targetPos : Int) :
    s.IsBest targetPos (s.bestIndex targetPos) := by
  have hkey : ∀ {j : ℕ} {e : CheckpointEntry τ}, s.entries[j]? = some e → 0 ≤ e.pos →
      e.pos < targetPos → bestKey targetPos e = some e.pos := fun _ h0 hlt => by
    unfold bestKey
    rw [if_neg (by omega)]
  have hscan : s.bestIndex targetPos = (scan (bestKey targetPos) (-1) s.entries).2.map fun i =>
        (i, (scan (bestKey targetPos) (-1) s.entries).1) := by
    unfold bestIndex scan
    rw [bestStep_eq]
  cases hres : (scan (bestKey targetPos) (-1) s.entries).2 with
  | none =>
      rw [hscan, hres]
      intro q hq
      obtain ⟨h0, e, he, rfl⟩ := mem_live.mp hq
      obtain ⟨j, hj⟩ := mem_iff_getElem?.mp he
      by_contra hlt
      have := scan_eq_none.mp hres j e _ hj (hkey hj h0 (Int.not_le.mp hlt))
      omega
  | some i =>
      rw [hres] at hscan
      rw [hscan]
      obtain ⟨⟨e, he, hpos⟩, h0, hlt⟩ := bestIndex_some hscan
      refine ⟨⟨e, he, hpos⟩, mem_live.mpr ⟨h0, e, mem_of_getElem? he, hpos⟩, hlt, ?_⟩
      intro q hq hqt
      obtain ⟨hq0, e', he', rfl⟩ := mem_live.mp hq
      obtain ⟨j, hj⟩ := mem_iff_getElem?.mp he'
      exact (scan_isFirstMax (bestKey targetPos) (-1) s.entries).above j e' _ hj (hkey hj hq0 hqt)

/-! ## §4  `record` -/

structure Ordered (n : ℕ) (s : Recording τ) : Prop where
  length : s.store.entries.length = n
  size : s.store.size = s.store.live.length
  upper : ∀ p ∈ s.store.live, p ≤ maxInt32
  holds : Holds s.store.cells s.store.next (newest n s.recorded)

theorem record_eq (h : s.entries ≠ []) (pos : Int) : s.record pos =
      ({ entries := s.entries.modify s.next fun e => { e with pos }
         size := if s.size < s.entries.length then s.size + 1 else s.size
         next := (s.next + 1) % s.entries.length
         lastPos := pos }, some s.next) := if_neg h

variable {pos : Int}

theorem record_cells (h : s.entries ≠ [])
    (hpos : 0 ≤ pos) : (s.record pos).1.cells = s.cells.set s.next (some pos) := by
  rw [record_eq h]
  refine ext_getElem? fun i => ?_
  rw [cells_getElem?, getElem?_set, cells_length, cells_getElem?]
  by_cases hi : s.next = i
  · rw [if_pos hi, ← hi, getElem?_modify_eq]
    have hnew : ∀ e : CheckpointEntry τ, livePos { e with pos } = some pos := fun e =>
      livePos_eq_some.mpr ⟨rfl, hpos⟩
    split
    · rename_i hlt
      rw [getElem?_eq_getElem hlt]
      exact congrArg some (hnew _)
    · rename_i hge
      rw [getElem?_eq_none (Nat.not_lt.mp hge)]
      rfl
  · rw [if_neg hi, getElem?_modify_ne _ _ hi]

/-- A ring in order keeps the newest checkpoints. -/
theorem Ordered.keepsNewest {s : Recording τ} (h : Ordered n s) : KeepsNewest n s where
  size := h.size
  distinct := by
    rw [live_eq_cells]
    exact h.holds.perm.nodup_iff.mpr (h.holds.sorted.imp fun hab => ne_of_lt hab)
  newest := by
    rw [live_eq_cells]
    exact h.holds.perm
  overwrites := by
    intro pos idx hidx
    have hne : s.store.entries ≠ [] := by
      intro hnil
      have := h.holds.bound
      rw [cells_length, hnil] at this
      exact Nat.not_lt_zero _ this
    rw [record_eq hne] at hidx ⊢
    obtain rfl := Option.some.inj hidx
    constructor
    · intro j hj
      exact getElem?_modify_ne _ _ (Ne.symm hj)
    intro e he hpos
    have hcell : s.store.cells[s.store.next]? = some (some e.pos) := by
      rw [cells_getElem?, he]
      exact congrArg some (livePos_eq_some.mpr ⟨rfl, hpos⟩)
    obtain ⟨hfull, hleast⟩ := h.holds.overwritten hcell
    intro e' he'
    have hmem : livePos e' ∈ s.store.cells := mem_map_of_mem he'
    have hlive : 0 ≤ e'.pos := by
      by_contra hneg
      rw [livePos_eq_none.mpr (Int.not_le.mp hneg)] at hmem
      exact hfull hmem
    rw [livePos_eq_some.mpr ⟨rfl, hlive⟩] at hmem
    exact ⟨hlive, hleast _ hmem⟩
  best := bestIndex_isBest s.store

theorem new_ordered (hn : 0 < n) : Ordered n (⟨new n, []⟩ : Recording τ) := by
  have hcells : (new n : SlotCheckpointStore τ).cells = List.replicate n none :=
    map_replicate
  have hlive : (new n : SlotCheckpointStore τ).live = [] := by
    exact filterMap_replicate_of_none rfl
  refine ⟨length_replicate, congrArg List.length hlive.symm, fun p hp => ?_, ?_⟩
  · have hp' : p ∈ (new n : SlotCheckpointStore τ).live := hp
    rw [hlive] at hp'
    cases hp'
  · rw [hcells, newest_of_le (Nat.zero_le n)]
    exact holds_replicate hn

theorem Ordered.record {s : Recording τ} (h : Ordered n s)
    (hcall : Called s (.record pos)) (hpos : 0 ≤ pos) :
    Ordered n (applyOp s (.record pos)) := by
  obtain ⟨hmax, hnew⟩ := hcall
  have hne : s.store.entries ≠ [] := by
    intro hnil
    have := h.holds.bound
    rw [cells_length, hnil] at this
    exact Nat.not_lt_zero _ this
  have hmem : ∀ p, p ∈ newest n s.recorded ↔ p ∈ s.store.live := fun p =>
    (h.keepsNewest.newest.mem_iff).symm
  have hwrite := h.holds.write fun p hp => hnew p ((hmem p).mp hp)
  rw [cells_length, h.length, ← newest_snoc, ← record_cells hne hpos] at hwrite
  have hstore : (applyOp s (.record pos)).store = (s.store.record pos).1 := rfl
  have hholds : Holds (applyOp s (.record pos)).store.cells (applyOp s (.record pos)).store.next
      (newest n (applyOp s (.record pos)).recorded) := by
    have hnext : (s.store.record pos).1.next = (s.store.next + 1) % n := by
      rw [record_eq hne, ← h.length]
    rw [hstore, hnext]
    exact hwrite
  refine ⟨?_, ?_, ?_, hholds⟩
  · rw [hstore, record_eq hne]
    exact (length_modify _ _ _).trans h.length
  · have hlive := hholds.perm.length_eq
    have hold := h.keepsNewest.newest.length_eq
    rw [← live_eq_cells, newest_length] at hlive
    rw [newest_length] at hold
    have hrec : (applyOp s (.record pos)).recorded.length = s.recorded.length + 1 := by
      show (s.recorded ++ [pos]).length = _
      rw [length_append, length_singleton]
    rw [hlive, hstore, record_eq hne, h.size, h.length]
    dsimp only
    split <;> omega
  · intro p hp
    rw [live_eq_cells] at hp
    have hp' := (hholds.perm.mem_iff).mp hp
    have hin : p ∈ newest n s.recorded ++ [pos] := by
      have h2 : p ∈ newest n (s.recorded ++ [pos]) := hp'
      rw [newest_snoc] at h2
      exact mem_of_mem_drop h2
    rcases mem_append.mp hin with hin | hin
    · exact h.upper p ((hmem p).mp hin)
    · rw [mem_singleton.mp hin]
      exact hmax

/-! ## §5  `pruneAfter` and `shiftRange` -/

def ageKey (e : CheckpointEntry τ) : Option Int := if 0 ≤ e.pos then some (-e.pos) else none

/-- `minIdx` is the first maximum of the negated positions. -/
theorem minIdx_eq (entries : List (CheckpointEntry τ)) :
    minIdx entries = (scan ageKey (-maxInt32) entries).2.getD 0 := by
  have hloop : ∀ (l : List (CheckpointEntry τ × ℕ)) (best : Int × Option ℕ),
      l.foldl (fun (m : Int × ℕ) p => if 0 ≤ p.1.pos ∧ p.1.pos < m.1 then (p.1.pos, p.2) else m)
        (-best.1, best.2.getD 0) =
      (-(l.foldl (step ageKey) best).1, (l.foldl (step ageKey) best).2.getD 0) := by
    intro l
    induction l with
    | nil => exact fun _ => rfl
    | cons p l ih =>
        intro best
        rw [foldl_cons, foldl_cons, ← ih]
        congr 1
        unfold step ageKey
        by_cases hpos : 0 ≤ p.1.pos
        · rw [if_pos hpos]
          by_cases hlt : p.1.pos < -best.1
          · rw [if_pos ⟨hpos, hlt⟩]
            have hlt' : best.1 < -p.1.pos := by omega
            simp [hlt']
          · rw [if_neg (fun h => hlt h.2)]
            have hlt' : ¬ best.1 < -p.1.pos := by omega
            simp [hlt']
        · rw [if_neg (fun h => hpos h.1), if_neg hpos]
  exact congrArg Prod.snd (hloop entries.zipIdx (-maxInt32, none))

/-- In a full ring `minIdx` is the index of the oldest entry. -/
theorem minIdx_spec {entries : List (CheckpointEntry τ)} (hne : entries ≠ [])
    (hfull : ∀ e ∈ entries, 0 ≤ e.pos ∧ e.pos ≤ maxInt32) :
    ∃ e, entries[minIdx entries]? = some e ∧ ∀ e' ∈ entries, e.pos ≤ e'.pos := by
  have hkey : ∀ e ∈ entries, ageKey e = some (-e.pos) := fun e he => if_pos (hfull e he).1
  rw [minIdx_eq]
  cases hres : (scan ageKey (-maxInt32) entries).2 with
  | none =>
      -- all entries are at the greatest position, the first one too
      obtain ⟨e, rest, rfl⟩ := exists_cons_of_ne_nil hne
      refine ⟨e, rfl, fun e' he' => ?_⟩
      obtain ⟨j, hj⟩ := mem_iff_getElem?.mp he'
      have := scan_eq_none.mp hres j e' _ hj (hkey e' he')
      have := (hfull e mem_cons_self).2
      omega
  | some i =>
      have hmax := scan_isFirstMax ageKey (-maxInt32) entries
      obtain ⟨_, ⟨e, he, hkeye⟩, _⟩ := hmax.some i hres
      refine ⟨e, he, fun e' he' => ?_⟩
      obtain ⟨j, hj⟩ := mem_iff_getElem?.mp he'
      have hle := hmax.above j e' _ hj (hkey e' he')
      have heq : -e.pos = (scan ageKey (-maxInt32) entries).1 :=
        Option.some.inj ((hkey e (mem_of_getElem? he)).symm.trans hkeye)
      omega

theorem rescan_size (entries : List (CheckpointEntry τ)) (lastPos : Int) :
    (rescan entries lastPos).size = (rescan entries lastPos).live.length := by
  have hcount : (rescan entries lastPos).live.length =
      entries.countP fun e => decide (0 ≤ e.pos) := by
    unfold live
    rw [rescan_entries, length_filterMap_eq_countP]
    refine countP_congr fun e _ => ?_
    unfold livePos
    split <;> simp <;> omega
  rw [hcount]
  unfold rescan
  extract_lets size
  split
  · rename_i h
    exact h.symm
  · rfl

/-- **The loop finds the next entry**: the first free one, or the oldest. -/
theorem rescan_rescanned {entries : List (CheckpointEntry τ)} (lastPos : Int)
    (hne : entries ≠ []) (hmax : ∀ e ∈ entries, e.pos ≤ maxInt32) :
    Rescanned (rescan entries lastPos).cells (rescan entries lastPos).next := by
  have hpos := length_pos_of_ne_nil hne
  have hcells : (rescan entries lastPos).cells = entries.map livePos := by
    unfold cells
    rw [rescan_entries]
  rw [hcells]
  unfold rescan
  extract_lets size
  split
  · -- no live entry
    rename_i hsize
    have hdead : ∀ e ∈ entries, livePos e = none := by
      intro e he
      have := countP_eq_zero.mp hsize e he
      exact livePos_eq_none.mpr (by simpa using this)
    have hfirst : (entries.map livePos)[0]? = some none := by
      rw [getElem?_map, getElem?_eq_getElem hpos]
      exact congrArg some (hdead _ (getElem_mem hpos))
    refine ⟨by rw [length_map]; exact hpos, fun _ => ⟨hfirst, ?_⟩, fun hfull => ?_⟩
    · intro j hj
      exact absurd hj (Nat.not_lt_zero j)
    · exact absurd (mem_of_getElem? hfirst) hfull
  · cases hfind : entries.findIdx? fun e => decide (e.pos < 0) with
    | some i =>
        obtain ⟨hi, hdead, hbefore⟩ := findIdx?_eq_some_iff_getElem.mp hfind
        have hdead' : livePos entries[i] = none := livePos_eq_none.mpr (of_decide_eq_true hdead)
        have hat : (entries.map livePos)[i]? = some none := by
          rw [getElem?_map, getElem?_eq_getElem hi]
          exact congrArg some hdead'
        refine ⟨by rw [length_map]; exact hi, fun _ => ⟨hat, ?_⟩, fun hfull => ?_⟩
        · intro j hj hnone
          have hj' : j < entries.length := Nat.lt_trans hj hi
          rw [getElem?_map, getElem?_eq_getElem hj'] at hnone
          have := livePos_eq_none.mp (Option.some.inj hnone)
          exact hbefore j hj (decide_eq_true this)
        · exact absurd (mem_of_getElem? hat) hfull
    | none =>
        have hlive : ∀ e ∈ entries, 0 ≤ e.pos := by
          intro e he
          have := findIdx?_eq_none_iff.mp hfind e he
          simpa using this
        obtain ⟨e, he, hleast⟩ := minIdx_spec hne fun e he => ⟨hlive e he, hmax e he⟩
        have hfull : none ∉ entries.map livePos := by
          intro hnone
          obtain ⟨e', he', hd⟩ := mem_map.mp hnone
          have := livePos_eq_none.mp hd
          have := hlive e' he'
          omega
        refine ⟨?_, fun hnone => absurd hnone hfull, fun _ a b ha hb => ?_⟩
        · rw [length_map]
          exact (List.getElem?_eq_some_iff.mp he).1
        have ha' : (entries.map livePos)[minIdx entries]? = some (some a) := ha
        rw [getElem?_map, he] at ha'
        obtain ⟨rfl, _⟩ := livePos_eq_some.mp (Option.some.inj ha')
        obtain ⟨e', he', hb'⟩ := mem_map.mp hb
        obtain ⟨rfl, _⟩ := livePos_eq_some.mp hb'
        exact hleast e' he'

/-! ## §6  Runs that keep the order -/

/-- What the entries of a ring become when `f` says what their positions
become. -/
structure Moved (s s' : SlotCheckpointStore τ) (f : Int → Option Int) : Prop where
  cells : s'.cells = s.cells.map (·.bind f)
  length : s'.entries.length = s.entries.length
  size : s'.size = s'.live.length
  rescanned : s.entries ≠ [] → (∀ e ∈ s'.entries, e.pos ≤ maxInt32) → Rescanned s'.cells s'.next

theorem pruneAfter_moved (s : SlotCheckpointStore τ) (pos : Int) :
    Moved s (s.pruneAfter pos) (prunedPos pos) where
  cells := by
    unfold cells pruneAfter
    rw [rescan_entries, map_map, map_map]
    refine map_congr_left fun e _ => ?_
    show livePos (if pos < e.pos then { e with pos := -1 } else e) = (livePos e).bind (prunedPos pos)
    unfold livePos prunedPos
    by_cases hneg : e.pos < 0
    · split <;> simp_all
    · rw [if_neg hneg, Option.bind_some]
      split
      · rfl
      · rfl
  length := by
    unfold pruneAfter
    rw [rescan_entries, length_map]
  size := rescan_size _ _
  rescanned hne hmax := by
    unfold pruneAfter at hmax ⊢
    rw [rescan_entries] at hmax
    exact rescan_rescanned _ (fun h => hne (map_eq_nil_iff.mp h)) hmax

theorem shiftRange_moved (s : SlotCheckpointStore τ) (b e : Int) :
    Moved s (s.shiftRange b e) (shiftedPos b e) where
  cells := by
    unfold cells shiftRange
    extract_lets entries
    rw [rescan_entries, map_map, map_map]
    refine map_congr_left fun c _ => ?_
    show livePos { c with pos := shiftPos b e c.pos } = (livePos c).bind (shiftedPos b e)
    unfold livePos shiftedPos
    by_cases hneg : c.pos < 0
    · have hsame : shiftPos b e c.pos = c.pos := if_pos hneg
      rw [if_pos hneg, hsame, if_pos hneg]
      rfl
    · rw [if_neg hneg, Option.bind_some]
  length := by
    unfold shiftRange
    extract_lets
    rw [rescan_entries, length_map]
  size := rescan_size _ _
  rescanned hne hmax := by
    unfold shiftRange at hmax ⊢
    extract_lets at hmax ⊢
    rw [rescan_entries] at hmax
    exact rescan_rescanned _ (fun h => hne (map_eq_nil_iff.mp h)) hmax

/-- Freeing entries so leaves the ring in order: the free entries do not run
over the end of the slice, no live entry between two that stay is freed, and
a live entry is freed only while all that is recorded is still held, or
together with all that is recorded. -/
structure LeavesOrder (n : ℕ) (s : Recording τ) (f : Int → Option Int) : Prop where
  closed : ¬ OpenEnded (s.store.cells.map (·.bind f))
  contiguous : Contiguous f s.store.live
  covered : s.recorded.length ≤ n ∨ (∀ p ∈ s.store.live, f p ≠ none) ∨ ∀ p ∈ s.recorded, f p = none

/-- The operations that keep a ring in order. -/
def Orderly (n : ℕ) (s : Recording τ) : RingOp → Prop
  | .record pos => 0 ≤ pos
  | .pruneAfter pos => LeavesOrder n s (prunedPos pos)
  | .shiftRange b e => LeavesOrder n s (shiftedPos b e)

theorem prunedPos_mono {pos x y x' y' : Int} (hxy : x < y) (hx : prunedPos pos x = some x')
    (hy : prunedPos pos y = some y') : x' < y' := by
  unfold prunedPos at hx hy
  split at hx
  · cases hx
  split at hy
  · cases hy
  · cases hx
    cases hy
    exact hxy

theorem shiftedPos_mono {b e x y x' y' : Int} (hbe : b < e) (hx0 : 0 ≤ x) (hxy : x < y)
    (hx : shiftedPos b e x = some x') (hy : shiftedPos b e y = some y') : x' < y' := by
  unfold shiftedPos at hx hy
  split at hx
  · cases hx
  split at hy
  · cases hy
  rename_i hx1 hy1
  obtain rfl := Option.some.inj hx
  obtain rfl := Option.some.inj hy
  unfold shiftPos at hx1 hy1 ⊢
  split_ifs at hx1 hy1 ⊢ <;> omega

theorem prunedPos_le {pos x x' : Int} (hx : prunedPos pos x = some x') : x' ≤ x := by
  unfold prunedPos at hx
  split at hx
  · cases hx
  · cases hx
    exact Int.le_refl _

theorem shiftedPos_le {b e x x' : Int} (hbe : b < e) (hx : shiftedPos b e x = some x') :
    x' ≤ x := by
  unfold shiftedPos at hx
  split at hx
  · cases hx
  · obtain rfl := Option.some.inj hx
    unfold shiftPos at *
    split_ifs at * <;> omega

/-- **Freeing entries keeps the order.** -/
theorem Ordered.moved {s s' : Recording τ} (h : Ordered n s) {f : Int → Option Int}
    (hm : Moved s.store s'.store f) (hrec : s'.recorded = s.recorded.filterMap f)
    (hmono : ∀ x y x' y', 0 ≤ x → x < y → f x = some x' → f y = some y' → x' < y')
    (hle : ∀ x x', f x = some x' → x' ≤ x) (horder : LeavesOrder n s f) : Ordered n s' := by
  have hmem : ∀ p, p ∈ newest n s.recorded ↔ p ∈ s.store.live := fun p =>
    (h.keepsNewest.newest.mem_iff).symm
  have hne : s.store.entries ≠ [] := by
    intro hnil
    have := h.holds.bound
    rw [cells_length, hnil] at this
    exact Nat.not_lt_zero _ this
  have hlive : ∀ p ∈ s'.store.live, p ≤ maxInt32 := by
    intro p hp
    rw [live_eq_cells, hm.cells] at hp
    obtain ⟨c, hc, hcp⟩ := mem_filterMap.mp hp
    obtain ⟨c', hc', rfl⟩ := mem_map.mp hc
    obtain ⟨q, rfl, hq⟩ := Option.bind_eq_some_iff.mp hcp
    have hqlive : q ∈ s.store.live := by
      rw [live_eq_cells]
      exact mem_filterMap.mpr ⟨some q, hc', rfl⟩
    exact Int.le_trans (hle q p hq) (h.upper q hqlive)
  have hmax : ∀ e ∈ s'.store.entries, e.pos ≤ maxInt32 := by
    intro e he
    by_cases hpos : 0 ≤ e.pos
    · exact hlive _ (mem_live.mpr ⟨hpos, e, he, rfl⟩)
    · have : (0 : Int) ≤ maxInt32 := by decide
      omega
  refine ⟨hm.length.trans h.length, hm.size, hlive, ?_⟩
  have hscan := hm.rescanned hne hmax
  rw [hm.cells] at hscan ⊢
  have hcovered : s.recorded.length ≤ n ∨ (∀ p ∈ newest n s.recorded, f p ≠ none) ∨
      ∀ p ∈ s.recorded, f p = none :=
    horder.covered.imp_right (Or.imp_left fun hkeep p hp => hkeep p ((hmem p).mp hp))
  rw [hrec, newest_filterMap hcovered]
  refine h.holds.removed ?_ ?_ hscan horder.closed
  · intro x hx y _ hxy x' y' hx' hy'
    exact hmono x y x' y' (mem_live.mp ((hmem x).mp hx)).1 hxy hx' hy'
  · intro x hx y hy z hz
    exact horder.contiguous x ((hmem x).mp hx) y ((hmem y).mp hy) z ((hmem z).mp hz)

theorem Ordered.step {s : Recording τ} (h : Ordered n s) {op : RingOp}
    (hcall : Called s op) (horder : Orderly n s op) : Ordered n (applyOp s op) := by
  cases op with
  | record pos => exact h.record hcall horder
  | pruneAfter pos =>
      exact h.moved (pruneAfter_moved s.store pos) rfl
        (fun _ _ _ _ _ hxy hx hy => prunedPos_mono hxy hx hy) (fun _ _ => prunedPos_le) horder
  | shiftRange b e =>
      exact h.moved (shiftRange_moved s.store b e) rfl
        (fun _ _ _ _ hx0 hxy hx hy => shiftedPos_mono hcall hx0 hxy hx hy)
        (fun _ _ => shiftedPos_le hcall) horder

/-- **A ring keeps the newest checkpoints** in every run whose operations
leave it in order. -/
theorem ring_keepsNewest (n : ℕ) (hn : 0 < n) (s : Recording τ)
    (h : ((ring τ n).guard (Orderly n)).Reachable s) : KeepsNewest n s := by
  have hinv : Ordered n s := by
    refine h.invariant ?_ ?_
    · rintro s rfl
      exact new_ordered hn
    · rintro s op s' hs ⟨horder, hcall, rfl⟩
      exact hs.step hcall horder
  exact hinv.keepsNewest

theorem reachable_record {s : Recording τ}
    (h : ((ring τ n).guard (Orderly n)).Reachable s) (h0 : 0 ≤ pos)
    (hmax : pos ≤ maxInt32) (hnew : ∀ p ∈ s.store.live, p < pos) :
    ((ring τ n).guard (Orderly n)).Reachable (applyOp s (.record pos)) :=
  .step (a := .record pos) h ⟨h0, ⟨hmax, hnew⟩, rfl⟩

theorem reachable_three : ((ring ℕ 3).guard (Orderly 3)).Reachable
    ([.record 10, .record 20, .record 30].foldl applyOp ⟨new 3, []⟩) := by
  refine reachable_record (reachable_record (reachable_record (.init rfl) ?_ ?_ ?_) ?_ ?_ ?_)
    ?_ ?_ ?_
  all_goals decide

/-- A pruned entry is used again, then the oldest goes. -/
theorem ring_keepsNewest_reused :
    KeepsNewest 3 ([.record 10, .record 20, .record 30, .pruneAfter 20, .record 25,
      .record 40].foldl applyOp (⟨new 3, []⟩ : Recording ℕ)) := by
  refine ring_keepsNewest 3 (by decide) _ ?_
  have hprune : LeavesOrder 3 ([.record 10, .record 20, .record 30].foldl applyOp
      (⟨new 3, []⟩ : Recording ℕ)) (prunedPos 20) := by
    refine ⟨fun hopen => absurd hopen.1 (by decide), ?_, Or.inl (by decide)⟩
    show ∀ x ∈ [10, 20, 30], ∀ y ∈ [10, 20, 30], ∀ z ∈ [10, 20, 30],
      x < y → y < z → prunedPos 20 x ≠ none → prunedPos 20 z ≠ none → prunedPos 20 y ≠ none
    decide
  refine reachable_record (reachable_record
    (.step (a := .pruneAfter 20) reachable_three ⟨hprune, trivial, rfl⟩) ?_ ?_ ?_) ?_ ?_ ?_
  all_goals decide

/-- After a removal in the middle the ring fills the hole and goes on with
what comes after it: position 20 is overwritten while 10 is live. -/
theorem ring_not_keepsNewest :
    ¬ ∀ (n : ℕ) (s : Recording ℕ), 0 < n → (ring ℕ n).Reachable s → KeepsNewest n s := by
  intro h
  have hrun : (ring ℕ 3).Reachable ([.record 10, .record 20, .record 30, .shiftRange 15 25,
      .record 40].foldl applyOp (⟨new 3, []⟩ : Recording ℕ)) := by
    have hcall : (15 : Int) < 25 := by decide
    refine .step (a := .record 40) (.step (a := .shiftRange 15 25) reachable_three.of_guard
      ⟨hcall, rfl⟩) ⟨⟨?_, ?_⟩, rfl⟩
    all_goals decide
  have hover := ((h 3 _ (by decide) hrun).overwrites 50 2 (by decide)).2 ⟨20, none⟩ (by decide)
    (by decide) ⟨10, none⟩ (by decide)
  exact absurd hover.2 (by decide)

end Ollama.KvCache.SlotCheckpointStore
