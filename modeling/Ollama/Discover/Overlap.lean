import Mathlib.Data.List.Sort
import Mathlib.Data.String.Basic
import Mathlib.Order.Bounds.Basic

/-!
# Which libraries keep their devices

`filterOverlapByLibrary` and the loops over duplicates of `discover/runner.go`, with
`Compare` of `ml/device.go`. Maps are lists with distinct keys.
-/

namespace Ollama.Discover

open List Prod

/-! ## §1  One library -/

section Library

variable {Dir Dev : Type} [LinearOrder Dir] [DecidableEq Dev]

/-- `byLibDirs`: for each directory its supported devices, each with its index among
`devices`. -/
abbrev ByLibDirs (Dir Dev : Type) := List (Dir × List (Dev × ℕ))

namespace ByLibDirs

variable (m : ByLibDirs Dir Dev)

/-- `byLibDirs[libDir]` -/
def devices (libDir : Dir) : List (Dev × ℕ) := (m.lookup libDir).getD []

/-- `_, found := byLibDirs[libDir][dev]` -/
def found (libDir : Dir) (dev : Dev) : Bool := (m.devices libDir).any fun p => p.1 = dev

def libDirs : List Dir := (m.map fst).insertionSort (· ≥ ·)

/-- What the loop over the other directories looks for. -/
def missing (newest : Dir) : Bool :=
  m.libDirs.any fun libDir =>
    libDir ≠ newest ∧ ((m.devices newest).length ≠ (m.devices libDir).length ∨
      (m.devices newest).any fun p => !m.found libDir p.1)

/-- The loop over `newest`, with `anyMissing`. -/
def choose : Bool → Option Dir → List Dir → Option Dir
  | _, newest, [] => newest
  | anyMissing, _, newest :: dirs =>
      let anyMissing := anyMissing || m.missing newest
      if anyMissing then choose anyMissing (some newest) dirs else some newest

def newest : Option Dir := m.choose false none m.libDirs

def markOverlaps (newest : Dir) (needsDelete : List Bool) : List Bool :=
  m.libDirs.foldl (fun needsDelete libDir =>
    if libDir = newest then needsDelete
    else (m.devices libDir).foldl (fun needsDelete p =>
      if m.found newest p.1 then needsDelete.set p.2 true else needsDelete) needsDelete) needsDelete

def filterOverlap (needsDelete : List Bool) : List Bool :=
  match m.newest with
  | none => needsDelete
  | some newest => m.markOverlaps newest needsDelete

end ByLibDirs

/-! ## §2  All libraries -/

/-- `filterOverlapByLibrary` -/
def filterOverlapByLibrary {Lib : Type} (supported : List (Lib × ByLibDirs Dir Dev))
    (needsDelete : List Bool) : List Bool :=
  supported.foldl (fun needsDelete x => x.2.filterOverlap needsDelete) needsDelete

namespace ByLibDirs

variable {m : ByLibDirs Dir Dev}

variable (m) in
def Entry (dir : Dir) (dev : Dev) (i : ℕ) : Prop := ∃ es, (dir, es) ∈ m ∧ (dev, i) ∈ es

variable (m) in
structure Keyed : Prop where
  dirs : (m.map fst).Nodup
  devs : ∀ p ∈ m, (p.2.map fst).Nodup

variable {dir : Dir}

omit [DecidableEq Dev] in
theorem mem_libDirs : dir ∈ m.libDirs ↔ ∃ es, (dir, es) ∈ m := by
  rw [libDirs, mem_insertionSort, mem_map]
  constructor
  · rintro ⟨⟨d, es⟩, hmem, rfl⟩
    exact ⟨es, hmem⟩
  · rintro ⟨es, hmem⟩
    exact ⟨(dir, es), hmem, rfl⟩

omit [DecidableEq Dev] in
theorem devices_of_mem (hm : m.Keyed) {es : List (Dev × ℕ)} (h : (dir, es) ∈ m) :
    m.devices dir = es := by
  have hdirs := hm.dirs
  clear hm
  unfold devices
  induction m with
  | nil => cases h
  | cons p m ih =>
    obtain ⟨d, es'⟩ := p
    rw [map_cons, nodup_cons] at hdirs
    rcases mem_cons.mp h with heq | hmem
    · obtain ⟨rfl, rfl⟩ := mk.inj heq
      rw [lookup_cons, beq_self_eq_true]
      rfl
    · have hne : dir ≠ d := fun heq =>
        hdirs.1 (mem_map.mpr ⟨(dir, es), hmem, heq⟩)
      rw [lookup_cons, beq_eq_false_iff_ne.mpr hne]
      exact ih hmem hdirs.2

variable {dev : Dev}

omit [DecidableEq Dev] in
theorem entry_iff (hm : m.Keyed) {i : ℕ} :
    m.Entry dir dev i ↔ dir ∈ m.libDirs ∧ (dev, i) ∈ m.devices dir := by
  constructor
  · rintro ⟨es, hdir, hdev⟩
    exact ⟨mem_libDirs.mpr ⟨es, hdir⟩, by rwa [devices_of_mem hm hdir]⟩
  · rintro ⟨hdir, hdev⟩
    obtain ⟨es, hmem⟩ := mem_libDirs.mp hdir
    exact ⟨es, hmem, by rwa [devices_of_mem hm hmem] at hdev⟩

theorem found_iff : m.found dir dev = true ↔ ∃ i, (dev, i) ∈ m.devices dir := by
  rw [found, any_eq_true]
  constructor
  · rintro ⟨⟨d, i⟩, hmem, hd⟩
    obtain rfl := of_decide_eq_true hd
    exact ⟨i, hmem⟩
  · rintro ⟨i, hmem⟩
    exact ⟨(dev, i), hmem, decide_eq_true rfl⟩

/-! ## §3  Which directory is kept -/

variable (m) in
def Same : Prop := ∀ d ∈ m.libDirs, ∀ d' ∈ m.libDirs, ∀ dev, m.found d dev = m.found d' dev

omit [DecidableEq Dev] in
theorem devices_nodup (hm : m.Keyed) (h : dir ∈ m.libDirs) : ((m.devices dir).map fst).Nodup := by
  obtain ⟨es, hmem⟩ := mem_libDirs.mp h
  rw [devices_of_mem hm hmem]
  exact hm.devs _ hmem

theorem mem_map_devices : dev ∈ (m.devices dir).map fst ↔ m.found dir dev = true := by
  rw [found_iff, mem_map]
  constructor
  · rintro ⟨⟨d, i⟩, hmem, rfl⟩
    exact ⟨i, hmem⟩
  · rintro ⟨i, hmem⟩
    exact ⟨(dev, i), hmem, rfl⟩

/-- Nothing is missing exactly when the other directories support the same devices. -/
theorem missing_eq_false_iff (hm : m.Keyed) {newest : Dir} (h : newest ∈ m.libDirs) :
    m.missing newest = false ↔ ∀ d ∈ m.libDirs, ∀ dev, m.found d dev = m.found newest dev := by
  rw [missing, any_eq_false]
  constructor
  · intro hall d hd dev
    by_cases hne : d = newest
    · rw [hne]
    have hd' := hall d hd
    rw [decide_eq_true_iff] at hd'
    push Not at hd'
    obtain ⟨hlen, hfound⟩ := hd' hne
    have hsub : (m.devices newest).map fst ⊆ (m.devices d).map fst := by
      intro x hx
      obtain ⟨p, hp, rfl⟩ := mem_map.mp hx
      have := (any_eq_false.mp (Bool.eq_false_iff.mpr hfound)) p hp
      rw [Bool.not_eq_true, Bool.not_eq_false'] at this
      exact mem_map_devices.mpr this
    have hperm := (subperm_of_subset (devices_nodup hm h) hsub).perm_of_length_le
      (by rw [length_map, length_map, hlen])
    rw [Bool.eq_iff_iff, ← mem_map_devices, ← mem_map_devices]
    exact hperm.mem_iff.symm
  · intro hall d hd
    rw [decide_eq_true_iff]
    rintro ⟨-, hlen | hany⟩
    · have hperm : ((m.devices newest).map fst).Perm ((m.devices d).map fst) := by
        refine (perm_ext_iff_of_nodup (devices_nodup hm h) (devices_nodup hm hd)).mpr ?_
        intro dev
        rw [mem_map_devices, mem_map_devices, hall d hd dev]
      have := hperm.length_eq
      rw [length_map, length_map] at this
      exact hlen this
    · obtain ⟨p, hp, hnot⟩ := any_eq_true.mp hany
      rw [hall d hd p.1, found_iff.mpr ⟨p.2, hp⟩] at hnot
      cases hnot

theorem choose_true (dirs : List Dir) (newest : Option Dir) :
    m.choose true newest dirs = dirs.getLast?.or newest := by
  induction dirs generalizing newest with
  | nil => rfl
  | cons d dirs ih =>
    rw [choose]
    simp only [Bool.true_or, if_true]
    rw [ih, getLast?_cons]
    cases dirs.getLast? <;> rfl

omit [DecidableEq Dev] in
theorem libDirs_sorted : m.libDirs.Pairwise (· ≥ ·) := pairwise_insertionSort _ _

/-- **The directory that is kept**: the newest one when all support the same devices, else
the oldest one. -/
theorem newest_spec (hm : m.Keyed) {c : Dir} (h : m.newest = some c) :
    c ∈ m.libDirs ∧ ((m.Same ∧ ∀ d ∈ m.libDirs, d ≤ c) ∨ (¬m.Same ∧ ∀ d ∈ m.libDirs, c ≤ d)) := by
  have hsorted : m.libDirs.Pairwise (· ≥ ·) := libDirs_sorted
  unfold newest at h
  cases hdirs : m.libDirs with
  | nil =>
    rw [hdirs] at h
    cases h
  | cons d dirs =>
    have hd : d ∈ m.libDirs := by rw [hdirs]; exact mem_cons_self
    have hmissing := missing_eq_false_iff hm hd
    rw [hdirs, choose, Bool.false_or] at h
    rw [hdirs] at hsorted
    split at h
    · rename_i htrue
      rw [htrue, choose_true] at h
      have hnot : ¬m.Same := fun hsame => by
        rw [hmissing.mpr fun d' hd' dev => hsame d' hd' d hd dev] at htrue
        cases htrue
      have hlast : (d :: dirs).getLast? = some c := by
        rw [getLast?_cons]
        cases hl : dirs.getLast? with
        | none =>
          rw [hl] at h
          exact h
        | some x =>
          rw [hl] at h
          exact h
      obtain ⟨ys, hys⟩ := getLast?_eq_some_iff.mp hlast
      rw [hys]
      refine ⟨by simp, Or.inr ⟨hnot, fun x hx => ?_⟩⟩
      rw [hys, pairwise_append] at hsorted
      rcases mem_append.mp hx with hmem | hmem
      · exact hsorted.2.2 x hmem c mem_cons_self
      · rw [mem_singleton.mp hmem]
    · rename_i hfalse
      obtain rfl := Option.some.inj h
      refine ⟨mem_cons_self, Or.inl ⟨?_, fun x hx => ?_⟩⟩
      · intro x hx y hy dev
        have hall := hmissing.mp (Bool.eq_false_iff.mpr hfalse)
        rw [hall x hx dev, hall y hy dev]
      · rcases mem_cons.mp hx with rfl | hmem
        · exact le_rfl
        · exact (pairwise_cons.mp hsorted).1 x hmem

theorem exists_newest (h : dir ∈ m.libDirs) : ∃ c, m.newest = some c := by
  unfold newest
  cases hdirs : m.libDirs with
  | nil =>
    rw [hdirs] at h
    cases h
  | cons d dirs =>
    rw [choose]
    split
    · rename_i htrue
      rw [htrue, choose_true]
      cases dirs.getLast? with
      | none => exact ⟨d, rfl⟩
      | some x => exact ⟨x, rfl⟩
    · exact ⟨d, rfl⟩

/-! ## §4  Which entries are marked -/

end ByLibDirs

def mark (needsDelete : List Bool) (is : List ℕ) : List Bool :=
  is.foldl (fun needsDelete i => needsDelete.set i true) needsDelete

theorem mark_append (needsDelete : List Bool) (is js : List ℕ) :
    mark needsDelete (is ++ js) = mark (mark needsDelete is) js := foldl_append

/-- Only the indices in the list are marked. -/
theorem getElem?_mark (is : List ℕ) (i : ℕ) : ∀ needsDelete : List Bool, (mark needsDelete is)[i]? =
      if i ∈ is then needsDelete[i]?.map (fun _ => true) else needsDelete[i]? := by
  induction is with
  | nil => exact fun needsDelete => rfl
  | cons j is ih =>
    intro needsDelete
    rw [mark, foldl_cons]
    have hset := ih (needsDelete.set j true)
    rw [mark] at hset
    rw [hset, getElem?_set]
    by_cases hji : j = i
    · subst hji
      cases hj : needsDelete[j]? with
      | none => rw [if_neg (not_lt.mpr (List.getElem?_eq_none_iff.mp hj))]; simp
      | some b => rw [if_pos (List.getElem?_eq_some_iff.mp hj).1]; simp
    rw [if_neg hji]
    by_cases hi : i ∈ is
    · rw [if_pos hi, if_pos (mem_cons_of_mem j hi)]
    · rw [if_neg hi, if_neg]
      rw [mem_cons, not_or]
      exact ⟨Ne.symm hji, hi⟩

namespace ByLibDirs

variable {m : ByLibDirs Dir Dev}

variable (m) in
/-- The indices that are marked: of the devices that the directory kept has too. -/
def overlaps : List ℕ :=
  match m.newest with
  | none => []
  | some newest =>
      m.libDirs.flatMap fun libDir =>
        if libDir = newest then []
        else ((m.devices libDir).filter fun p => m.found newest p.1).map snd

theorem filterOverlap_eq (needsDelete : List Bool) :
    m.filterOverlap needsDelete = mark needsDelete m.overlaps := by
  unfold filterOverlap overlaps
  cases m.newest with
  | none => rfl
  | some newest =>
    have hdevices : ∀ (es : List (Dev × ℕ)) (needsDelete : List Bool),
        es.foldl (fun needsDelete p =>
          if m.found newest p.1 then needsDelete.set p.2 true else needsDelete) needsDelete =
        mark needsDelete ((es.filter fun p => m.found newest p.1).map snd) := by
      intro es
      induction es with
      | nil => exact fun _ => rfl
      | cons p es ih =>
        intro needsDelete
        rw [foldl_cons, ih]
        by_cases hfound : m.found newest p.1 = true
        · simp only [filter_cons, hfound, if_true]
          rfl
        · simp only [filter_cons, hfound]
          rfl
    show m.libDirs.foldl _ needsDelete = mark needsDelete (m.libDirs.flatMap _)
    induction m.libDirs generalizing needsDelete with
    | nil => rfl
    | cons d dirs ih =>
      rw [foldl_cons, flatMap_cons, mark_append, ih]
      split
      · rfl
      · rw [hdevices]

theorem mem_overlaps (hm : m.Keyed) {c : Dir} (hc : m.newest = some c) {i : ℕ} :
    i ∈ m.overlaps ↔ ∃ dir dev, m.Entry dir dev i ∧ dir ≠ c ∧ m.found c dev = true := by
  unfold overlaps
  rw [hc]
  simp only [mem_flatMap]
  constructor
  · rintro ⟨dir, hdir, hi⟩
    split at hi
    · cases hi
    · rename_i hne
      obtain ⟨⟨dev, j⟩, hmem, rfl⟩ := mem_map.mp hi
      obtain ⟨hdev, hfound⟩ := mem_filter.mp hmem
      exact ⟨dir, dev, (entry_iff hm).mpr ⟨hdir, hdev⟩, hne, hfound⟩
  · rintro ⟨dir, dev, hentry, hne, hfound⟩
    obtain ⟨hdir, hdev⟩ := (entry_iff hm).mp hentry
    refine ⟨dir, hdir, ?_⟩
    rw [if_neg hne]
    exact mem_map.mpr ⟨(dev, i), mem_filter.mpr ⟨hdev, hfound⟩, rfl⟩

end ByLibDirs

section Supported

variable {Lib : Type}

/-- The entries of all libraries. -/
def entries (supported : List (Lib × ByLibDirs Dir Dev)) :
    List ((Lib × ByLibDirs Dir Dev) × (Dir × List (Dev × ℕ)) × (Dev × ℕ)) :=
  supported.flatMap fun x => x.2.flatMap fun y => y.2.map fun e => (x, y, e)

variable {supported : List (Lib × ByLibDirs Dir Dev)}

omit [LinearOrder Dir] [DecidableEq Dev] in
theorem mem_entries {x : Lib × ByLibDirs Dir Dev} {y : Dir × List (Dev × ℕ)} {e : Dev × ℕ} :
    (x, y, e) ∈ entries supported ↔ x ∈ supported ∧ y ∈ x.2 ∧ e ∈ y.2 := by
  unfold entries
  simp only [mem_flatMap, mem_map, mk.injEq]
  constructor
  · rintro ⟨x', hx, y', hy, e', he, rfl, rfl, rfl⟩
    exact ⟨hx, hy, he⟩
  · rintro ⟨hx, hy, he⟩
    exact ⟨x, hx, y, hy, e, he, rfl, rfl, rfl⟩

/-- What `GPUDevices` fills in: maps, and one index for each of their entries. -/
structure Supported (supported : List (Lib × ByLibDirs Dir Dev)) : Prop where
  keyed : ∀ x ∈ supported, x.2.Keyed
  indices : ((entries supported).map fun e => e.2.2.2).Nodup

theorem filterOverlapByLibrary_eq (supported : List (Lib × ByLibDirs Dir Dev)) :
    ∀ needsDelete : List Bool, filterOverlapByLibrary supported needsDelete =
      mark needsDelete (supported.flatMap fun x => x.2.overlaps) := by
  unfold filterOverlapByLibrary
  induction supported with
  | nil => exact fun _ => rfl
  | cons x supported ih =>
    intro needsDelete
    rw [foldl_cons, flatMap_cons, mark_append, ih, ByLibDirs.filterOverlap_eq]

def Spares (supported : List (Lib × ByLibDirs Dir Dev)) (i : ℕ) : Prop :=
  ∀ needsDelete : List Bool, (filterOverlapByLibrary supported needsDelete)[i]? = needsDelete[i]?

def Deletes (supported : List (Lib × ByLibDirs Dir Dev)) (i : ℕ) : Prop :=
  ∀ needsDelete : List Bool, (filterOverlapByLibrary supported needsDelete)[i]? =
    needsDelete[i]?.map fun _ => true

theorem not_deletes_of_spares {i : ℕ} (hspares : Spares supported i) : ¬Deletes supported i := by
  intro hdeletes
  have h := (hspares (List.replicate (i + 1) false)).symm.trans (hdeletes _)
  rw [getElem?_replicate, if_pos (Nat.lt_succ_self i)] at h
  cases h

/-- An index is marked when a library marks it. -/
theorem mem_flatMap_overlaps
    (h : Supported supported) {x : Lib × ByLibDirs Dir Dev} (hx : x ∈ supported) {c : Dir}
    (hc : x.2.newest = some c) {dir : Dir} {dev : Dev} {i : ℕ} (hentry : x.2.Entry dir dev i) :
    i ∈ supported.flatMap (fun x => x.2.overlaps) ↔ dir ≠ c ∧ x.2.found c dev = true := by
  have hover := hentry
  obtain ⟨es, hdir, hdev⟩ := hentry
  have hmem : (x, (dir, es), (dev, i)) ∈ entries supported := mem_entries.mpr ⟨hx, hdir, hdev⟩
  rw [mem_flatMap]
  constructor
  · rintro ⟨x', hx', hi⟩
    cases hc' : x'.2.newest with
    | none =>
      rw [ByLibDirs.overlaps, hc'] at hi
      cases hi
    | some c' =>
      -- the index belongs to one entry only
      obtain ⟨dir', dev', ⟨es', hdir', hdev'⟩, hne, hfound⟩ :=
        (ByLibDirs.mem_overlaps (h.keyed x' hx') hc').mp hi
      have hmem' := (@mem_entries Dir Dev Lib supported x' (dir', es') (dev', i)).mpr
        ⟨hx', hdir', hdev'⟩
      have heq := inj_on_of_nodup_map h.indices hmem' hmem rfl
      obtain ⟨rfl, hrest⟩ := mk.inj heq
      obtain ⟨hpair, hdevi⟩ := mk.inj hrest
      obtain ⟨rfl, -⟩ := mk.inj hpair
      obtain ⟨rfl, -⟩ := mk.inj hdevi
      rw [hc] at hc'
      obtain rfl := Option.some.inj hc'
      exact ⟨hne, hfound⟩
  · rintro ⟨hne, hfound⟩
    exact ⟨x, hx, (ByLibDirs.mem_overlaps (h.keyed x hx) hc).mpr ⟨dir, dev, hover, hne, hfound⟩⟩

variable {supported : List (Lib × ByLibDirs Dir Dev)} (h : Supported supported)
  {x : Lib × ByLibDirs Dir Dev} (hx : x ∈ supported) {c : Dir} (hc : x.2.newest = some c)
  {dir : Dir} {dev : Dev} {i : ℕ} (hentry : x.2.Entry dir dev i)
include h hx hc hentry

theorem spares_of_not (hnot : ¬(dir ≠ c ∧ x.2.found c dev = true)) : Spares supported i := by
  intro needsDelete
  rw [filterOverlapByLibrary_eq, getElem?_mark,
    if_neg fun hi => hnot ((mem_flatMap_overlaps h hx hc hentry).mp hi)]

theorem deletes_of (hdir : dir ≠ c) (hfound : x.2.found c dev = true) : Deletes supported i := by
  intro needsDelete
  rw [filterOverlapByLibrary_eq, getElem?_mark,
    if_pos ((mem_flatMap_overlaps h hx hc hentry).mpr ⟨hdir, hfound⟩)]

end Supported

/-! ## §5  The newest complete directory -/

namespace ByLibDirs

variable {m : ByLibDirs Dir Dev}

variable (m) in
def Complete (d : Dir) : Prop :=
  d ∈ m.libDirs ∧ ∀ dir dev i, m.Entry dir dev i → m.found d dev = true

variable (m) in
/-- The newest directory that supports all the devices. -/
def NewestComplete (d : Dir) : Prop := IsGreatest {d | m.Complete d} d

variable (m) in
/-- Where the loop ends at the newest complete directory, or has nothing to mark. -/
def Reached (newest : Dir) : Prop :=
  m.Same ∨ (∀ d ∈ m.libDirs, newest ≤ d) ∨ ∀ dir dev i, m.Entry dir dev i → dir = newest

theorem Same.complete (hm : m.Keyed) (hsame : m.Same) {d : Dir} (hd : d ∈ m.libDirs) :
    m.Complete d := by
  refine ⟨hd, fun dir dev i hentry => ?_⟩
  obtain ⟨hdir, hdev⟩ := (entry_iff hm).mp hentry
  rw [hsame d hd dir hdir]
  exact found_iff.mpr ⟨i, hdev⟩

/-- The directory kept is the newest complete one, or that one has all the entries. -/
theorem Reached.eq_or (hm : m.Keyed) {N c : Dir} (hN : m.NewestComplete N)
    (hreached : m.Reached N) (hc : m.newest = some c) :
    c = N ∨ ∀ dir dev i, m.Entry dir dev i → dir = N := by
  obtain ⟨hmem, hspec⟩ := newest_spec hm hc
  have hsame_eq : m.Same → (∀ d ∈ m.libDirs, d ≤ c) → c = N := fun hsame hgreatest =>
    le_antisymm (hN.2 (hsame.complete hm hmem)) (hgreatest N hN.1.1)
  rcases hspec with ⟨hsame, hgreatest⟩ | ⟨hnot, hleast⟩
  · exact Or.inl (hsame_eq hsame hgreatest)
  · rcases hreached with hsame | hN' | hall
    · exact absurd hsame hnot
    · exact Or.inl (le_antisymm (hleast N hN.1.1) (hN' c hmem))
    · exact Or.inr hall

end ByLibDirs

section Filtered

variable {Lib : Type}

/-- **What the filter is for**: each device keeps an entry, and of each library only the
newest directory with all the devices keeps its own. -/
structure Filtered (supported : List (Lib × ByLibDirs Dir Dev)) : Prop where
  kept : ∀ x ∈ supported, ∀ dir dev i, x.2.Entry dir dev i →
    ∃ dir' i', x.2.Entry dir' dev i' ∧ Spares supported i'
  newest : ∀ x ∈ supported, ∀ N, x.2.NewestComplete N → ∀ dir dev i, x.2.Entry dir dev i →
    (dir = N → Spares supported i) ∧ (dir ≠ N → Deletes supported i)

variable {supported : List (Lib × ByLibDirs Dir Dev)}

variable {x : Lib × ByLibDirs Dir Dev}

theorem Supported.kept (h : Supported supported)
    (hx : x ∈ supported) {dir : Dir} {dev : Dev} {i : ℕ} (hentry : x.2.Entry dir dev i) :
    ∃ dir' i', x.2.Entry dir' dev i' ∧ Spares supported i' := by
  have hm := h.keyed x hx
  obtain ⟨c, hc⟩ := ByLibDirs.exists_newest ((ByLibDirs.entry_iff hm).mp hentry).1
  by_cases hfound : x.2.found c dev = true
  · obtain ⟨i', hmem⟩ := ByLibDirs.found_iff.mp hfound
    have hentry' : x.2.Entry c dev i' :=
      (ByLibDirs.entry_iff hm).mpr ⟨(ByLibDirs.newest_spec hm hc).1, hmem⟩
    exact ⟨c, i', hentry', spares_of_not h hx hc hentry' fun hand => hand.1 rfl⟩
  · exact ⟨dir, i, hentry, spares_of_not h hx hc hentry fun hand => hfound hand.2⟩

/-- The newest complete directory is the only one that keeps its entries, when the loop
reaches it. -/
theorem Supported.newest_of_reached (h : Supported supported)
    (hx : x ∈ supported) {N : Dir} (hN : x.2.NewestComplete N) (hreached : x.2.Reached N)
    {dir : Dir} {dev : Dev} {i : ℕ} (hentry : x.2.Entry dir dev i) :
    (dir = N → Spares supported i) ∧ (dir ≠ N → Deletes supported i) := by
  have hm := h.keyed x hx
  obtain ⟨c, hc⟩ := ByLibDirs.exists_newest hN.1.1
  rcases hreached.eq_or hm hN hc with rfl | hall
  · constructor
    · rintro rfl
      exact spares_of_not h hx hc hentry fun hand => hand.1 rfl
    · intro hne
      exact deletes_of h hx hc hentry hne (hN.1.2 _ _ _ hentry)
  refine ⟨fun hdir => ?_, fun hne => absurd (hall dir dev i hentry) hne⟩
  refine spares_of_not h hx hc hentry fun ⟨hne, hfound⟩ => hne ?_
  -- the directory kept has an entry, so it is the newest complete one too
  obtain ⟨i', hmem⟩ := ByLibDirs.found_iff.mp hfound
  have hcmem := (ByLibDirs.newest_spec hm hc).1
  have hcN := hall c dev i' ((ByLibDirs.entry_iff hm).mpr ⟨hcmem, hmem⟩)
  rw [hdir, hcN]

/-- Only where the loop reaches the newest complete directory is it the one kept. -/
theorem Supported.reached_of_newest (h : Supported supported)
    (hx : x ∈ supported) {N : Dir} (hN : x.2.NewestComplete N)
    (hnewest : ∀ dir dev i, x.2.Entry dir dev i →
      (dir = N → Spares supported i) ∧ (dir ≠ N → Deletes supported i)) : x.2.Reached N := by
  have hm := h.keyed x hx
  obtain ⟨c, hc⟩ := ByLibDirs.exists_newest hN.1.1
  obtain ⟨hcmem, hspec⟩ := ByLibDirs.newest_spec hm hc
  rcases hspec with ⟨hsame, -⟩ | ⟨-, hleast⟩
  · exact Or.inl hsame
  rcases eq_or_ne c N with rfl | hcN
  · exact Or.inr (Or.inl hleast)
  refine Or.inr (Or.inr fun dir dev i hentry => ?_)
  by_contra hne
  -- the device is in the newest complete directory too, and there it is spared
  obtain ⟨j, hj⟩ := ByLibDirs.found_iff.mp (hN.1.2 dir dev i hentry)
  have hentryN : x.2.Entry N dev j := (ByLibDirs.entry_iff hm).mpr ⟨hN.1.1, hj⟩
  have hspares := (hnewest N dev j hentryN).1 rfl
  have hdeletes := (hnewest dir dev i hentry).2 hne
  by_cases hfound : x.2.found c dev = true
  · exact not_deletes_of_spares hspares (deletes_of h hx hc hentryN (Ne.symm hcN) hfound)
  · exact not_deletes_of_spares (spares_of_not h hx hc hentry fun hand => hfound hand.2) hdeletes

end Filtered

end Library

/-! ## §6  Duplicates -/

structure DeviceID where
  id : String
  library : String
deriving DecidableEq

structure DeviceInfo extends DeviceID where
  pciID : String
deriving DecidableEq

inductive DeviceComparison where
  | uniqueDevice
  | sameBackendDevice
  | duplicateDevice
deriving DecidableEq

namespace DeviceInfo

/-- `Compare` -/
def compare (a b : DeviceInfo) : DeviceComparison :=
  if a.pciID ≠ b.pciID then .uniqueDevice
  else if a.pciID = "" ∧ a.toDeviceID ≠ b.toDeviceID then .uniqueDevice
  else if a.library = b.library then .sameBackendDevice
  else .duplicateDevice

/-- The inner loop: what stays at `i`, and what stays after it. -/
def absorb (a : DeviceInfo) : List DeviceInfo → DeviceInfo × List DeviceInfo
  | [] => (a, [])
  | b :: bs =>
      match a.compare b with
      | .uniqueDevice =>
          let (a', bs') := absorb a bs
          (a', b :: bs')
      | .sameBackendDevice => absorb a bs
      | .duplicateDevice =>
          if a.library = "CUDA" ∨ a.library = "ROCm" then absorb a bs else absorb b bs

theorem length_absorb_le (a : DeviceInfo) (bs : List DeviceInfo) :
    (absorb a bs).2.length ≤ bs.length := by
  induction bs generalizing a with
  | nil => exact le_rfl
  | cons b bs ih =>
    rw [absorb]
    cases a.compare b with
    | uniqueDevice => exact Nat.succ_le_succ (ih a)
    | sameBackendDevice => exact Nat.le_succ_of_le (ih a)
    | duplicateDevice =>
      show (if _ then absorb a bs else absorb b bs).2.length ≤ _
      split
      · exact Nat.le_succ_of_le (ih a)
      · exact Nat.le_succ_of_le (ih b)

/-- The loops that drop exact duplicates. -/
def dropDuplicates : List DeviceInfo → List DeviceInfo
  | [] => []
  | a :: bs => (absorb a bs).1 :: dropDuplicates (absorb a bs).2
termination_by bs => bs.length
decreasing_by exact Nat.lt_succ_of_le (length_absorb_le a bs)

/-- Two entries for one device. -/
def SameDevice (a b : DeviceInfo) : Prop :=
  a.pciID = b.pciID ∧ (a.pciID = "" → a.toDeviceID = b.toDeviceID)

theorem SameDevice.refl (a : DeviceInfo) : a.SameDevice a := ⟨rfl, fun _ => rfl⟩

theorem SameDevice.symm {a b : DeviceInfo} (h : a.SameDevice b) : b.SameDevice a :=
  ⟨h.1.symm, fun hb => (h.2 (h.1.trans hb)).symm⟩

theorem SameDevice.trans {a b c : DeviceInfo} (h : a.SameDevice b) (h' : b.SameDevice c) :
    a.SameDevice c :=
  ⟨h.1.trans h'.1, fun ha => (h.2 ha).trans (h'.2 (h.1 ▸ ha))⟩

theorem compare_ne_uniqueDevice_iff {a b : DeviceInfo} :
    a.compare b ≠ .uniqueDevice ↔ a.SameDevice b := by
  unfold compare SameDevice
  split
  · rename_i hne
    exact ⟨fun h => absurd rfl h, fun h => absurd h.1 hne⟩
  rename_i heq
  rw [not_not] at heq
  split
  · rename_i hempty
    exact ⟨fun h => absurd rfl h, fun h => absurd (h.2 hempty.1) hempty.2⟩
  rename_i hids
  have hsame : a.pciID = "" → a.toDeviceID = b.toDeviceID := fun hempty => by
    by_contra hne
    exact hids ⟨hempty, hne⟩
  refine ⟨fun _ => ⟨heq, hsame⟩, fun _ => ?_⟩
  split <;> exact fun h => nomatch h

/-- What the inner loop leaves stands for all that it found. -/
theorem absorb_spec (a : DeviceInfo) (bs : List DeviceInfo) : a.SameDevice (absorb a bs).1 ∧
      ∀ b ∈ bs, b.SameDevice (absorb a bs).1 ∨ b ∈ (absorb a bs).2 := by
  induction bs generalizing a with
  | nil => exact ⟨SameDevice.refl a, fun b hb => nomatch hb⟩
  | cons b bs ih =>
    have hsame := @compare_ne_uniqueDevice_iff a b
    rw [absorb]
    cases hcompare : a.compare b with
    | uniqueDevice =>
      obtain ⟨ha, hbs⟩ := ih a
      refine ⟨ha, fun x hx => ?_⟩
      rcases mem_cons.mp hx with rfl | hmem
      · exact Or.inr mem_cons_self
      · exact (hbs x hmem).imp id (mem_cons_of_mem b)
    | sameBackendDevice =>
      rw [hcompare] at hsame
      have hab := hsame.mp (fun h => nomatch h)
      obtain ⟨ha, hbs⟩ := ih a
      refine ⟨ha, fun x hx => ?_⟩
      rcases mem_cons.mp hx with rfl | hmem
      · exact Or.inl (hab.symm.trans ha)
      · exact hbs x hmem
    | duplicateDevice =>
      rw [hcompare] at hsame
      have hab := hsame.mp (fun h => nomatch h)
      have hkeep : ∀ c, a.SameDevice c → b.SameDevice c → a.SameDevice (absorb c bs).1 ∧
            ∀ x ∈ b :: bs, x.SameDevice (absorb c bs).1 ∨ x ∈ (absorb c bs).2 := by
        intro c hac hbc
        obtain ⟨hc, hbs⟩ := ih c
        refine ⟨hac.trans hc, fun x hx => ?_⟩
        rcases mem_cons.mp hx with rfl | hmem
        · exact Or.inl (hbc.trans hc)
        · exact hbs x hmem
      dsimp only
      split
      · exact hkeep a (SameDevice.refl a) hab.symm
      · exact hkeep b hab (SameDevice.refl b)

/-- **Duplicates only**: every device keeps an entry. -/
theorem exists_mem_dropDuplicates (devices : List DeviceInfo) :
    ∀ a ∈ devices, ∃ b ∈ dropDuplicates devices, a.SameDevice b := by
  induction devices using dropDuplicates.induct with
  | case1 => exact fun a ha => nomatch ha
  | case2 a bs ih =>
    obtain ⟨ha, hbs⟩ := absorb_spec a bs
    rw [dropDuplicates]
    intro x hx
    rcases mem_cons.mp hx with rfl | hmem
    · exact ⟨_, mem_cons_self, ha⟩
    · rcases hbs x hmem with hsame | hleft
      · exact ⟨_, mem_cons_self, hsame⟩
      · obtain ⟨b, hb, hsame⟩ := ih x hleft
        exact ⟨b, mem_cons_of_mem _ hb, hsame⟩

end DeviceInfo

/-! ## §7  The filter -/

section Main

variable {Lib Dir Dev : Type} [LinearOrder Dir] [DecidableEq Dev]

/-- **Which libraries keep the newest complete directory**: those where the loop reaches
it. No device is lost in any case, by the filter or by the loops over duplicates. -/
theorem filterOverlapByLibrary_filtered_iff (supported : List (Lib × ByLibDirs Dir Dev))
    (h : Supported supported) :
    (Filtered supported ∧ ∀ devices : List DeviceInfo, ∀ a ∈ devices,
        ∃ b ∈ DeviceInfo.dropDuplicates devices, a.SameDevice b) ↔
      ∀ x ∈ supported, ∀ N, x.2.NewestComplete N → x.2.Reached N := by
  constructor
  · rintro ⟨hfiltered, -⟩ x hx N hN
    exact h.reached_of_newest hx hN (hfiltered.newest x hx N hN)
  intro hreached
  refine ⟨⟨fun x hx dir dev i hentry => h.kept hx hentry, ?_⟩,
    DeviceInfo.exists_mem_dropDuplicates⟩
  intro x hx N hN dir dev i hentry
  exact h.newest_of_reached hx hN (hreached x hx N hN) hentry

/-- Two versions of one library, with the devices of each. -/
def versions (v12 v13 : List (ℕ × ℕ)) : ByLibDirs String ℕ :=
  [("cuda_v12", v12), ("cuda_v13", v13)]

theorem supported_versions {v12 v13 : List (ℕ × ℕ)} (h12 : (v12.map fst).Nodup)
    (h13 : (v13.map fst).Nodup) (hindices : ((v12 ++ v13).map snd).Nodup) :
    Supported [("CUDA", versions v12 v13)] := by
  refine ⟨?_, ?_⟩
  · intro x hx
    obtain rfl := mem_singleton.mp hx
    refine ⟨show ["cuda_v12", "cuda_v13"].Nodup by decide, ?_⟩
    intro p hp
    rcases mem_pair.mp hp with rfl | rfl
    · exact h12
    · exact h13
  · have heq : (entries [("CUDA", versions v12 v13)]).map (fun e => e.2.2.2) =
        (v12 ++ v13).map snd := by
      simp [entries, versions, Function.comp_def]
    rw [heq]
    exact hindices

theorem mem_versions {v12 v13 : List (ℕ × ℕ)} {d : String}
    (hd : d ∈ (versions v12 v13).libDirs) : d = "cuda_v12" ∨ d = "cuda_v13" := by
  obtain ⟨es, hmem⟩ := ByLibDirs.mem_libDirs.mp hd
  rcases mem_pair.mp hmem with hpair | hpair
  · exact Or.inl (mk.inj hpair).1
  · exact Or.inr (mk.inj hpair).1

/-- Two versions for the same devices: the newer one is kept. -/
theorem filtered_two_versions : Filtered [("CUDA", versions [(0, 0), (1, 1)] [(0, 2), (1, 3)])] ∧
      ∀ devices : List DeviceInfo, ∀ a ∈ devices,
        ∃ b ∈ DeviceInfo.dropDuplicates devices, a.SameDevice b := by
  refine (filterOverlapByLibrary_filtered_iff _
    (supported_versions (by decide) (by decide) (by decide))).mpr ?_
  intro x hx N _
  obtain rfl := mem_singleton.mp hx
  refine Or.inl fun d hd d' hd' dev => ?_
  rcases mem_versions hd with rfl | rfl <;> rcases mem_versions hd' with rfl | rfl <;> rfl

/-- The newer version supports both devices and the older one only the first: the newer one
loses the first. -/
theorem newest_complete_loses : ¬∀ supported : List (String × ByLibDirs String ℕ),
    Supported supported → Filtered supported := by
  intro hall
  have hnewest := (hall [("CUDA", versions [(0, 0)] [(0, 1), (1, 2)])]
    (supported_versions (by decide) (by decide) (by decide))).newest _
    (mem_singleton.mpr rfl) "cuda_v13"
  have hcomplete : (versions [(0, 0)] [(0, 1), (1, 2)]).NewestComplete "cuda_v13" := by
    constructor
    · refine ⟨ByLibDirs.mem_libDirs.mpr ⟨_, mem_cons_of_mem _ mem_cons_self⟩, ?_⟩
      rintro dir dev i ⟨es, hdir, hdev⟩
      rcases mem_pair.mp hdir with hpair | hpair
      · obtain ⟨rfl, rfl⟩ := mk.inj hpair
        obtain ⟨rfl, rfl⟩ := mk.inj (mem_singleton.mp hdev)
        rfl
      · obtain ⟨rfl, rfl⟩ := mk.inj hpair
        rcases mem_pair.mp hdev with hpair | hpair <;> (obtain ⟨rfl, rfl⟩ := mk.inj hpair; rfl)
    · rintro d ⟨hd, -⟩
      rcases mem_versions hd with rfl | rfl
      · decide +kernel
      · exact le_rfl
  have hspares := (hnewest hcomplete "cuda_v13" 0 1
    ⟨_, mem_cons_of_mem _ mem_cons_self, mem_cons_self⟩).1 rfl
  exact absurd (hspares [false, false, false]) (by decide +kernel)

end Main

end Ollama.Discover
