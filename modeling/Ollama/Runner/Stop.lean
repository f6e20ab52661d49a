import Mathlib
import Ollama.Lib.Utf8
import Ollama.Lib.Occurrence

/-!
# Stop strings

`runner/common/stop.go` over Go strings as lists of bytes: the search for stop
strings in what is pending, the test for a stop string that may have begun, the
truncation of the pieces, and the test for a character that is cut off.
-/

namespace Ollama.Runner

open Lib Lib.Utf8 List

/-- A Go string. -/
abbrev Text := List UInt8

/-! ## §1  The functions -/

/-- `strings.Contains` -/
def contains (s substr : Text) : Bool := (index s substr).isSome

/-- The first stop string, in the order of the list, that stands in the
sequence. -/
def findStop (sequence : Text) (stops : List Text) : Option Text :=
  stops.find? fun stop => contains sequence stop

def containsStopSuffix (sequence : Text) (stops : List Text) : Bool :=
  stops.any fun stop =>
    (List.range stop.length).any fun i => decide (stop.take (i + 1) <:+ sequence)

/-- The loop of `TruncateStop` that splits the truncated text back into pieces
of the original lengths. -/
def splitBack (joined : Text) : ℕ → List ℕ → List Text × Bool
  | _, [] => ([], false)
  | start, length :: lengths =>
      if joined.length ≤ start then ([], false)
      else if joined.length < start + length then
        let r := splitBack joined joined.length lengths
        (joined.drop start :: r.1, true)
      else
        let r := splitBack joined (start + length) lengths
        ((joined.drop start).take length :: r.1, r.2)

/-- `TruncateStop`: the pieces without the stop string and what follows it, and
whether a piece was cut. -/
def truncateStop (pieces : List Text) (stop : Text) : List Text × Bool :=
  match index pieces.flatten stop with
  | none => (pieces, false)
  | some i => splitBack (pieces.flatten.take i) 0 (pieces.map List.length)

/-- The loop of `IncompleteUnicode`, over the bytes from the last one. -/
def incompleteFrom : ℕ → Text → Bool
  | _, [] => false
  | i, c :: rest =>
      if 5 ≤ i then false
      else if c &&& 0xc0 = 0x80 then incompleteFrom (i + 1) rest
      else if c &&& 0xe0 = 0xc0 then decide (i < 2)
      else if c &&& 0xf0 = 0xe0 then decide (i < 3)
      else if c &&& 0xf8 = 0xf0 then decide (i < 4)
      else false

def incompleteUnicode (token : Text) : Bool := incompleteFrom 1 token.reverse

/-! ## §2  What they find -/

theorem contains_iff {s t : Text} (ht : t ≠ []) : contains s t = true ↔ ∃ i, Occurs t s i := by
  unfold contains
  rw [Option.isSome_iff_ne_none, ne_eq, index_eq_none ht]
  simp only [not_forall, not_not]

theorem findStop_eq_none {s : Text} {stops : List Text} (hne : ∀ t ∈ stops, t ≠ []) :
    findStop s stops = none ↔ ∀ i, ∀ t ∈ stops, ¬Occurs t s i := by
  unfold findStop
  rw [find?_eq_none]
  constructor
  · exact fun h i t ht ho => h t ht ((contains_iff (hne t ht)).mpr ⟨i, ho⟩)
  · intro h t ht hc
    obtain ⟨i, ho⟩ := (contains_iff (hne t ht)).mp hc
    exact h i t ht ho

/-- What `FindStop` returns is a stop string of the list that stands in the
sequence. -/
theorem findStop_eq_some {s : Text} {stops : List Text} {stop : Text}
    (h : findStop s stops = some stop) : stop ∈ stops ∧ ∃ i, index s stop = some i :=
  ⟨mem_of_find?_eq_some h, Option.isSome_iff_exists.mp (find?_some h :)⟩

/-- Text in which no stop string begins, put before the sequence, does not
change what is found. -/
theorem findStop_append {d s : Text} {stops : List Text} (hne : ∀ t ∈ stops, t ≠ [])
    (hd : ∀ t ∈ stops, ∀ i < d.length, ¬Occurs t (d ++ s) i) :
    findStop (d ++ s) stops = findStop s stops := by
  have hcontains : ∀ t ∈ stops, contains (d ++ s) t = contains s t := by
    intro t ht
    unfold contains
    rw [index_append (hne t ht) (hd t ht), Option.isSome_map]
  exact List.find?_congr hcontains

theorem containsStopSuffix_of_suffix {s stop : Text} {stops : List Text} (hstop : stop ∈ stops)
    {k : ℕ} (hk : 0 < k) (hle : k ≤ stop.length) (h : stop.take k <:+ s) :
    containsStopSuffix s stops = true := by
  refine any_eq_true.mpr ⟨stop, hstop, any_eq_true.mpr ⟨k - 1, ?_, ?_⟩⟩
  · exact mem_range.mpr (by omega)
  · rw [Nat.sub_add_cancel hk]
    exact decide_eq_true h

/-! ## §3  Truncation -/

theorem splitBack_flatten (joined : Text) (lengths : List ℕ) :
    ∀ start, start ≤ joined.length → joined.length ≤ start + lengths.sum →
      (splitBack joined start lengths).1.flatten = joined.drop start := by
  induction lengths with
  | nil =>
    intro start hstart hle
    rw [drop_eq_nil_of_le (by simpa using hle)]
    rfl
  | cons length lengths ih =>
    intro start hstart hle
    rw [sum_cons] at hle
    unfold splitBack
    split
    · rename_i hge
      rw [drop_eq_nil_of_le hge]
      rfl
    · split
      · rw [flatten_cons, ih _ le_rfl (by omega), drop_length, append_nil]
      · rw [flatten_cons, ih _ (by omega) (by omega), ← drop_drop, take_append_drop]

/-- **What `TruncateStop` keeps** is the text before the first occurrence. -/
theorem truncateStop_flatten {pieces : List Text} {stop : Text} {i : ℕ}
    (h : index pieces.flatten stop = some i) :
    (truncateStop pieces stop).1.flatten = pieces.flatten.take i := by
  unfold truncateStop
  rw [h]
  refine (splitBack_flatten _ _ 0 (Nat.zero_le _) ?_).trans drop_zero
  rw [length_take, length_flatten]
  omega

/-! ## §4  Cut-off characters -/

theorem and_eq_iff {m v : UInt8} {lo hi : ℕ}
    (h : ∀ n < 256, (n &&& m.toNat = v.toNat) ↔ (lo ≤ n ∧ n < hi)) (c : UInt8) :
    c &&& m = v ↔ (lo ≤ c.toNat ∧ c.toNat < hi) := by
  rw [← UInt8.toNat_inj, UInt8.toNat_and]
  exact h c.toNat c.toNat_lt

theorem and_c0 (c : UInt8) : c &&& 0xc0 = 0x80 ↔ Continuation c := and_eq_iff (by decide +kernel) c

theorem and_e0 (c : UInt8) : c &&& 0xe0 = 0xc0 ↔ (0xc0 ≤ c.toNat ∧ c.toNat < 0xe0) :=
  and_eq_iff (by decide +kernel) c

theorem and_f0 (c : UInt8) : c &&& 0xf0 = 0xe0 ↔ (0xe0 ≤ c.toNat ∧ c.toNat < 0xf0) :=
  and_eq_iff (by decide +kernel) c

theorem and_f8 (c : UInt8) : c &&& 0xf8 = 0xf0 ↔ (0xf0 ≤ c.toNat ∧ c.toNat < 0xf8) :=
  and_eq_iff (by decide +kernel) c

/-- The loop passes over continuation bytes. -/
theorem incompleteFrom_append {more : Text} (hmore : ∀ y ∈ more, Continuation y) (rest : Text) :
    ∀ i, i + more.length ≤ 5 →
      incompleteFrom i (more ++ rest) = incompleteFrom (i + more.length) rest := by
  induction more with
  | nil => exact fun i _ => rfl
  | cons y more ih =>
    intro i hi
    rw [length_cons] at hi
    rw [cons_append, incompleteFrom, if_neg (by omega),
      if_pos ((and_c0 y).mpr (hmore y mem_cons_self)),
      ih (fun z hz => hmore z (mem_cons_of_mem _ hz)) (i + 1) (by omega), length_cons,
      Nat.add_assoc, Nat.add_comm 1]

/-- At the lead byte the loop compares the number of bytes seen with the number
announced. -/
theorem incompleteFrom_lead {size : ℕ} {b : UInt8} (h : Lead size b) {i : ℕ} (hi : i < size)
    (hpos : 0 < i) (rest : Text) : incompleteFrom i (b :: rest) = true := by
  have hcont : ¬(b &&& 0xc0 = 0x80) := fun hb => h.not_continuation ((and_c0 b).mp hb)
  rw [incompleteFrom, if_neg (by unfold Lead at h; omega), if_neg hcont]
  rcases h with ⟨rfl, _⟩ | ⟨rfl, hb⟩ | ⟨rfl, hb⟩ | ⟨rfl, hb⟩
  · omega
  · rw [if_pos ((and_e0 b).mpr hb)]
    exact decide_eq_true hi
  · rw [if_neg (fun he => by have := (and_e0 b).mp he; omega), if_pos ((and_f0 b).mpr hb)]
    exact decide_eq_true hi
  · rw [if_neg (fun he => by have := (and_e0 b).mp he; omega),
      if_neg (fun he => by have := (and_f0 b).mp he; omega), if_pos ((and_f8 b).mpr hb)]
    exact decide_eq_true hi

/-- **A prefix of a valid text that does not end inside a character is valid.** -/
theorem valid_of_complete {s t : Text} (h : Valid (s ++ t)) (hs : incompleteUnicode s = false) :
    Valid s ∧ Valid t := by
  obtain ⟨cs, hcs⟩ := h
  cases ends_of_prefix ⟨t, hcs⟩ with
  | boundary ds es hsplit hds =>
    refine ⟨⟨ds, hds⟩, es, ?_⟩
    rw [hsplit, encode_append, hds] at hcs
    exact append_cancel_left hcs
  | inside ds c es p r _ hds hc hp hr =>
    obtain ⟨size, b, more, _, _, hlead, rfl, hlt, hmore, _⟩ := partial_shape hc hp hr
    have hsize : size ≤ 4 := by
      unfold Lead at hlead
      omega
    have hrev : s.reverse = more.reverse ++ (b :: (encode ds).reverse) := by
      rw [hds]
      simp only [reverse_append, reverse_cons, append_assoc, singleton_append]
    rw [incompleteUnicode, hrev, incompleteFrom_append (fun y hy => hmore y (mem_reverse.mp hy)) _ _
        (by rw [length_reverse]; omega),
      incompleteFrom_lead hlead (by rw [length_reverse]; omega) (by omega)] at hs
    cases hs

end Ollama.Runner
