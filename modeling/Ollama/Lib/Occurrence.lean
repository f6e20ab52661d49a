import Mathlib.Data.List.Infix

/-!
# Occurrences of one list in another
-/

namespace Ollama.Lib

open List

variable {α : Type}

/-! ## §1  Positions -/

/-- `t` stands in `s` at position `i`. -/
def Occurs (t s : List α) (i : ℕ) : Prop := t <+: s.drop i

instance [DecidableEq α] (t s : List α) (i : ℕ) : Decidable (Occurs t s i) :=
  inferInstanceAs (Decidable (t <+: s.drop i))

variable {t s : List α} {i : ℕ}

theorem Occurs.eq_append (h : Occurs t s i) : s = s.take i ++ (t ++ s.drop (i + t.length)) := by
  obtain ⟨u, hu⟩ := h
  have hdrop : s.drop (i + t.length) = u := by rw [← drop_drop, ← hu, drop_left]
  rw [hdrop, hu, take_append_drop]

theorem Occurs.add_le (h : Occurs t s i) (ht : t ≠ []) : i + t.length ≤ s.length := by
  have hle := List.IsPrefix.length_le h
  rw [length_drop] at hle
  have := length_pos_iff.mpr ht
  omega

theorem occurs_append_right (d s t : List α) (i : ℕ) :
    Occurs t (d ++ s) (d.length + i) ↔ Occurs t s i := by
  unfold Occurs
  rw [drop_append, drop_eq_nil_of_le (Nat.le_add_right _ _), nil_append, Nat.add_sub_cancel_left]

theorem Occurs.append (h : Occurs t s i) (ht : t ≠ []) (u : List α) : Occurs t (s ++ u) i := by
  have hle := h.add_le ht
  unfold Occurs
  rw [drop_append_of_le_length (by omega)]
  exact h.trans (prefix_append _ _)

theorem Occurs.of_append {t s u : List α} (h : Occurs t (s ++ u) i)
    (hle : i + t.length ≤ s.length) : Occurs t s i := by
  unfold Occurs at h ⊢
  rw [drop_append_of_le_length (by omega)] at h
  refine prefix_of_prefix_length_le h (prefix_append _ _) ?_
  rw [length_drop]
  omega

/-- An occurrence that begins in the first part and ends after it: the first
part ends with its beginning. -/
theorem Occurs.straddle {t s u : List α} (h : Occurs t (s ++ u) i) (hi : i < s.length)
    (hlt : s.length < i + t.length) :
    ∃ k, k < t.length ∧ 0 < k ∧ t.take k <:+ s ∧ s.length = i + k := by
  refine ⟨s.length - i, by omega, by omega, ?_, by omega⟩
  unfold Occurs at h
  rw [drop_append_of_le_length (by omega)] at h
  have htake : t.take (s.length - i) = s.drop i := by
    refine List.IsPrefix.eq_of_length ?_ ?_
    · refine prefix_of_prefix_length_le ((List.take_prefix _ _).trans h) (prefix_append _ _) ?_
      rw [length_take, length_drop]
      omega
    · rw [length_take, length_drop]
      omega
  rw [htake]
  exact drop_suffix _ _

/-! ## §2  The first position -/

variable [DecidableEq α]

/-- The first position of `t` in `s`. -/
def index (s t : List α) : Option ℕ :=
  (List.range (s.length + 1)).find? fun i => decide (Occurs t s i)

/-- The first position at which one of `ts` stands in `s`. -/
def earliest (ts : List (List α)) (s : List α) : Option ℕ :=
  (List.range (s.length + 1)).find? fun i => decide (∃ t ∈ ts, Occurs t s i)

theorem index_eq (s t : List α) : index s t = earliest [t] s := by
  unfold index earliest
  simp only [mem_singleton, exists_eq_left]

variable {ts : List (List α)}

theorem earliest_eq_some (hne : ∀ t ∈ ts, t ≠ []) {s : List α} :
    earliest ts s = some i ↔ (∃ t ∈ ts, Occurs t s i) ∧ ∀ j < i, ∀ t ∈ ts, ¬Occurs t s j := by
  unfold earliest
  rw [find?_range_eq_some]
  constructor
  · rintro ⟨hi, _, hmin⟩
    refine ⟨of_decide_eq_true hi, fun j hj t ht ho => ?_⟩
    have hneg := hmin j hj
    rw [decide_eq_true (⟨t, ht, ho⟩ : ∃ t ∈ ts, Occurs t s j)] at hneg
    exact absurd hneg (by decide)
  · rintro ⟨⟨t, ht, ho⟩, hmin⟩
    refine ⟨decide_eq_true ⟨t, ht, ho⟩, ?_, fun j hj => ?_⟩
    · have := ho.add_le (hne t ht)
      rw [mem_range]
      omega
    · rw [decide_eq_false (fun hex : ∃ t ∈ ts, Occurs t s j => hmin j hj hex.choose
        hex.choose_spec.1 hex.choose_spec.2)]
      rfl

theorem earliest_eq_none (hne : ∀ t ∈ ts, t ≠ []) {s : List α} :
    earliest ts s = none ↔ ∀ i, ∀ t ∈ ts, ¬Occurs t s i := by
  unfold earliest
  rw [find?_eq_none]
  constructor
  · intro h i t ht ho
    have hle := ho.add_le (hne t ht)
    exact h i (mem_range.mpr (by omega)) (decide_eq_true ⟨t, ht, ho⟩)
  · intro h i _ hi
    obtain ⟨t, ht, ho⟩ := of_decide_eq_true hi
    exact h i t ht ho

/-- The first position moves with what is put before, when nothing begins
there. -/
theorem earliest_append (hne : ∀ t ∈ ts, t ≠ []) {d s : List α}
    (hd : ∀ t ∈ ts, ∀ i < d.length, ¬Occurs t (d ++ s) i) :
    earliest ts (d ++ s) = (earliest ts s).map (d.length + ·) := by
  cases hs : earliest ts s with
  | none =>
    rw [Option.map_none, earliest_eq_none hne]
    intro i t ht ho
    by_cases hi : i < d.length
    · exact hd t ht i hi ho
    · obtain ⟨k, rfl⟩ := Nat.exists_eq_add_of_le (Nat.not_lt.mp hi)
      exact (earliest_eq_none hne).mp hs k t ht ((occurs_append_right d s t k).mp ho)
  | some i =>
    obtain ⟨⟨t, ht, ho⟩, hmin⟩ := (earliest_eq_some hne).mp hs
    rw [Option.map_some, earliest_eq_some hne]
    refine ⟨⟨t, ht, (occurs_append_right d s t i).mpr ho⟩, fun j hj t' ht' ho' => ?_⟩
    by_cases hlt : j < d.length
    · exact hd t' ht' j hlt ho'
    · obtain ⟨k, rfl⟩ := Nat.exists_eq_add_of_le (Nat.not_lt.mp hlt)
      exact hmin k (by omega) t' ht' ((occurs_append_right d s t' k).mp ho')

theorem index_append {t : List α} (hne : t ≠ []) {d s : List α}
    (hd : ∀ i < d.length, ¬Occurs t (d ++ s) i) :
    index (d ++ s) t = (index s t).map (d.length + ·) := by
  rw [index_eq, index_eq]
  refine earliest_append (fun t' ht' => ?_) fun t' ht' => ?_
  · rw [mem_singleton.mp ht']
    exact hne
  · rw [mem_singleton.mp ht']
    exact hd

theorem index_eq_some {s t : List α} (hne : t ≠ []) :
    index s t = some i ↔ Occurs t s i ∧ ∀ j < i, ¬Occurs t s j := by
  rw [index_eq, earliest_eq_some (by simpa using hne)]
  simp only [mem_singleton, exists_eq_left, forall_eq]

theorem index_eq_none {s t : List α} (hne : t ≠ []) : index s t = none ↔ ∀ i, ¬Occurs t s i := by
  rw [index_eq, earliest_eq_none (by simpa using hne)]
  simp only [mem_singleton, forall_eq]

end Ollama.Lib
