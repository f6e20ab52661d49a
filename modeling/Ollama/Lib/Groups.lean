import Mathlib.Data.List.Basic
import Mathlib.Data.List.Induction

/-!
# Cutting a list between groups

A group is an element and a number of elements after it. A list is to be cut
at the first place, not before a given one, that no group reaches over. One
pass with a countdown that every group sets anew sees only the group that was
started last: it cuts where that one is over, which is the right place unless
an earlier group still reaches over it.
-/

namespace Ollama.Lib.Groups

open List

/-! ## §1  First cuts -/

/-- `r` is the first place in a list of `len` elements where `P` holds, or
its end. -/
structure FirstCut (P : ℕ → Prop) (len r : ℕ) : Prop where
  le : r ≤ len
  before : ∀ j < r, ¬ P j
  cut : r < len → P r

variable {P Q : ℕ → Prop} {len r : ℕ}

theorem FirstCut.le_of (h : FirstCut P len r) {j : ℕ} (hj : P j) : r ≤ j := by
  by_contra hlt
  exact h.before j (Nat.not_le.mp hlt) hj

/-- The first cut is the least place that is the end or has the property. -/
theorem FirstCut.iff_least : FirstCut P len r ↔
    (r ≤ len ∧ (r < len → P r)) ∧ ∀ j ≤ len, (j < len → P j) → r ≤ j := by
  constructor
  · intro h
    refine ⟨⟨h.le, h.cut⟩, fun j hj hP => ?_⟩
    rcases Nat.eq_or_lt_of_le hj with rfl | hlt
    · exact h.le
    · exact h.le_of (hP hlt)
  · rintro ⟨⟨hle, hcut⟩, hleast⟩
    refine ⟨hle, fun j hj hP => ?_, hcut⟩
    have := hleast j (Nat.le_trans (Nat.le_of_lt hj) hle) fun _ => hP
    omega

theorem FirstCut.cons (h0 : ¬ P 0) (h : FirstCut (fun j => P (j + 1)) len r) :
    FirstCut P (len + 1) (r + 1) where
  le := Nat.succ_le_succ h.le
  before j hj := by
    cases j with
    | zero => exact h0
    | succ j => exact h.before j (Nat.lt_of_succ_lt_succ hj)
  cut hlt := h.cut (Nat.lt_of_succ_lt_succ hlt)

/-- **When a weaker condition finds the same cut**: unless it holds at a
place where the stronger one does not and has not held before. -/
theorem FirstCut.iff_of_imp (hr : FirstCut P len r) (hQP : ∀ j, Q j → P j) :
    FirstCut Q len r ↔ ¬ ∃ j < len, P j ∧ ¬ Q j ∧ ∀ i < j, ¬ Q i := by
  constructor
  · rintro hq ⟨j, hj, hPj, hQj, hbefore⟩
    have hle := hr.le_of hPj
    have hcut := hq.cut (Nat.lt_of_le_of_lt hle hj)
    rcases Nat.eq_or_lt_of_le hle with heq | hlt
    · rw [heq] at hcut
      exact hQj hcut
    · exact hbefore r hlt hcut
  · intro hnone
    have hbefore : ∀ i < r, ¬ Q i := fun i hi hQ => hr.before i hi (hQP i hQ)
    refine ⟨hr.le, hbefore, fun hlt => ?_⟩
    by_contra hQ
    exact hnone ⟨r, hlt, hr.cut hlt, hQ, hbefore⟩

/-! ## §2  The countdown -/

/-- The countdown after a list, each element of which starts a group of that
many more elements or none. -/
def countdown (starts : List (Option Int)) : Int :=
  starts.foldl (fun c s => s.getD (c - 1)) 0

theorem countdown_snoc (starts : List (Option Int)) (s : Option Int) :
    countdown (starts ++ [s]) = s.getD (countdown starts - 1) := by
  unfold countdown
  rw [foldl_append]
  rfl

/-- The group that was started last before place `j` is over there. -/
def LastOver (starts : List (Option Int)) (j : ℕ) : Prop :=
  ∀ i w, i < j → starts[i]? = some (some w) →
    (∀ m, i < m → m < j → starts[m]? = some none) → (i : Int) + w < j

/-- What the countdown says: how far the last group still reaches. -/
theorem countdown_spec (starts : List (Option Int)) :
    ((∀ m < starts.length, starts[m]? = some none) ∧ countdown starts = -starts.length) ∨
    ∃ i w, starts[i]? = some (some w) ∧ (∀ m, i < m → m < starts.length → starts[m]? = some none) ∧
      countdown starts = i + w + 1 - starts.length := by
  induction starts using List.reverseRecOn with
  | nil => exact Or.inl ⟨fun m hm => absurd hm (Nat.not_lt_zero m), rfl⟩
  | append_singleton starts s ih =>
      rw [countdown_snoc, length_append, length_singleton]
      have hlast : (starts ++ [s])[starts.length]? = some s := getElem?_concat_length
      have hold : ∀ m, m < starts.length → (starts ++ [s])[m]? = starts[m]? := fun m hm =>
        getElem?_append_left hm
      cases s with
      | some w =>
          refine Or.inr ⟨starts.length, w, hlast, fun m hm hm' => ?_, ?_⟩
          · omega
          · push_cast
            show w = _
            omega
      | none =>
          have hnone : ∀ m, m < starts.length + 1 → (m < starts.length → starts[m]? = some none) →
              (starts ++ [none])[m]? = some none := by
            intro m hm h
            rcases Nat.lt_succ_iff_lt_or_eq.mp hm with hlt | rfl
            · rw [hold m hlt]
              exact h hlt
            · exact hlast
          rcases ih with ⟨hall, hcount⟩ | ⟨i, w, hi, hafter, hcount⟩
          · refine Or.inl ⟨fun m hm => hnone m hm (hall m), ?_⟩
            show countdown starts - 1 = _
            push_cast
            omega
          · have hlt : i < starts.length := (List.getElem?_eq_some_iff.mp hi).1
            refine Or.inr ⟨i, w, (hold i hlt).trans hi, fun m him hm => hnone m hm (hafter m him), ?_⟩
            show countdown starts - 1 = _
            push_cast
            omega

/-- The countdown has run out exactly when the last group is over. -/
theorem countdown_le_zero (starts : List (Option Int)) :
    countdown starts ≤ 0 ↔ LastOver starts starts.length := by
  rcases countdown_spec starts with ⟨hall, hcount⟩ | ⟨i, w, hi, hafter, hcount⟩
  · refine iff_of_true (by omega) fun i w hlt hi _ => ?_
    rw [hall i hlt] at hi
    cases hi
  have hlt : i < starts.length := (List.getElem?_eq_some_iff.mp hi).1
  constructor
  · intro hle i' w' hlt' hi' hafter'
    rcases Nat.lt_trichotomy i i' with h | rfl | h
    · rw [hafter i' h hlt'] at hi'
      cases hi'
    · rw [hi] at hi'
      cases hi'
      omega
    · rw [hafter' i h hlt] at hi
      cases hi
  · intro hover
    have := hover i w hlt hi hafter
    omega

theorem lastOver_take {starts : List (Option Int)} {j : ℕ} :
    LastOver (starts.take j) j ↔ LastOver starts j := by
  have htake : ∀ i, i < j → (starts.take j)[i]? = starts[i]? := fun i hi =>
    getElem?_take_of_lt hi
  constructor
  · intro h i w hi hs hafter
    exact h i w hi ((htake i hi).trans hs) fun m him hm => (htake m hm).trans (hafter m him hm)
  · intro h i w hi hs hafter
    exact h i w hi ((htake i hi).symm.trans hs) fun m him hm =>
      (htake m hm).symm.trans (hafter m him hm)

theorem countdown_take {starts : List (Option Int)} {j : ℕ} (hj : j ≤ starts.length) :
    countdown (starts.take j) ≤ 0 ↔ LastOver starts j := by
  rw [countdown_le_zero, length_take_of_le hj, lastOver_take]

/-! ## §3  Groups -/

/-- A group started before place `j` reaches over it: element `i` and the
`sizes[i]` elements after it are a group. -/
def Within (sizes : List Int) (j : ℕ) : Prop :=
  ∃ i k, i < j ∧ sizes[i]? = some k ∧ (j : Int) ≤ i + k

/-- Element `m` belongs to the group that starts at element `i`. -/
def InGroup (sizes : List Int) (i m : ℕ) : Prop :=
  i ≤ m ∧ m < sizes.length ∧ ∃ k, sizes[i]? = some k ∧ (m : Int) ≤ i + k

/-- A group that starts at `first` or later has an element before the cut and
another from the cut on. -/
def Separates (sizes : List Int) (first cut : ℕ) : Prop :=
  ∃ i a b, first ≤ i ∧ InGroup sizes i a ∧ InGroup sizes i b ∧ a < cut ∧ cut ≤ b

theorem separates_iff {sizes : List Int} {first j : ℕ} : Separates sizes first (first + j) ↔
      j < (sizes.drop first).length ∧ Within (sizes.drop first) j := by
  rw [length_drop]
  constructor
  · rintro ⟨i, a, b, hi, ⟨hia, -, -⟩, ⟨-, hb, k, hk, hbk⟩, ha, hcut⟩
    refine ⟨by omega, i - first, k, by omega, ?_, by omega⟩
    rw [getElem?_drop, Nat.add_sub_cancel' hi]
    exact hk
  · rintro ⟨hj, i, k, hi, hk, hjk⟩
    rw [getElem?_drop] at hk
    exact ⟨first + i, first + i, first + j, Nat.le_add_right _ _,
      ⟨Nat.le_refl _, by omega, k, hk, by omega⟩, ⟨by omega, by omega, k, hk, by omega⟩,
      by omega, Nat.le_refl _⟩

/-- From `need` on every place is within a group up to one where the group
started last is over while another reaches over it. -/
def Nested (sizes : List Int) (start : Int → Option Int) (need : ℕ) : Prop :=
  ∃ j < sizes.length, need ≤ j ∧ LastOver (sizes.map start) j ∧ Within sizes j ∧
    ∀ i, need ≤ i → i < j → Within sizes i

theorem lastOver_of_not_within {sizes : List Int} {start : Int → Option Int}
    (hstart : ∀ k w, start k = some w → w ≤ k) {j : ℕ} (h : ¬ Within sizes j) :
    LastOver (sizes.map start) j := by
  intro i w hi hs _
  by_contra hge
  rw [getElem?_map] at hs
  obtain ⟨k, hk, hw⟩ := Option.map_eq_some_iff.mp hs
  have hle := hstart k w hw
  exact h ⟨i, k, hi, hk, by omega⟩

/-- **When the countdown finds the cut**: unless groups are nested there. -/
theorem firstCut_within {sizes : List Int} {start : Int → Option Int} {need r : ℕ}
    (hstart : ∀ k w, start k = some w → w ≤ k)
    (hr : FirstCut (fun j => need ≤ j ∧ LastOver (sizes.map start) j) sizes.length r) :
    FirstCut (fun j => need ≤ j ∧ ¬ Within sizes j) sizes.length r ↔ ¬ Nested sizes start need := by
  rw [hr.iff_of_imp fun j hj => ⟨hj.1, lastOver_of_not_within hstart hj.2⟩]
  refine not_congr ⟨?_, ?_⟩
  · rintro ⟨j, hj, ⟨hneed, hover⟩, hin, hbefore⟩
    refine ⟨j, hj, hneed, hover, ?_, fun i hi hij => ?_⟩
    · by_contra hout
      exact hin ⟨hneed, hout⟩
    · by_contra hout
      exact hbefore i hij ⟨hi, hout⟩
  · rintro ⟨j, hj, hneed, hover, hin, hbefore⟩
    exact ⟨j, hj, ⟨hneed, hover⟩, fun h => h.2 hin, fun i hij h => h.2 (hbefore i h.1 hij)⟩

end Ollama.Lib.Groups
