import Mathlib.Data.List.Basic
import Mathlib.Data.List.Pairwise

/-!
# Two-finger compaction

An array of which `occ` tells the occupied places is compacted by two
fingers: the low one walks up to a hole, the high one walks down to an
occupied place, the content of the high place goes into the hole, until the
fingers meet. `plan` is the list of (hole, place) pairs in the order they are
visited. The holes ascend, the places descend, and what is occupied after the
moves is a prefix.
-/

namespace Ollama.Lib.TwoFinger

open List

/-! ## §1  The pairs -/

/-- The pairs visited from the low finger `dst` and the high finger `src` on. -/
def plan (occ : ℕ → Bool) (dst src : ℕ) : List (ℕ × ℕ) :=
  if dst < src then
    if occ dst then plan occ (dst + 1) src
    else if occ src then (dst, src) :: plan occ (dst + 1) (src - 1)
    else plan occ dst (src - 1)
  else []
termination_by src - dst

variable {occ : ℕ → Bool}

variable {dst src : ℕ}

theorem plan_of_le (h : src ≤ dst) : plan occ dst src = [] := by
  rw [plan, if_neg (Nat.not_lt.mpr h)]

theorem plan_of_occ (h : occ dst = true) : plan occ dst src = plan occ (dst + 1) src := by
  by_cases hlt : dst < src
  · rw [plan, if_pos hlt, if_pos h]
  · rw [plan_of_le (by omega), plan_of_le (by omega)]

theorem plan_of_pair (hlt : dst < src) (hd : occ dst = false) (hs : occ src = true) :
    plan occ dst src = (dst, src) :: plan occ (dst + 1) (src - 1) := by
  rw [plan, if_pos hlt, if_neg (by rw [hd]; exact Bool.false_ne_true), if_pos hs]

/-- A free place under the high finger is passed over, whatever is under the
low one. -/
theorem plan_of_free (h : occ src = false) : plan occ dst src = plan occ dst (src - 1) := by
  induction hn : src - dst generalizing dst with
  | zero => rw [plan_of_le (by omega), plan_of_le (by omega)]
  | succ n ih =>
      have hlt : dst < src := by omega
      by_cases hd : occ dst = true
      · rw [plan_of_occ hd, plan_of_occ hd]
        exact ih (by omega)
      · rw [plan, if_pos hlt, if_neg hd, if_neg (by rw [h]; exact Bool.false_ne_true)]

/-- The pairs depend on the places between the fingers only. -/
theorem plan_congr {occ' : ℕ → Bool} (h : ∀ i, dst ≤ i → i ≤ src → occ i = occ' i) :
    plan occ dst src = plan occ' dst src := by
  fun_induction plan occ dst src with
  | case1 dst src hlt hd ih =>
      rw [@plan_of_occ occ' _ _ (h dst (by omega) (by omega) ▸ hd)]
      exact ih (fun i h₁ h₂ => h i (by omega) h₂)
  | case2 dst src hlt hd hs ih =>
      rw [@plan_of_pair occ' _ _ hlt (h dst (by omega) (by omega) ▸ Bool.eq_false_iff.mpr hd)
        (h src (by omega) (by omega) ▸ hs)]
      rw [ih (fun i h₁ h₂ => h i (by omega) (by omega))]
  | case3 dst src hlt hd hs ih =>
      rw [@plan_of_free occ' _ _ (h src (by omega) (by omega) ▸ Bool.eq_false_iff.mpr hs)]
      exact ih (fun i h₁ h₂ => h i h₁ (by omega))
  | case4 dst src hlt => rw [plan_of_le (by omega)]

/-! ## §2  Holes and places -/

/-- A pair leads from an occupied place down to a hole. -/
theorem of_mem_plan {p : ℕ × ℕ} (hp : p ∈ plan occ dst src) :
    dst ≤ p.1 ∧ p.1 < p.2 ∧ p.2 ≤ src ∧ occ p.1 = false ∧ occ p.2 = true := by
  fun_induction plan occ dst src with
  | case1 dst src hlt hd ih =>
      obtain ⟨h₁, h₂⟩ := ih hp
      exact ⟨by omega, h₂⟩
  | case2 dst src hlt hd hs ih =>
      rcases mem_cons.mp hp with rfl | hp
      · exact ⟨Nat.le_refl _, hlt, Nat.le_refl _, Bool.eq_false_iff.mpr hd, hs⟩
      · obtain ⟨h₁, h₂, h₃, h₄⟩ := ih hp
        exact ⟨by omega, h₂, by omega, h₄⟩
  | case3 dst src hlt hd hs ih =>
      obtain ⟨h₁, h₂, h₃, h₄⟩ := ih hp
      exact ⟨h₁, h₂, by omega, h₄⟩
  | case4 dst src hlt => cases hp

theorem plan_pairwise (occ : ℕ → Bool) (dst src : ℕ) :
    (plan occ dst src).Pairwise (fun p q => p.1 < q.1 ∧ q.2 < p.2) := by
  fun_induction plan occ dst src with
  | case1 dst src hlt hd ih => exact ih
  | case2 dst src hlt hd hs ih =>
      refine pairwise_cons.mpr ⟨?_, ih⟩
      intro q hq
      obtain ⟨h₁, _, h₃, _⟩ := of_mem_plan hq
      exact ⟨by show dst < q.1; omega, by show q.2 < src; omega⟩
  | case3 dst src hlt hd hs ih => exact ih
  | case4 dst src hlt => exact List.Pairwise.nil

variable {p q : ℕ × ℕ}

section

variable (hp : p ∈ plan occ dst src)
include hp

section

variable (hq : q ∈ plan occ dst src)
include hq

/-- Two pairs of a plan compare in opposite directions in their holes and
their places. -/
theorem plan_compare :
    p = q ∨ (p.1 < q.1 ∧ q.2 < p.2) ∨ (q.1 < p.1 ∧ p.2 < q.2) := by
  by_cases hpq : p = q
  · exact Or.inl hpq
  refine Or.inr ?_
  have hsym : (plan occ dst src).Pairwise (fun p q =>
      (p.1 < q.1 ∧ q.2 < p.2) ∨ (q.1 < p.1 ∧ p.2 < q.2)) :=
    (plan_pairwise occ dst src).imp fun h => Or.inl h
  have : Std.Symm (fun p q : ℕ × ℕ =>
      (p.1 < q.1 ∧ q.2 < p.2) ∨ (q.1 < p.1 ∧ p.2 < q.2)) := ⟨fun _ _ h => h.symm⟩
  exact hsym.forall hp hq hpq

theorem plan_hole_inj
    (h : p.1 = q.1) : p = q := by
  rcases plan_compare hp hq with heq | hlt | hlt
  · exact heq
  · omega
  · omega

theorem plan_place_inj
    (h : p.2 = q.2) : p = q := by
  rcases plan_compare hp hq with heq | hlt | hlt
  · exact heq
  · omega
  · omega

theorem plan_hole_lt_place : p.1 < q.2 := by
  obtain ⟨_, hp', _⟩ := of_mem_plan hp
  obtain ⟨_, hq', _⟩ := of_mem_plan hq
  rcases plan_compare hp hq with rfl | hlt | hlt
  · exact hp'
  · omega
  · omega

end

end

/-- **Compaction.** After the moves the occupied places between the fingers
are exactly those below some bound. -/
theorem plan_compacts (occ : ℕ → Bool) (dst src : ℕ) : ∃ m, ∀ i, dst ≤ i → i ≤ src →
      ((∃ p ∈ plan occ dst src, p.1 = i) ∨
        (occ i = true ∧ ∀ p ∈ plan occ dst src, p.2 ≠ i) ↔ i < m) := by
  fun_induction plan occ dst src with
  | case1 dst src hlt hd ih =>
      obtain ⟨m, hm⟩ := ih
      refine ⟨max m (dst + 1), fun i h₁ h₂ => ?_⟩
      by_cases hi : i = dst
      · subst hi
        refine iff_of_true (Or.inr ⟨hd, fun p hp heq => ?_⟩) (by omega)
        obtain ⟨h₃, h₄, _⟩ := of_mem_plan hp
        omega
      · rw [hm i (by omega) h₂]
        omega
  | case2 dst src hlt hd hs ih =>
      obtain ⟨m, hm⟩ := ih
      refine ⟨max (min m src) (dst + 1), fun i h₁ h₂ => ?_⟩
      by_cases hi : i = dst
      · exact iff_of_true (Or.inl ⟨_, mem_cons_self, hi.symm⟩) (by omega)
      by_cases his : i = src
      · refine iff_of_false ?_ (by omega)
        rintro (⟨p, hp, heq⟩ | ⟨_, hall⟩)
        · rcases mem_cons.mp hp with rfl | hp
          · exact hi heq.symm
          · obtain ⟨_, h₃, h₄, _⟩ := of_mem_plan hp
            omega
        · exact hall (dst, src) mem_cons_self his.symm
      · rw [show i < max (min m src) (dst + 1) ↔ i < m by omega, ← hm i (by omega) (by omega)]
        refine or_congr ?_ (and_congr_right fun _ => ?_)
        · simp [Ne.symm hi]
        · simp [Ne.symm his]
  | case3 dst src hlt hd hs ih =>
      obtain ⟨m, hm⟩ := ih
      refine ⟨min m src, fun i h₁ h₂ => ?_⟩
      by_cases his : i = src
      · refine iff_of_false ?_ (by omega)
        rintro (⟨p, hp, heq⟩ | ⟨hocc, _⟩)
        · obtain ⟨_, h₃, h₄, _⟩ := of_mem_plan hp
          omega
        · rw [his] at hocc
          exact hs hocc
      · rw [hm i h₁ (by omega)]
        omega
  | case4 dst src hlt =>
      by_cases hd : occ dst = true
      · refine ⟨dst + 1, fun i h₁ h₂ => ?_⟩
        have hi : i = dst := by omega
        simp [hi, hd]
      · refine ⟨dst, fun i h₁ h₂ => ?_⟩
        have hi : i = dst := by omega
        simp [hi, hd]

/-! ## §3  A closed form

The `k`-th hole from the left is paired with the `k`-th occupied place from
the right, as long as it lies below it. -/

/-- How many of the places `a, …, b - 1` meet `p`. -/
def tally (p : ℕ → Bool) (a b : ℕ) : ℕ :=
  (List.range' a (b - a)).countP p

variable {a b : ℕ}

theorem tally_of_le {p : ℕ → Bool} (h : b ≤ a) : tally p a b = 0 := by
  rw [tally, Nat.sub_eq_zero_of_le h]
  rfl

theorem tally_left {p : ℕ → Bool} (h : a < b) :
    tally p a b = tally p (a + 1) b + if p a then 1 else 0 := by
  rw [tally, show b - a = (b - (a + 1)) + 1 by omega, range'_succ, countP_cons]
  rfl

theorem tally_right {p : ℕ → Bool} (h : a ≤ b) :
    tally p a (b + 1) = tally p a b + if p b then 1 else 0 := by
  rw [tally, show b + 1 - a = (b - a) + 1 by omega, range'_concat,
    countP_append, Nat.one_mul, Nat.add_sub_cancel' h]
  simp [tally, countP_cons]

/-- **Closed form of the plan.** -/
theorem mem_plan_iff {dst src d s : ℕ} : (d, s) ∈ plan occ dst src ↔
      dst ≤ d ∧ d < s ∧ s ≤ src ∧ occ d = false ∧ occ s = true ∧
        tally (fun i => !occ i) dst d = tally occ (s + 1) (src + 1) := by
  fun_induction plan occ dst src with
  | case1 dst src hlt hd ih =>
      rw [ih]
      constructor
      · rintro ⟨h₁, h₂, h₃, h₄, h₅, h₆⟩
        refine ⟨by omega, h₂, h₃, h₄, h₅, ?_⟩
        rw [tally_left (by omega), hd, ← h₆]
        simp
      rintro ⟨h₁, h₂, h₃, h₄, h₅, h₆⟩
      have hne : d ≠ dst := by
        rintro rfl
        rw [hd] at h₄
        cases h₄
      rw [tally_left (by omega), hd] at h₆
      exact ⟨by omega, h₂, h₃, h₄, h₅, by simpa using h₆⟩
  | case2 dst src hlt hd hs ih =>
      have hd' : occ dst = false := Bool.eq_false_iff.mpr hd
      rw [mem_cons, ih]
      constructor
      · rintro (heq | ⟨h₁, h₂, h₃, h₄, h₅, h₆⟩)
        · cases heq
          exact ⟨Nat.le_refl _, hlt, Nat.le_refl _, hd', hs,
            by rw [tally_of_le (Nat.le_refl _), tally_of_le (Nat.le_refl _)]⟩
        · refine ⟨by omega, h₂, by omega, h₄, h₅, ?_⟩
          rw [tally_left (by omega), hd', tally_right (by omega), hs, h₆,
            show src - 1 + 1 = src by omega]
          simp
      · rintro ⟨h₁, h₂, h₃, h₄, h₅, h₆⟩
        by_cases hdd : d = dst
        · -- the first hole goes with the last occupied place
          left
          by_cases hss : s = src
          · rw [hdd, hss]
          · rw [hdd, tally_of_le (Nat.le_refl _), tally_right (by omega), hs] at h₆
            simp at h₆
        · right
          by_cases hss : s = src
          · rw [hss, tally_of_le (Nat.le_refl _), tally_left (by omega), hd'] at h₆
            simp at h₆
          · rw [tally_left (by omega), hd', tally_right (by omega), hs] at h₆
            refine ⟨by omega, h₂, by omega, h₄, h₅, ?_⟩
            rw [show src - 1 + 1 = src by omega]
            simpa using h₆
  | case3 dst src hlt hd hs ih =>
      have hs' : occ src = false := Bool.eq_false_iff.mpr hs
      rw [ih, show src - 1 + 1 = src by omega]
      constructor
      · rintro ⟨h₁, h₂, h₃, h₄, h₅, h₆⟩
        refine ⟨h₁, h₂, by omega, h₄, h₅, ?_⟩
        rw [tally_right (by omega), hs', h₆]
        simp
      rintro ⟨h₁, h₂, h₃, h₄, h₅, h₆⟩
      have hne : s ≠ src := by
        rintro rfl
        exact hs h₅
      rw [tally_right (by omega), hs'] at h₆
      exact ⟨h₁, h₂, by omega, h₄, h₅, by simpa using h₆⟩
  | case4 dst src hlt =>
      constructor
      · intro h
        cases h
      · rintro ⟨h₁, h₂, h₃, _⟩
        omega

end Ollama.Lib.TwoFinger
