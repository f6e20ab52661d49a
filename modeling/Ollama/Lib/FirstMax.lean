import Mathlib.Data.List.Basic
import Mathlib.Data.List.Induction

/-!
# The first maximum of a list

A loop that walks a list once and remembers the index of the greatest key so
far, replacing it only by a strictly greater one, ends with the first index at
which the greatest key above the starting value stands. Elements without a key
are passed over.
-/

namespace Ollama.Lib.FirstMax

open List

variable {α : Type*}

def step (key : α → Option Int) (best : Int × Option ℕ) (p : α × ℕ) : Int × Option ℕ :=
  match key p.1 with
  | some k => if best.1 < k then (k, some p.2) else best
  | none => best

/-- The loop, starting from the value `floor`. -/
def scan (key : α → Option Int) (floor : Int) (l : List α) : Int × Option ℕ :=
  l.zipIdx.foldl (step key) (floor, none)

/-- `res` is the first maximum of `l` above `floor`. -/
structure IsFirstMax (key : α → Option Int) (floor : Int) (l : List α)
    (res : Int × Option ℕ) : Prop where
  above : ∀ (j : ℕ) a k, l[j]? = some a → key a = some k → k ≤ res.1
  none : res.2 = none → res.1 = floor
  some : ∀ i, res.2 = some i → floor < res.1 ∧ (∃ a, l[i]? = some a ∧ key a = .some res.1) ∧
    ∀ j : ℕ, j < i → ∀ a k, l[j]? = .some a → key a = .some k → k < res.1

theorem scan_snoc (key : α → Option Int) (floor : Int) (l : List α) (a : α) :
    scan key floor (l ++ [a]) = step key (scan key floor l) (a, l.length) := by
  unfold scan
  rw [zipIdx_append, foldl_append]
  simp

theorem getElem?_snoc {l : List α} {a b : α} {j : ℕ} (h : (l ++ [a])[j]? = some b) :
    l[j]? = some b ∨ (j = l.length ∧ b = a) := by
  rcases Nat.lt_trichotomy j l.length with hlt | heq | hgt
  · rw [getElem?_append_left hlt] at h
    exact Or.inl h
  · rw [heq, getElem?_append_right (Nat.le_refl _), Nat.sub_self] at h
    exact Or.inr ⟨heq, (Option.some.inj h).symm⟩
  · rw [getElem?_eq_none (by rw [length_append]; exact hgt)] at h
    cases h

/-- **The loop finds the first maximum.** Induction from the right: the last
element replaces the best one only if it is strictly greater. -/
theorem scan_spec (key : α → Option Int) (floor : Int) (l : List α) :
    IsFirstMax key floor l (scan key floor l) ∧
      ∀ (j : ℕ) a k, l[j]? = some a → key a = some k → floor < k → (scan key floor l).2 ≠ none := by
  induction l using List.reverseRecOn with
  | nil => exact ⟨⟨by simp, fun _ => rfl, fun i h => by cases h⟩, by simp⟩
  | append_singleton l a ih =>
      obtain ⟨⟨habove, hnone, hsome⟩, hfound⟩ := ih
      have hkeep : ∀ i, (scan key floor l).2 = some i → i < l.length := by
        intro i hi
        obtain ⟨_, ⟨b, hb, _⟩, _⟩ := hsome i hi
        exact (List.getElem?_eq_some_iff.mp hb).1
      rw [scan_snoc]
      generalize scan key floor l = best at habove hnone hsome hfound hkeep
      have hold : (∀ k, key a = some k → k ≤ best.1) → IsFirstMax key floor (l ++ [a]) best := by
        intro hle
        refine ⟨?_, hnone, ?_⟩
        · intro j b k hb hk
          rcases getElem?_snoc hb with hb | ⟨_, rfl⟩
          · exact habove j b k hb hk
          · exact hle k hk
        intro i hi
        obtain ⟨hfl, ⟨b, hb, hk⟩, hfirst⟩ := hsome i hi
        have hlt := hkeep i hi
        refine ⟨hfl, ⟨b, by rw [getElem?_append_left hlt]; exact hb, hk⟩, ?_⟩
        intro j hj c k hc hk'
        rw [getElem?_append_left (by omega)] at hc
        exact hfirst j hj c k hc hk'
      unfold step
      cases hkey : key a with
      | none =>
          refine ⟨hold (fun k hk => by rw [hkey] at hk; cases hk), ?_⟩
          intro j b k hb hk hfl
          rcases getElem?_snoc hb with hb | ⟨_, rfl⟩
          · exact hfound j b k hb hk hfl
          · rw [hkey] at hk
            cases hk
      | some k =>
          simp only
          by_cases hlt : best.1 < k
          · rw [if_pos hlt]
            have hfloor : floor ≤ best.1 := by
              cases hb : best.2 with
              | none => exact Int.le_of_eq (hnone hb).symm
              | some i => exact Int.le_of_lt (hsome i hb).1
            refine ⟨⟨?_, fun h => (by cases h), ?_⟩, fun _ _ _ _ _ _ h => by cases h⟩
            · intro j b k' hb hk'
              rcases getElem?_snoc hb with hb | ⟨_, rfl⟩
              · exact Int.le_trans (habove j b k' hb hk') (Int.le_of_lt hlt)
              · rw [hkey] at hk'
                cases hk'
                exact Int.le_refl _
            · intro i hi
              cases hi
              refine ⟨Int.lt_of_le_of_lt hfloor hlt, ⟨a, by simp, hkey⟩, ?_⟩
              intro j hj b k' hb hk'
              have hj' : j < l.length := hj
              rw [getElem?_append_left hj'] at hb
              exact Int.lt_of_le_of_lt (habove j b k' hb hk') hlt
          · rw [if_neg hlt]
            refine ⟨hold (fun k' hk' => ?_), ?_⟩
            · rw [hkey] at hk'
              cases hk'
              exact Int.not_lt.mp hlt
            intro j b k' hb hk' hfl
            rcases getElem?_snoc hb with hb | ⟨_, rfl⟩
            · exact hfound j b k' hb hk' hfl
            · rw [hkey] at hk'
              cases hk'
              intro hbn
              rw [hnone hbn] at hlt
              exact hlt hfl

theorem scan_isFirstMax (key : α → Option Int) (floor : Int) (l : List α) :
    IsFirstMax key floor l (scan key floor l) := (scan_spec key floor l).1

/-- Nothing is found exactly when no key is above the starting value. -/
theorem scan_eq_none {key : α → Option Int} {floor : Int} {l : List α} :
    (scan key floor l).2 = none ↔ ∀ (j : ℕ) a k, l[j]? = some a → key a = some k → k ≤ floor := by
  constructor
  · intro h j a k ha hk
    by_contra hlt
    exact (scan_spec key floor l).2 j a k ha hk (Int.not_le.mp hlt) h
  intro h
  cases hs : (scan key floor l).2 with
  | none => rfl
  | some i =>
      obtain ⟨hfl, ⟨a, ha, hk⟩, _⟩ := (scan_isFirstMax key floor l).some i hs
      have := h i a _ ha hk
      omega

/-- The first maximum is unique. -/
theorem scan_eq_some {key : α → Option Int} {floor : Int} {l : List α} {i : ℕ} {a : α}
    {k : Int} (ha : l[i]? = some a) (hk : key a = some k) (hfl : floor < k)
    (hle : ∀ (j : ℕ) b k', l[j]? = some b → key b = some k' → k' ≤ k)
    (hlt : ∀ j : ℕ, j < i → ∀ b k', l[j]? = some b → key b = some k' → k' < k) :
    scan key floor l = (k, some i) := by
  obtain ⟨habove, _, hsome⟩ := scan_isFirstMax key floor l
  have hfound := (scan_spec key floor l).2 i a k ha hk hfl
  have hge := habove i a k ha hk
  cases hs : (scan key floor l).2 with
  | none => exact absurd hs hfound
  | some i' =>
      obtain ⟨_, ⟨b, hb, hkb⟩, hfirst⟩ := hsome i' hs
      have hbest : (scan key floor l).1 = k := Int.le_antisymm (hle i' b _ hb hkb) hge
      have hii : i' = i := by
        rcases Nat.lt_trichotomy i' i with h | h | h
        · have := hlt i' h b _ hb hkb
          omega
        · exact h
        · have := hfirst i h a k ha hk
          omega
      exact Prod.ext hbest (hs.trans (congrArg some hii))

end Ollama.Lib.FirstMax
