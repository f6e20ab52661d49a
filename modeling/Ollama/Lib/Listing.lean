import Mathlib.Data.List.Sort

/-!
# Directories

A directory is the list of its files, in the order of their names, each name with its content.
-/

namespace Ollama.Lib.Listing

open List

variable {κ υ : Type} [DecidableEq κ]

/-! ## §1  Definitions -/

/-- The content of the file `k`. -/
def get (l : List (κ × υ)) (k : κ) : Option υ := (l.find? fun e => e.1 = k).map Prod.snd

/-- The first file whose name has the property `p`. -/
def pick (p : κ → Bool) (l : List (κ × υ)) : Option (κ × υ) := l.find? fun e => p e.1

/-- The file `k`, new or not, with the content `v`. -/
def write (le : κ → κ → Prop) [DecidableRel le] (l : List (κ × υ)) (k : κ) (v : υ) : List (κ × υ) :=
  if l.any fun e => e.1 = k then l.map fun e => if e.1 = k then (k, v) else e
  else l.orderedInsert (fun a b => le a.1 b.1) (k, v)

def remove (l : List (κ × υ)) (k : κ) : List (κ × υ) := l.filter fun e => e.1 ≠ k

/-! ## §2  The first file -/

variable {le : κ → κ → Prop} [DecidableRel le] {p : κ → Bool} {l : List (κ × υ)} {k : κ} {v w : υ}

theorem get_of_pick (h : pick p l = some (k, v)) : get l k = some v := by
  unfold pick at h
  unfold get
  induction l with
  | nil => cases h
  | cons e l ih =>
    rw [find?_cons] at h ⊢
    by_cases hk : e.1 = k
    · rw [decide_eq_true hk]
      split at h
      · cases h
        rfl
      · next hp =>
        -- the file that was picked has the same name
        have hpick := find?_some h
        rw [hk] at hp
        exact absurd hpick (by rw [hp]; exact Bool.false_ne_true)
    · rw [decide_eq_false hk]
      split at h
      · cases h
        exact absurd rfl hk
      · exact ih h

theorem get_of_pick_none (h : pick p l = none) (hk : p k = true) : get l k = none := by
  unfold get
  rw [Option.map_eq_none_iff, find?_eq_none]
  intro e he heq
  have hnone := find?_eq_none.mp h e he
  rw [of_decide_eq_true heq] at hnone
  exact hnone hk

omit [DecidableEq κ] in
theorem pick_name (h : pick p l = some (k, v)) : p k = true :=
  find?_some (p := fun e : κ × υ => p e.1) h

omit [DecidableEq κ] in
theorem find_orderedInsert {r : κ × υ → κ × υ → Prop} [DecidableRel r] {q : κ × υ → Bool}
    {e : κ × υ} (he : q e = false) : (l.orderedInsert r e).find? q = l.find? q := by
  induction l with
  | nil =>
    rw [orderedInsert_nil, find?_cons_of_neg (by rw [he]; exact Bool.false_ne_true)]
  | cons d l ih =>
    rw [orderedInsert_cons]
    split
    · rw [find?_cons_of_neg (by rw [he]; exact Bool.false_ne_true)]
    · rw [find?_cons, find?_cons, ih]

omit [DecidableEq κ] in
theorem find_orderedInsert_self {r : κ × υ → κ × υ → Prop} [DecidableRel r] {q : κ × υ → Bool}
    {e : κ × υ} (he : q e = true) (hnone : l.find? q = none) :
    (l.orderedInsert r e).find? q = some e := by
  induction l with
  | nil => rw [orderedInsert_nil, find?_cons_of_pos he]
  | cons d l ih =>
    rw [find?_cons] at hnone
    split at hnone
    · cases hnone
    rename_i hd
    rw [orderedInsert_cons]
    split
    · exact find?_cons_of_pos he
    · rw [find?_cons, hd]
      exact ih hnone

/-- What is written is picked, at the name that was picked before. -/
theorem pick_write (hp : p k = true) (h : ∀ e, pick p l = some e → e.1 = k) :
    pick p (write le l k v) = some (k, v) := by
  unfold write pick
  cases hfind : pick p l with
  | none =>
    have hany : ¬(l.any fun e => e.1 = k) = true := by
      rw [any_eq_true]
      rintro ⟨e, he, heq⟩
      have hnone := find?_eq_none.mp hfind e he
      rw [of_decide_eq_true heq] at hnone
      exact hnone hp
    rw [if_neg hany]
    exact find_orderedInsert_self hp hfind
  | some e =>
    have hk := h e hfind
    have hany : (l.any fun e => e.1 = k) = true :=
      any_eq_true.mpr ⟨e, mem_of_find?_eq_some hfind, decide_eq_true hk⟩
    have hsame : (fun e : κ × υ => p (if e.1 = k then (k, v) else e).1) = fun e => p e.1 := by
      funext e
      split
      · next heq => rw [heq]
      · rfl
    rw [if_pos hany, find?_map]
    show ((l.find? fun e => p (if e.1 = k then (k, v) else e).1).map _) = _
    rw [hsame]
    show (pick p l).map _ = _
    rw [hfind, Option.map_some, if_pos hk]

/-- What is written under another name is not picked. -/
theorem pick_write_other (hp : p k = false) : pick p (write le l k v) = pick p l := by
  unfold write pick
  split
  · rw [find?_map]
    have hsame : (fun e : κ × υ => p (if e.1 = k then (k, v) else e).1) = fun e => p e.1 := by
      funext e
      split
      · next heq => rw [heq]
      · rfl
    show ((l.find? fun e => p (if e.1 = k then (k, v) else e).1).map _) = _
    rw [hsame]
    cases hfind : l.find? fun e => p e.1 with
    | none => rfl
    | some e =>
      have hne : e.1 ≠ k := fun heq => by
        have hpe := find?_some hfind
        simp only [heq, hp] at hpe
        cases hpe
      rw [Option.map_some, if_neg hne]
  · exact find_orderedInsert hp

theorem pick_remove_other (hp : p k = false) : pick p (remove l k) = pick p l := by
  unfold remove pick
  rw [find?_filter]
  congr 1
  funext e
  by_cases heq : e.1 = k
  · simp [heq, hp]
  · simp [heq]

theorem pick_remove (h : ∀ e ∈ l, p e.1 = true → e.1 = k) : pick p (remove l k) = none := by
  unfold remove pick
  rw [find?_eq_none]
  intro e he hpe
  obtain ⟨hmem, hne⟩ := mem_filter.mp he
  exact of_decide_eq_true hne (h e hmem hpe)

end Ollama.Lib.Listing
