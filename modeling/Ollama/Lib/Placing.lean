import Mathlib.Data.List.Basic
import Mathlib.Tactic.Ring

/-!
# Numberings that are continued

A layout is a list of elements; a placing numbers the items that a layout
expands to. An element of kind `text` is one item and takes the next number,
so that a numbering goes on by ones past its end. Two layouts that begin
alike number alike up to where they part (`Alike.place_eq`).
-/

namespace Ollama.Lib

open List

universe u

/-! ## §1  A list of numbers, continued by ones -/

/-- Number `k` of the list; past its end the last number goes on by ones, and
the empty list is continued from 0. -/
def continued (xs : List ℤ) (k : ℕ) : ℤ :=
  match xs[k]? with
  | some x => x
  | none =>
    match xs.getLast? with
    | some x => k - xs.length + x + 1
    | none => k

@[simp] theorem continued_nil (k : ℕ) : continued [] k = k := rfl

theorem continued_of_prefix {xs ys : List ℤ} (h : xs <+: ys) {k : ℕ} (hk : k < xs.length) :
    continued ys k = continued xs k := by
  obtain ⟨zs, rfl⟩ := h
  unfold continued
  rw [getElem?_append_left hk, getElem?_eq_getElem hk]

theorem continued_past (xs : List ℤ) (x : ℤ) {k : ℕ} (hk : xs.length + 1 ≤ k) :
    continued (xs ++ [x]) k = k - (xs.length + 1) + x + 1 := by
  have hnone : (xs ++ [x])[k]? = none := by simpa using by omega
  unfold continued
  rw [hnone, getLast?_concat, length_append, length_singleton]
  push_cast
  rfl

/-- Writing down the next number changes nothing. -/
theorem continued_snoc (xs : List ℤ) (k : ℕ) :
    continued (xs ++ [continued xs xs.length]) k = continued xs k := by
  rcases lt_trichotomy k xs.length with hk | rfl | hk
  · exact continued_of_prefix (prefix_append ..) hk
  · unfold continued
    rw [getElem?_concat_length]
  rw [continued_past _ _ hk]
  rcases xs.eq_nil_or_concat with rfl | ⟨ys, y, rfl⟩
  · simp
  · rw [concat_eq_append] at hk ⊢
    rw [length_append, length_singleton] at hk ⊢
    rw [continued_past ys y le_rfl, continued_past ys y (by omega)]
    push_cast
    ring

/-! ## §2  Placings -/

/-- How the items that a layout expands to are numbered. What begins a layout
is numbered on its own, and a text takes the next number. -/
structure Placing (κ : Type u) where
  text : κ
  places : List κ → List ℤ
  places_prefix : ∀ a b, places a <+: places (a ++ b)
  places_text : ∀ a, places (a ++ [text]) = places a ++ [continued (places a) (places a).length]

namespace Placing

variable {κ : Type u} (P : Placing κ)

/-- Item `k` of the layout, texts following it without end. -/
def place (L : List κ) (k : ℕ) : ℤ := continued (P.places L) k

theorem place_texts (L : List κ) (n k : ℕ) :
    P.place (L ++ List.replicate n P.text) k = P.place L k := by
  induction n with
  | zero => rw [replicate_zero, append_nil]
  | succ n ih =>
    unfold place at ih ⊢
    rw [replicate_succ', ← append_assoc, P.places_text, continued_snoc, ih]

/-- The layouts have a beginning in common, texts following each, that covers
item `k`. -/
def Alike (L L' : List κ) (k : ℕ) : Prop :=
  ∃ a, (∃ n b, L ++ List.replicate n P.text = a ++ b) ∧
    (∃ n b, L' ++ List.replicate n P.text = a ++ b) ∧ k < (P.places a).length

variable {P}

theorem place_of_beginning {L a b : List κ} {n k : ℕ}
    (h : L ++ List.replicate n P.text = a ++ b) (hk : k < (P.places a).length) :
    P.place L k = P.place a k := by
  rw [← P.place_texts L n, h]
  exact continued_of_prefix (P.places_prefix a b) hk

/-- **Layouts that begin alike number alike.** -/
theorem Alike.place_eq {L L' : List κ} {k : ℕ} (h : P.Alike L L' k) :
    P.place L k = P.place L' k := by
  obtain ⟨a, ⟨n, b, hL⟩, ⟨n', b', hL'⟩, hk⟩ := h
  rw [place_of_beginning hL hk, place_of_beginning hL' hk]

variable (P)

theorem Alike.refl (L : List κ) (k : ℕ) : P.Alike L L k := by
  have hgrow : ∀ n, n ≤ (P.places (L ++ List.replicate n P.text)).length := by
    intro n
    induction n with
    | zero => exact Nat.zero_le _
    | succ n ih =>
      rw [replicate_succ', ← append_assoc, P.places_text, length_append]
      simpa using ih
  exact ⟨L ++ List.replicate (k + 1) P.text, ⟨k + 1, [], by simp⟩, ⟨k + 1, [], by simp⟩,
    hgrow (k + 1)⟩

/-! ## §3  Items that have moved -/

/-- Where an item comes from: its layout, its number among the items of the
layout, and how many items before it have been removed. -/
structure Origin (κ : Type u) where
  own : List κ
  index : ℕ
  removed : ℕ
deriving DecidableEq, Repr

def placeOf (v : Origin κ) : ℤ := P.place v.own v.index - v.removed

/-- Both items stand at `k`, and either nothing has moved and their layouts
begin alike, or there is nothing but text up to each. -/
def Agree (v w : Origin κ) (k : ℕ) : Prop :=
  v.index = k + v.removed ∧ w.index = k + w.removed ∧
    ((v.removed = 0 ∧ w.removed = 0 ∧ P.Alike v.own w.own k) ∨
      (P.Alike v.own [] v.index ∧ P.Alike w.own [] w.index))

variable {P}

theorem place_nil (h : P.places [] = []) (k : ℕ) : P.place [] k = k := by
  unfold place
  rw [h, continued_nil]

/-- **Items that agree have the same number.** -/
theorem Agree.placeOf_eq (hnil : P.places [] = []) {v w : Origin κ} {k : ℕ}
    (h : P.Agree v w k) : P.placeOf v = P.placeOf w := by
  obtain ⟨hv, hw, ⟨hv0, hw0, halike⟩ | ⟨hvt, hwt⟩⟩ := h
  · unfold placeOf
    rw [hv, hw, hv0, hw0, Nat.add_zero, halike.place_eq]
  · unfold placeOf
    rw [hvt.place_eq, hwt.place_eq, place_nil hnil, place_nil hnil, hv, hw]
    push_cast
    ring

end Placing

end Ollama.Lib
