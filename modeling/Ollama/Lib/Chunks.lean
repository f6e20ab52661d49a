import Ollama.Lib.Occurrence

/-!
# Texts that arrive in chunks

A reader keeps what it cannot decide yet in a buffer.
-/

namespace Ollama.Lib

open List

universe u v w

/-! ## §1  Cutting at a mark -/

section Cut

variable {α : Type} [DecidableEq α] {s t a b : List α}

/-- What stands before the first `t`, and what stands after it. -/
def cut (s t : List α) : Option (List α × List α) :=
  (index s t).map fun i => (s.take i, s.drop (i + t.length))

section

variable (ht : t ≠ [])
include ht

theorem cut_eq_some :
    cut s t = some (b, a) ↔ s = b ++ (t ++ a) ∧ ∀ j < b.length, ¬Occurs t s j := by
  unfold cut
  rw [Option.map_eq_some_iff]
  constructor
  · rintro ⟨i, hi, heq⟩
    obtain ⟨ho, hmin⟩ := (index_eq_some ht).mp hi
    cases heq
    refine ⟨ho.eq_append, fun j hj => hmin j ?_⟩
    have := length_take_le i s
    omega
  · rintro ⟨rfl, hmin⟩
    refine ⟨b.length, (index_eq_some ht).mpr ⟨?_, hmin⟩, ?_⟩
    · unfold Occurs
      rw [drop_left]
      exact prefix_append t a
    · rw [take_left, ← drop_drop, drop_left, drop_left]

theorem cut_eq_none : cut s t = none ↔ ∀ i, ¬Occurs t s i := by
  unfold cut
  rw [Option.map_eq_none_iff, index_eq_none ht]

theorem cut_nil : cut [] t = none := by
  refine (cut_eq_none ht).mpr fun i ho => ?_
  have hle := ho.add_le ht
  have hpos := length_pos_iff.mpr ht
  rw [length_nil] at hle
  omega

theorem cut_length (h : cut s t = some (b, a)) :
    s.length = b.length + t.length + a.length := by
  rw [((cut_eq_some ht).mp h).1, length_append, length_append]
  omega

theorem cut_append (h : cut s t = some (b, a)) (u : List α) :
    cut (s ++ u) t = some (b, a ++ u) := by
  have hlen := cut_length ht h
  obtain ⟨rfl, hmin⟩ := (cut_eq_some ht).mp h
  refine (cut_eq_some ht).mpr ⟨?_, fun j hj ho => hmin j hj (ho.of_append ?_)⟩
  · rw [append_assoc, append_assoc]
  · omega

theorem cut_prepend {d : List α} (hd : ∀ i < d.length, ¬Occurs t (d ++ s) i) :
    cut (d ++ s) t = (cut s t).map fun p => (d ++ p.1, p.2) := by
  unfold cut
  rw [index_append ht hd, Option.map_map, Option.map_map]
  congr 1
  funext i
  show ((d ++ s).take (d.length + i), (d ++ s).drop (d.length + i + t.length)) =
    (d ++ s.take i, s.drop (i + t.length))
  rw [take_length_add_append, Nat.add_assoc, drop_length_add_append]

theorem cut_before (h : cut s t = some (b, a)) : cut b t = none := by
  obtain ⟨rfl, hmin⟩ := (cut_eq_some ht).mp h
  refine (cut_eq_none ht).mpr fun i ho => ?_
  have hle := ho.add_le ht
  have := length_pos_iff.mpr ht
  exact hmin i (by omega) (ho.append ht _)

theorem cut_tail {p : List α} (h : cut (p ++ s) t = some (p ++ b, a)) :
    cut s t = some (b, a) := by
  obtain ⟨hs, hmin⟩ := (cut_eq_some ht).mp h
  rw [append_assoc] at hs
  refine (cut_eq_some ht).mpr ⟨append_cancel_left hs, fun j hj ho => ?_⟩
  refine hmin (p.length + j) ?_ ((occurs_append_right p s t j).mpr ho)
  rw [length_append]
  omega

theorem cut_none_of_suffix {u : List α} (h : cut u t = none) (hs : s <:+ u) :
    cut s t = none := by
  obtain ⟨d, rfl⟩ := hs
  refine (cut_eq_none ht).mpr fun i ho => ?_
  exact (cut_eq_none ht).mp h (d.length + i) ((occurs_append_right d s t i).mpr ho)

theorem cut_none_of_front {u : List α} (h : cut u t = none) (hs : s <+: u) :
    cut s t = none := by
  obtain ⟨d, rfl⟩ := hs
  exact (cut_eq_none ht).mpr fun i ho => (cut_eq_none ht).mp h i (ho.append ht d)

end

end Cut

/-! ## §2  The end that may begin a mark -/

section Overlap

variable {α : Type} [DecidableEq α] {s t d a : List α}

def overlapFrom (s t : List α) : ℕ → ℕ
  | 0 => 0
  | i + 1 => if t.take (i + 1) <:+ s then i + 1 else overlapFrom s t i

/-- The length of the longest end of `s` with which `t` begins. -/
def overlap (s t : List α) : ℕ := overlapFrom s t (min t.length s.length)

theorem overlapFrom_le (s t : List α) (n : ℕ) : overlapFrom s t n ≤ n := by
  induction n with
  | zero => exact Nat.le_refl 0
  | succ n ih =>
    unfold overlapFrom
    split
    · exact Nat.le_refl _
    · omega

theorem overlap_le_left (s t : List α) : overlap s t ≤ s.length := by
  have := overlapFrom_le s t (min t.length s.length)
  unfold overlap
  omega

theorem overlap_le_right (s t : List α) : overlap s t ≤ t.length := by
  have := overlapFrom_le s t (min t.length s.length)
  unfold overlap
  omega

theorem overlap_suffix (s t : List α) : t.take (overlap s t) <:+ s := by
  have h : ∀ n, t.take (overlapFrom s t n) <:+ s := by
    intro n
    induction n with
    | zero =>
      exact nil_suffix
    | succ n ih =>
      unfold overlapFrom
      split
      · assumption
      · exact ih
  exact h _

theorem le_overlap {k : ℕ} (hk : k ≤ t.length) (h : t.take k <:+ s) : k ≤ overlap s t := by
  have hle := h.length_le
  rw [length_take, Nat.min_eq_left hk] at hle
  have hgen : ∀ n, k ≤ n → k ≤ overlapFrom s t n := by
    intro n
    induction n with
    | zero => exact fun hn => hn
    | succ n ih =>
      intro hn
      unfold overlapFrom
      split
      · exact hn
      · next hnot =>
        rcases Nat.lt_or_eq_of_le hn with hlt | rfl
        · omega
        · exact absurd h hnot
  exact hgen _ (by omega)

theorem not_occurs_of_overlap (ht : t ≠ []) (hnone : cut s t = none) {i : ℕ}
    (hi : i + overlap s t < s.length) (u : List α) : ¬Occurs t (s ++ u) i := by
  intro ho
  by_cases hle : i + t.length ≤ s.length
  · exact (cut_eq_none ht).mp hnone i (ho.of_append hle)
  · obtain ⟨k, hk, -, hsuf, hlen⟩ := ho.straddle (by omega) (by omega)
    have := le_overlap (by omega) hsuf
    omega

theorem cut_held (ht : t ≠ []) (hnone : cut (d ++ a) t = none)
    (hov : overlap (d ++ a) t ≤ a.length) (u : List α) :
    cut (d ++ (a ++ u)) t = (cut (a ++ u) t).map fun p => (d ++ p.1, p.2) := by
  refine cut_prepend ht fun i hi => ?_
  rw [← append_assoc]
  refine not_occurs_of_overlap ht hnone ?_ u
  rw [length_append]
  omega

theorem overlap_lt (ht : t ≠ []) (hnone : cut s t = none) : overlap s t < t.length := by
  refine Nat.lt_of_le_of_ne (overlap_le_right s t) fun heq => ?_
  obtain ⟨d, hd⟩ := overlap_suffix s t
  rw [heq, take_length] at hd
  refine (cut_eq_none ht).mp hnone d.length ?_
  unfold Occurs
  rw [← hd, drop_left]

theorem drop_overlap (s t : List α) : s.drop (s.length - overlap s t) = t.take (overlap s t) := by
  obtain ⟨d, hd⟩ := overlap_suffix s t
  have hlen := congrArg List.length hd
  have hle := overlap_le_right s t
  rw [length_append, length_take] at hlen
  rw [show s.length - overlap s t = d.length by omega]
  conv_lhs => rw [← hd]
  exact drop_left

omit [DecidableEq α] in
theorem take_suffix_of_append {u : List α} {k : ℕ} (hk : k ≤ t.length) (hu : u.length ≤ k)
    (h : t.take k <:+ s ++ u) : t.take (k - u.length) <:+ s := by
  obtain ⟨e, he⟩ := h
  have hsplit : t.take k = t.take (k - u.length) ++ (t.take k).drop (k - u.length) := by
    conv_lhs => rw [← take_append_drop (k - u.length) (t.take k)]
    rw [take_take, Nat.min_eq_left (Nat.sub_le _ _)]
  rw [hsplit, ← append_assoc] at he
  refine ⟨e, (append_inj' he ?_).1⟩
  rw [length_drop, length_take]
  omega

/-- What is held back is held back again without the text before it. -/
theorem overlap_held (hov : overlap (d ++ a) t ≤ a.length) (u : List α) :
    overlap (d ++ (a ++ u)) t = overlap (a ++ u) t := by
  have hback := overlap_suffix (a ++ u) t
  have hfront := overlap_suffix (d ++ (a ++ u)) t
  have hle := overlap_le_right (d ++ (a ++ u)) t
  refine Nat.le_antisymm ?_ (le_overlap (overlap_le_right _ _) (hback.trans (suffix_append d _)))
  by_cases hlen : overlap (d ++ (a ++ u)) t ≤ (a ++ u).length
  · refine le_overlap hle ?_
    refine suffix_of_suffix_length_le hfront (suffix_append d _) ?_
    exact (length_take_le _ _).trans hlen
  -- the mark would begin before `a` already in the text without `u`
  exfalso
  rw [length_append] at hlen
  rw [← append_assoc] at hfront hle hlen
  have := le_overlap (by omega) (take_suffix_of_append hle (by omega) hfront)
  omega

/-- No end of the text begins a mark. -/
theorem overlap_eq_zero_iff : overlap s t = 0 ↔ ∀ u, u <+: t → u <:+ s → u = [] := by
  constructor
  · intro h u hpre hsuf
    rw [prefix_iff_eq_take.mp hpre] at hsuf
    have hle := le_overlap hpre.length_le hsuf
    exact length_eq_zero_iff.mp (by omega)
  intro h
  have hnil := h _ (List.take_prefix _ t) (overlap_suffix s t)
  have hlen := congrArg List.length hnil
  rw [length_take, length_nil] at hlen
  have := overlap_le_right s t
  omega

/-- A text whose last element is not in the mark holds nothing back. -/
theorem overlap_eq_zero {c : α} (hc : s.getLast? = some c) (ht : c ∉ t) : overlap s t = 0 := by
  by_contra hne
  have hsuf := overlap_suffix s t
  have hle := overlap_le_right s t
  have hnil : t.take (overlap s t) ≠ [] := by
    intro h
    have hlen := congrArg List.length h
    rw [length_take, length_nil] at hlen
    omega
  obtain ⟨d, hd⟩ := hsuf
  rw [← hd, getLast?_append_of_ne_nil _ hnil] at hc
  exact ht (mem_of_mem_take (mem_of_getLast? hc))

end Overlap

/-! ## §3  Marks that never overlap -/

section Marked

variable {α : Type} {c : α} {s t t' : List α} {i j : ℕ}

/-- `t` begins with `c` and has it nowhere else. -/
def Marked (c : α) : List α → Prop
  | [] => False
  | x :: u => x = c ∧ c ∉ u

instance [DecidableEq α] (c : α) (t : List α) : Decidable (Marked c t) :=
  match t with
  | [] => .isFalse id
  | _ :: _ => inferInstanceAs (Decidable (_ ∧ _))

theorem Marked.ne_nil (h : Marked c t) : t ≠ [] := by
  rintro rfl
  exact h

theorem Occurs.getElem? (h : Occurs t s i) {k : ℕ} (hk : k < t.length) : s[i + k]? = t[k]? := by
  obtain ⟨u, hu⟩ := h
  rw [← getElem?_drop, ← hu, getElem?_append_left hk]

theorem Marked.getElem?_zero (h : Marked c t) : t[0]? = some c := by
  cases t with
  | nil => exact h.elim
  | cons x u => rw [getElem?_cons_zero, h.1]

theorem Marked.getElem?_ne (h : Marked c t) {k : ℕ} (hk : 0 < k) : t[k]? ≠ some c := by
  cases t with
  | nil => exact h.elim
  | cons x u =>
    obtain ⟨k, rfl⟩ := Nat.exists_eq_succ_of_ne_zero (by omega : k ≠ 0)
    exact fun hc => h.2 (mem_of_getElem? hc)

theorem Occurs.apart (ht : Marked c t) (ht' : Marked c t') (h : Occurs t s i)
    (h' : Occurs t' s j) (hij : i < j) : i + t.length ≤ j := by
  by_contra hlt
  have hj : s[j]? = t[j - i]? := by
    have := h.getElem? (k := j - i) (by omega)
    rwa [Nat.add_sub_cancel' (by omega : i ≤ j)] at this
  have hc : s[j]? = some c := by
    have := h'.getElem? (k := 0) (length_pos_iff.mpr ht'.ne_nil)
    rwa [Nat.add_zero, ht'.getElem?_zero] at this
  exact ht.getElem?_ne (by omega) (hj.symm.trans hc)

theorem occurs_middle (x t y : List α) : Occurs t (x ++ (t ++ y)) x.length := by
  unfold Occurs
  rw [drop_left]
  exact prefix_append t y

variable [DecidableEq α] {x y a b : List α}

/-- The first `t` in a text with a `t'`: it stands before the `t'` or after it. -/
theorem cut_marked (ht : Marked c t) (ht' : Marked c t') (hne : ¬t <+: t') (hne' : ¬t' <+: t)
    (h : cut (x ++ (t' ++ y)) t = some (b, a)) :
    (∃ d, x = b ++ (t ++ d) ∧ a = d ++ (t' ++ y)) ∨
      ∃ d, y = d ++ (t ++ a) ∧ b = x ++ (t' ++ d) := by
  obtain ⟨hs, -⟩ := (cut_eq_some ht.ne_nil).mp h
  have ho' := occurs_middle x t' y
  have ho : Occurs t (x ++ (t' ++ y)) b.length := by
    rw [hs]
    exact occurs_middle b t a
  rcases Nat.lt_trichotomy b.length x.length with hlt | heq | hlt
  · have hend := ho.apart ht ht' ho' hlt
    have hpre : b ++ t <+: x := by
      have hp : b ++ t <+: x ++ (t' ++ y) := by
        rw [hs, ← append_assoc]
        exact prefix_append _ _
      exact prefix_of_prefix_length_le hp (prefix_append _ _) (by rw [length_append]; exact hend)
    obtain ⟨d, rfl⟩ := hpre
    refine Or.inl ⟨d, append_assoc _ _ _, ?_⟩
    have hs' : b ++ t ++ (d ++ (t' ++ y)) = b ++ t ++ a := by
      rw [← append_assoc, hs, append_assoc]
    exact (append_cancel_left hs').symm
  · rw [heq] at ho
    rcases prefix_or_prefix_of_prefix ho ho' with hp | hp
    · exact absurd hp hne
    · exact absurd hp hne'
  have hend := ho'.apart ht' ht ho hlt
  have hpre : x ++ t' <+: b := by
    have hp : x ++ t' <+: x ++ (t' ++ y) := by
      rw [← append_assoc]
      exact prefix_append _ _
    refine prefix_of_prefix_length_le hp ?_ (by rw [length_append]; exact hend)
    rw [hs]
    exact prefix_append _ _
  obtain ⟨d, rfl⟩ := hpre
  refine Or.inr ⟨d, ?_, append_assoc _ _ _⟩
  have hs' : x ++ t' ++ y = x ++ t' ++ (d ++ (t ++ a)) := by
    rw [append_assoc, hs, append_assoc (x ++ t')]
  exact append_cancel_left hs'

theorem cut_marked_self (ht : Marked c t) : cut (x ++ (t ++ y)) t =
      match cut x t with
      | none => some (x, y)
      | some (b, a) => some (b, a ++ (t ++ y)) := by
  cases h : cut x t with
  | some p => exact cut_append ht.ne_nil h _
  | none =>
    refine (cut_eq_some ht.ne_nil).mpr ⟨rfl, fun j hj ho => ?_⟩
    have hend := ho.apart ht ht (occurs_middle x t y) hj
    exact (cut_eq_none ht.ne_nil).mp h j (ho.of_append hend)

/-- The mark's first element alone is held back. -/
theorem overlap_concat (ht : Marked c t) (s : List α) : overlap (s ++ [c]) t = 1 := by
  have hpos := length_pos_iff.mpr ht.ne_nil
  have hone : t.take 1 <:+ s ++ [c] := by
    have hhead := ht.getElem?_zero
    cases t with
    | nil => exact ht.elim
    | cons x u =>
      cases hhead
      exact suffix_append s [c]
  refine Nat.le_antisymm ?_ (le_overlap hpos hone)
  by_contra hlt
  obtain ⟨d, hd⟩ := overlap_suffix (s ++ [c]) t
  have hle := overlap_le_right (s ++ [c]) t
  generalize overlap (s ++ [c]) t = k at *
  -- the last of the elements that are held back is `c`, and is not the mark's first
  have hlast := congrArg List.getLast? hd
  have hne : t.take k ≠ [] := fun hnil => by
    have hlen := congrArg List.length hnil
    rw [length_take, length_nil] at hlen
    omega
  rw [getLast?_append_of_ne_nil _ hne, getLast?_concat, getLast?_eq_getElem?,
    length_take, Nat.min_eq_left hle, getElem?_take_of_lt (by omega)] at hlast
  exact ht.getElem?_ne (by omega) hlast

end Marked

/-! ## §4  The loop that reads a buffer -/

section Drain

variable {σ : Type u} {ε : Type v} {eat : σ → List ε × σ × Bool}

/-- The loop: eat, collect the events, go on while told to; at most `n` times. -/
def drain (eat : σ → List ε × σ × Bool) : ℕ → σ → List ε × σ
  | 0, s => ([], s)
  | n + 1, s =>
      if (eat s).2.2 then
        ((eat s).1 ++ (drain eat n (eat s).2.1).1, (drain eat n (eat s).2.1).2)
      else ((eat s).1, (eat s).2.1)

theorem drain_succ (n : ℕ) (s : σ) : drain eat (n + 1) s =
      if (eat s).2.2 then
        ((eat s).1 ++ (drain eat n (eat s).2.1).1, (drain eat n (eat s).2.1).2)
      else ((eat s).1, (eat s).2.1) := rfl

theorem drain_more {n : ℕ} {s : σ} (h : (eat s).2.2 = true) : drain eat (n + 1) s =
      ((eat s).1 ++ (drain eat n (eat s).2.1).1, (drain eat n (eat s).2.1).2) := by
  rw [drain_succ, if_pos h]

theorem drain_last {n : ℕ} {s : σ} (h : (eat s).2.2 = false) :
    drain eat (n + 1) s = ((eat s).1, (eat s).2.1) := by
  rw [drain_succ, if_neg (by rw [h]; exact Bool.false_ne_true)]

/-- With turns for a variant the loop ends by itself. -/
theorem drain_enough (μ : σ → ℕ) (hμ : ∀ s, (eat s).2.2 = true → μ (eat s).2.1 < μ s) :
    ∀ n s, μ s < n → drain eat n s = drain eat (μ s + 1) s := by
  intro n
  induction n using Nat.strong_induction_on with
  | _ n ih =>
    intro s hs
    obtain ⟨n, rfl⟩ := Nat.exists_eq_succ_of_ne_zero (by omega : n ≠ 0)
    cases h : (eat s).2.2 with
    | false => rw [drain_last h, drain_last h]
    | true =>
      have hlt := hμ s h
      rw [drain_more h, drain_more h, ih n (by omega) _ (by omega)]
      rcases Nat.lt_or_eq_of_le (Nat.le_of_lt_succ hs) with hlt' | heq
      · rw [ih (μ s) (by omega) _ hlt]
      · rw [heq, ih n (by omega) _ (by omega)]

/-- **Loop rule.** With turns for a variant the loop ends by itself, and what holds of
its last turn and is carried back over each turn holds of it. -/
theorem drain_rule (μ : σ → ℕ) (hμ : ∀ s, (eat s).2.2 = true → μ (eat s).2.1 < μ s)
    {P : σ → List ε → σ → Prop}
    (hlast : ∀ s, (eat s).2.2 = false → P s (eat s).1 (eat s).2.1)
    (hmore : ∀ s es s', (eat s).2.2 = true → P (eat s).2.1 es s' → P s ((eat s).1 ++ es) s') :
    ∀ n s, μ s < n → P s (drain eat n s).1 (drain eat n s).2 := by
  intro n
  induction n with
  | zero => exact fun s hs => absurd hs (Nat.not_lt_zero _)
  | succ n ih =>
    intro s hs
    unfold drain
    cases hmore' : (eat s).2.2 with
    | false => exact hlast s hmore'
    | true =>
      have hlt := hμ s hmore'
      exact hmore s _ _ hmore' (ih _ (by omega))

end Drain

/-! ## §5  Feeding chunks -/

section Feed

variable {σ : Type u} {α : Type v} {ο : Type w}

/-- Chunks in order, the last one marked as such, until an answer halts. -/
def feed (add : σ → List α → Bool → ο × σ) (halts : ο → Bool) : σ → List (List α) → List ο × σ
  | s, [] => ([], s)
  | s, [c] => ([(add s c true).1], (add s c true).2)
  | s, c :: c' :: cs =>
      if halts (add s c false).1 then ([(add s c false).1], (add s c false).2)
      else
        ((add s c false).1 :: (feed add halts (add s c false).2 (c' :: cs)).1,
          (feed add halts (add s c false).2 (c' :: cs)).2)

/-- **Chunk rule.** What holds of one last call, and is carried back over a call before
it, holds of every way to cut the text. -/
theorem feed_rule {add : σ → List α → Bool → ο × σ} {halts : ο → Bool}
    {P : σ → List α → List ο → σ → Prop} {G : σ → List α → Prop}
    (hlast : ∀ s c, G s c → P s c [(add s c true).1] (add s c true).2)
    (hhalt : ∀ s c t, G s (c ++ t) → halts (add s c false).1 = true →
      P s (c ++ t) [(add s c false).1] (add s c false).2)
    (hmore : ∀ s c t, G s (c ++ t) → halts (add s c false).1 = false →
      G (add s c false).2 t ∧ ∀ os s', P (add s c false).2 t os s' →
        P s (c ++ t) ((add s c false).1 :: os) s') :
    ∀ chunks s, chunks ≠ [] → G s chunks.flatten →
      P s chunks.flatten (feed add halts s chunks).1 (feed add halts s chunks).2
  | [], _, hne, _ => absurd rfl hne
  | [c], s, _, hg => by
    rw [flatten_cons, flatten_nil, append_nil] at hg ⊢
    exact hlast s c hg
  | c :: c' :: cs, s, _, hg => by
    rw [flatten_cons] at hg ⊢
    unfold feed
    cases hh : halts (add s c false).1 with
    | true => exact hhalt s c _ hg hh
    | false =>
      obtain ⟨hg', hback⟩ := hmore s c _ hg hh
      exact hback _ _ (feed_rule hlast hhalt hmore (c' :: cs) _ (cons_ne_nil _ _) hg')

end Feed

end Ollama.Lib
