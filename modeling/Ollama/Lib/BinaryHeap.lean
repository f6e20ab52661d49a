import Mathlib

/-!
# Binary heaps: `container/heap`

A heap is what its slice holds below its length.
-/

namespace Ollama.Lib.BinaryHeap

open List

variable {α κ : Type*} [LinearOrder κ] (key : α → κ)

/-! ## §1  Down and up -/

def swap (h : ℕ → α) (i j : ℕ) : ℕ → α := h ∘ Equiv.swap i j

def child (n : ℕ) (h : ℕ → α) (i : ℕ) : ℕ :=
  if 2 * i + 2 < n ∧ key (h (2 * i + 2)) < key (h (2 * i + 1)) then 2 * i + 2 else 2 * i + 1

theorem child_cases (n : ℕ) (h : ℕ → α) (i : ℕ) : (child key n h i = 2 * i + 1 ∧
        (2 * i + 2 < n → key (h (2 * i + 1)) ≤ key (h (2 * i + 2)))) ∨
      (child key n h i = 2 * i + 2 ∧ 2 * i + 2 < n ∧
        key (h (2 * i + 2)) < key (h (2 * i + 1))) := by
  rw [child]
  split
  · rename_i hright
    exact Or.inr ⟨rfl, hright⟩
  · rename_i hright
    refine Or.inl ⟨rfl, fun hn => ?_⟩
    exact not_lt.mp fun hlt => hright ⟨hn, hlt⟩

theorem lt_child (n : ℕ) (h : ℕ → α) (i : ℕ) : i < child key n h i := by
  rcases child_cases key n h i with ⟨hj, -⟩ | ⟨hj, -⟩ <;> omega

theorem child_lt {n i : ℕ} (h : ℕ → α) (hn : 2 * i + 1 < n) : child key n h i < n := by
  rcases child_cases key n h i with ⟨hj, -⟩ | ⟨hj, hlt, -⟩ <;> omega

def down (n : ℕ) (h : ℕ → α) (i : ℕ) : ℕ → α :=
  if 2 * i + 1 < n then
    if key (h (child key n h i)) < key (h i) then
      down n (swap h i (child key n h i)) (child key n h i)
    else h
  else h
termination_by n - i
decreasing_by
  have hgt := lt_child key n h i
  omega

def up (h : ℕ → α) (j : ℕ) : ℕ → α :=
  if (j - 1) / 2 = j ∨ ¬ key (h j) < key (h ((j - 1) / 2)) then h
  else up (swap h ((j - 1) / 2) j) ((j - 1) / 2)
termination_by j
decreasing_by omega

/-- The loop of `heap.Init` from `i` down. -/
def initFrom (n : ℕ) : ℕ → (ℕ → α) → ℕ → α
  | 0, h => h
  | i + 1, h => initFrom n i (down key n h i)

/-! ## §2  What they keep -/

/-- `h'` has the elements of `h` in other places below `n`. -/
def Shuffles (n : ℕ) (h h' : ℕ → α) : Prop :=
  ∃ σ : Equiv.Perm ℕ, (∀ k, n ≤ k → σ k = k) ∧ h' = h ∘ σ

variable {key}

theorem Shuffles.refl (n : ℕ) (h : ℕ → α) : Shuffles n h h := ⟨Equiv.refl ℕ, fun _ _ => rfl, rfl⟩

theorem Shuffles.trans {n : ℕ} {h h' h'' : ℕ → α} (h₁ : Shuffles n h h')
    (h₂ : Shuffles n h' h'') : Shuffles n h h'' := by
  obtain ⟨σ, hσ, rfl⟩ := h₁
  obtain ⟨τ, hτ, rfl⟩ := h₂
  refine ⟨τ.trans σ, fun k hk => ?_, rfl⟩
  rw [Equiv.trans_apply, hτ k hk, hσ k hk]

theorem shuffles_swap {n i j : ℕ} (h : ℕ → α) (hi : i < n) (hj : j < n) :
    Shuffles n h (swap h i j) := by
  refine ⟨Equiv.swap i j, fun k hk => ?_, rfl⟩
  exact Equiv.swap_apply_of_ne_of_ne (hi.trans_le hk).ne' (hj.trans_le hk).ne'

theorem shuffles_down (n : ℕ) (h : ℕ → α) (i : ℕ) : Shuffles n h (down key n h i) := by
  induction h, i using down.induct key n with
  | case1 h i hn hlt ih =>
    rw [down, if_pos hn, if_pos hlt]
    refine (shuffles_swap h ?_ (child_lt key h hn)).trans ih
    exact (lt_child key n h i).trans (child_lt key h hn)
  | case2 h i hn hlt =>
    rw [down, if_pos hn, if_neg hlt]
    exact Shuffles.refl n h
  | case3 h i hn =>
    rw [down, if_neg hn]
    exact Shuffles.refl n h

variable {n j : ℕ}

theorem shuffles_up (h : ℕ → α) (hj : j < n) : Shuffles n h (up key h j) := by
  induction h, j using up.induct key with
  | case1 h j hstop =>
    rw [up, if_pos hstop]
    exact Shuffles.refl n h
  | case2 h j hgo ih =>
    have hparent : (j - 1) / 2 < n := by omega
    rw [up, if_neg hgo]
    exact (shuffles_swap h hparent hj).trans (ih hparent)

theorem shuffles_initFrom (n i : ℕ) (h : ℕ → α) : Shuffles n h (initFrom key n i h) := by
  induction i generalizing h with
  | zero => exact Shuffles.refl n h
  | succ i ih => exact (shuffles_down n h i).trans (ih _)

theorem Shuffles.perm {n : ℕ} {h h' : ℕ → α} (hs : Shuffles n h h') :
    ((List.range n).map h').Perm ((List.range n).map h) := by
  obtain ⟨σ, hσ, rfl⟩ := hs
  rw [← map_map]
  refine List.Perm.map h ?_
  -- the places below `n` go to places below `n`
  have hinv : ∀ k, n ≤ k → σ.symm k = k := fun k hk => by rw [Equiv.symm_apply_eq, hσ k hk]
  refine (perm_ext_iff_of_nodup (nodup_range.map σ.injective) nodup_range).mpr ?_
  intro k
  rw [mem_map, mem_range]
  constructor
  · rintro ⟨i, hi, rfl⟩
    by_contra hn
    have hfix := hσ _ (not_lt.mp hn)
    rw [σ.injective hfix] at hn
    exact hn (mem_range.mp hi)
  · intro hk
    refine ⟨σ.symm k, mem_range.mpr ?_, σ.apply_symm_apply k⟩
    by_contra hn
    have hfix := hinv _ (not_lt.mp hn)
    rw [σ.symm.injective hfix] at hn
    exact hn hk

theorem Shuffles.frame {n k : ℕ} {h h' : ℕ → α} (hs : Shuffles n h h') (hk : n ≤ k) :
    h' k = h k := by
  obtain ⟨σ, hσ, rfl⟩ := hs
  rw [Function.comp, hσ k hk]

/-! ## §3  Order -/

@[simp] theorem swap_left (h : ℕ → α) (i j : ℕ) : swap h i j i = h j := by
  rw [swap, Function.comp, Equiv.swap_apply_left]

@[simp] theorem swap_right (h : ℕ → α) (i j : ℕ) : swap h i j j = h i := by
  rw [swap, Function.comp, Equiv.swap_apply_right]

variable {h : ℕ → α}

theorem swap_of_ne {i j k : ℕ} (hi : k ≠ i) (hj : k ≠ j) : swap h i j k = h k := by
  rw [swap, Function.comp, Equiv.swap_apply_of_ne_of_ne hi hj]

variable (key)

/-- No parent from `lo` on is greater than its child. -/
def OrderedFrom (lo n : ℕ) (h : ℕ → α) : Prop :=
  ∀ j, 0 < j → j < n → lo ≤ (j - 1) / 2 → key (h ((j - 1) / 2)) ≤ key (h j)

abbrev Ordered (n : ℕ) (h : ℕ → α) : Prop := OrderedFrom key 0 n h

/-- Only the parent `i` may be greater than its children, and these may go up. -/
structure DownReady (lo n : ℕ) (h : ℕ → α) (i : ℕ) : Prop where
  except : ∀ j, 0 < j → j < n → lo ≤ (j - 1) / 2 → (j - 1) / 2 ≠ i →
    key (h ((j - 1) / 2)) ≤ key (h j)
  grand : ∀ j, 0 < j → j < n → (j - 1) / 2 = i → 0 < i → lo ≤ (i - 1) / 2 →
    key (h ((i - 1) / 2)) ≤ key (h j)

/-- Only the child `j` may be less than its parent, and its children may come under that. -/
structure UpReady (n : ℕ) (h : ℕ → α) (j : ℕ) : Prop where
  except : ∀ i, 0 < i → i < n → i ≠ j → key (h ((i - 1) / 2)) ≤ key (h i)
  grand : ∀ i, 0 < i → i < n → (i - 1) / 2 = j → 0 < j → key (h ((j - 1) / 2)) ≤ key (h i)

variable {key}

theorem DownReady.swap_child {lo n i : ℕ} (hready : DownReady key lo n h i)
    (hlo : lo ≤ i) (hn : 2 * i + 1 < n) (hlt : key (h (child key n h i)) < key (h i)) :
    DownReady key lo n (swap h i (child key n h i)) (child key n h i) := by
  have hsibling : ∀ j, 0 < j → j < n → (j - 1) / 2 = i → key (h (child key n h i)) ≤ key (h j) := by
    intro j hj hjn hparent
    rcases child_cases key n h i with ⟨hc, hle⟩ | ⟨hc, -, hle⟩
    · rcases (by omega : j = 2 * i + 1 ∨ j = 2 * i + 2) with rfl | rfl
      · rw [hc]
      · rw [hc]
        exact hle hjn
    · rcases (by omega : j = 2 * i + 1 ∨ j = 2 * i + 2) with rfl | rfl
      · rw [hc]
        exact hle.le
      · rw [hc]
  have hgt := lt_child key n h i
  have hcn := child_lt key h hn
  have hparent : (child key n h i - 1) / 2 = i := by
    rcases child_cases key n h i with ⟨hc, -⟩ | ⟨hc, -⟩ <;> omega
  generalize child key n h i = c at *
  constructor
  · intro j hj hjn hjlo hjc
    by_cases hpi : (j - 1) / 2 = i
    · rw [hpi, swap_left]
      by_cases hjc' : j = c
      · rw [hjc', swap_right]
        exact hlt.le
      · rw [swap_of_ne (by omega) hjc']
        exact hsibling j hj hjn hpi
    · rw [swap_of_ne hpi hjc]
      by_cases hji : j = i
      · -- what comes to `i` stood under the same parent
        rw [hji, swap_left]
        rw [hji] at hj hjlo
        exact hready.grand c (by omega) hcn hparent hj hjlo
      · rw [swap_of_ne hji fun hjc' => hpi (hjc' ▸ hparent)]
        exact hready.except j hj hjn hjlo hpi
  · intro j hj hjn hjc hc _
    have hjlo : lo ≤ (j - 1) / 2 := hjc ▸ hlo.trans hgt.le
    have hji : (j - 1) / 2 ≠ i := hjc ▸ hgt.ne'
    have hle := hready.except j hj hjn hjlo hji
    rw [hparent, swap_left, swap_of_ne (by omega) (by omega)]
    rwa [hjc] at hle

theorem down_ordered {lo n i : ℕ} (hready : DownReady key lo n h i) (hlo : lo ≤ i) :
    OrderedFrom key lo n (down key n h i) := by
  induction h, i using down.induct key n with
  | case1 h i hn hlt ih =>
    rw [down, if_pos hn, if_pos hlt]
    exact ih (hready.swap_child hlo hn hlt) (hlo.trans (lt_child key n h i).le)
  | case2 h i hn hge =>
    rw [down, if_pos hn, if_neg hge]
    intro j hj hjn hjlo
    by_cases hpi : (j - 1) / 2 = i
    · rw [hpi]
      have hle := not_lt.mp hge
      rcases child_cases key n h i with ⟨hc, hright⟩ | ⟨hc, -, hright⟩
      · rw [hc] at hle
        rcases (by omega : j = 2 * i + 1 ∨ j = 2 * i + 2) with rfl | rfl
        · exact hle
        · exact hle.trans (hright hjn)
      · rw [hc] at hle
        rcases (by omega : j = 2 * i + 1 ∨ j = 2 * i + 2) with rfl | rfl
        · exact hle.trans hright.le
        · exact hle
    · exact hready.except j hj hjn hjlo hpi
  | case3 h i hn =>
    rw [down, if_neg hn]
    exact fun j hj hjn hjlo => hready.except j hj hjn hjlo (by omega)

theorem initFrom_ordered {n i : ℕ} (hfrom : OrderedFrom key i n h) :
    Ordered key n (initFrom key n i h) := by
  induction i generalizing h with
  | zero => exact hfrom
  | succ i ih =>
    refine ih (down_ordered ⟨?_, ?_⟩ le_rfl)
    · exact fun j hj hjn hjlo hji => hfrom j hj hjn (by omega)
    · exact fun j _ _ _ hi hle => absurd hle (by omega)

theorem UpReady.swap_parent (hready : UpReady key n h j) (hjn : j < n)
    (hlt : key (h j) < key (h ((j - 1) / 2))) :
    UpReady key n (swap h ((j - 1) / 2) j) ((j - 1) / 2) := by
  have hj : 0 < j := by
    rcases Nat.eq_zero_or_pos j with rfl | hj
    · exact absurd hlt (lt_irrefl _)
    · exact hj
  constructor
  · intro i hi hin hip
    by_cases hij : i = j
    · rw [hij, swap_left, swap_right]
      exact hlt.le
    rw [swap_of_ne hip hij]
    by_cases hpj : (i - 1) / 2 = j
    · rw [hpj, swap_right]
      exact hready.grand i hi hin hpj hj
    by_cases hpp : (i - 1) / 2 = (j - 1) / 2
    · -- a sibling of `j`
      rw [hpp, swap_left]
      exact hlt.le.trans (hpp ▸ hready.except i hi hin hij)
    · rw [swap_of_ne hpp hpj]
      exact hready.except i hi hin hij
  · intro i hi hin hip hp
    rw [swap_of_ne (by omega) (by omega)]
    have hparent := hready.except ((j - 1) / 2) hp (by omega) (by omega)
    by_cases hij : i = j
    · rw [hij, swap_right]
      exact hparent
    · rw [swap_of_ne (by omega) hij]
      refine hparent.trans ?_
      have hle := hready.except i hi hin hij
      rwa [hip] at hle

theorem up_ordered (hready : UpReady key n h j) (hjn : j < n) : Ordered key n (up key h j) := by
  induction h, j using up.induct key with
  | case1 h j hstop =>
    rw [up, if_pos hstop]
    intro i hi hin _
    by_cases hij : i = j
    · rw [hij]
      rcases hstop with hroot | hge
      · omega
      · exact not_lt.mp hge
    · exact hready.except i hi hin hij
  | case2 h j hgo ih =>
    rw [up, if_neg hgo]
    rw [not_or, not_not] at hgo
    exact ih (hready.swap_parent hjn hgo.2) (by omega)

theorem root_le {n : ℕ} (hordered : Ordered key n h) {i : ℕ} (hi : i < n) :
    key (h 0) ≤ key (h i) := by
  induction i using Nat.strong_induction_on with
  | _ i ih =>
    rcases Nat.eq_zero_or_pos i with rfl | hpos
    · exact le_rfl
    · exact (ih ((i - 1) / 2) (by omega) (by omega)).trans (hordered i hpos hi (Nat.zero_le _))

/-! ## §4  Heaps -/

variable (key)

structure MinHeap where
  size : ℕ
  slice : ℕ → α
  ordered : Ordered key size slice

variable {key}

namespace MinHeap

def toList (h : MinHeap key) : List α := (List.range h.size).map h.slice

/-- `heap.Init` -/
def ofList [Inhabited α] (l : List α) : MinHeap key where
  size := l.length
  slice := initFrom key l.length (l.length / 2) fun i => l.getD i default
  ordered := initFrom_ordered fun _ _ _ _ => absurd ‹_› (by omega)

/-- `heap.Push` -/
def push (h : MinHeap key) (x : α) : MinHeap key where
  size := h.size + 1
  slice := up key (Function.update h.slice h.size x) h.size
  ordered := by
    refine up_ordered ⟨fun i hi hin hne => ?_, fun _ _ _ _ _ => absurd ‹_› (by omega)⟩
      (Nat.lt_succ_self _)
    rw [Function.update_of_ne hne, Function.update_of_ne (by omega)]
    exact h.ordered i hi (by omega) (Nat.zero_le _)

/-- The slice that `heap.Pop` leaves, with what is popped at its end. -/
def popped (h : MinHeap key) : ℕ → α :=
  down key (h.size - 1) (swap h.slice 0 (h.size - 1)) 0

/-- `heap.Pop`, which panics on an empty heap -/
def pop (h : MinHeap key) : Option (α × MinHeap key) :=
  if h.size = 0 then none
  else some (h.popped (h.size - 1), {
    size := h.size - 1
    slice := h.popped
    ordered := by
      refine down_ordered ⟨fun j hj hjn _ hne => ?_, fun _ _ _ _ h0 => absurd h0 (lt_irrefl 0)⟩
        le_rfl
      rw [swap_of_ne hne (by omega), swap_of_ne hj.ne' (by omega)]
      exact h.ordered j hj (by omega) (Nat.zero_le _) })

/-- `h[0]` -/
def root (h : MinHeap key) : Option α := if h.size = 0 then none else some (h.slice 0)

@[simp] theorem length_toList (h : MinHeap key) : h.toList.length = h.size := by
  rw [toList, length_map, length_range]

@[simp] theorem size_ofList [Inhabited α] (l : List α) :
    (@ofList α κ _ key _ l).size = l.length := rfl

theorem ofList_perm [Inhabited α] (l : List α) : (@ofList α κ _ key _ l).toList.Perm l := by
  refine (shuffles_initFrom l.length (l.length / 2) _).perm.trans (List.Perm.of_eq ?_)
  refine ext_getElem (by simp) fun i _ hi => ?_
  rw [getElem_map, getElem_range, List.getD, getElem?_eq_getElem hi, Option.getD_some]

theorem push_perm (h : MinHeap key) (x : α) : (h.push x).toList.Perm (x :: h.toList) := by
  refine (shuffles_up _ (Nat.lt_succ_self h.size)).perm.trans ?_
  rw [range_succ, map_append, map_singleton, Function.update_self]
  refine perm_append_comm.trans (List.Perm.of_eq (congrArg (x :: ·) ?_))
  refine map_congr_left fun i hi => ?_
  exact Function.update_of_ne (mem_range.mp hi).ne _ _

/-- **Popping** takes the root out. -/
theorem pop_spec (h : MinHeap key) (hpos : 0 < h.size) : ∃ x h', h.pop = some (x, h') ∧
    h.root = some x ∧ h.toList.Perm (x :: h'.toList) ∧ h'.size + 1 = h.size := by
  have hne : h.size ≠ 0 := hpos.ne'
  have hlast : h.popped (h.size - 1) = h.slice 0 := by
    rw [popped, (shuffles_down _ _ _).frame le_rfl, swap_right]
  refine ⟨_, _, if_neg hne, ?_, ?_, Nat.sub_add_cancel hpos⟩
  · rw [root, if_neg hne, hlast]
  have hsize : h.size = h.size - 1 + 1 := (Nat.sub_add_cancel hpos).symm
  have hall : Shuffles h.size h.slice h.popped := by
    refine (shuffles_swap h.slice hpos (Nat.pred_lt hne)).trans ?_
    obtain ⟨σ, hσ, hdown⟩ := @shuffles_down α κ _ key (h.size - 1) (swap h.slice 0 (h.size - 1)) 0
    exact ⟨σ, fun k hk => hσ k ((Nat.sub_le _ _).trans hk), hdown⟩
  have hends : (List.range h.size).map h.popped =
      (List.range (h.size - 1)).map h.popped ++ [h.popped (h.size - 1)] := by
    rw [← map_singleton, ← map_append, ← range_succ, Nat.succ_eq_add_one, ← hsize]
  refine hall.perm.symm.trans ?_
  rw [hends]
  exact perm_append_comm

theorem root_spec (h : MinHeap key) (hpos : 0 < h.size) :
    ∃ x, h.root = some x ∧ ∀ y ∈ h.toList, key x ≤ key y := by
  refine ⟨h.slice 0, if_neg hpos.ne', fun y hy => ?_⟩
  obtain ⟨i, hi, rfl⟩ := mem_map.mp hy
  exact root_le h.ordered (mem_range.mp hi)

end MinHeap

end Ollama.Lib.BinaryHeap
