import Mathlib

/-!
# A ring that keeps the newest elements

Cells in a circle, a free cell being `none`, and an index that the next
element is written to. Read from that index on, a ring in order shows its free
cells first and then its elements, oldest first: so the next element takes a
free cell while there is one, and else the place of the oldest. Writing keeps
this order. Taking elements away keeps it when those that stay are next to
each other, and the index is set to the first free cell of a circle whose
free cells do not run over its end.
-/

namespace Ollama.Lib.Ring

open List List

variable {α : Type*} [LinearOrder α]

/-! ## §1  The order -/

/-- The ring holds `kept`, oldest first, and its free cells stand between
`next` and the oldest. -/
structure Holds (cells : List (Option α)) (next : ℕ) (kept : List α) : Prop where
  sorted : kept.Pairwise (· < ·)
  bound : next < cells.length
  order : ∃ g, cells.rotate next = replicate g none ++ kept.map some

variable {cells : List (Option α)} {next : ℕ} {kept : List α}

theorem holds_replicate {n : ℕ} (hn : 0 < n) : Holds (replicate n (none : Option α)) 0 [] where
  sorted := .nil
  bound := by rw [length_replicate]; exact hn
  order := ⟨n, by rw [rotate_zero, map_nil, append_nil]⟩

theorem Holds.mem (h : Holds cells next kept) {a : α} : some a ∈ cells ↔ a ∈ kept := by
  obtain ⟨g, hg⟩ := h.order
  rw [← mem_rotate (n := next), hg]
  simp [mem_replicate]

theorem Holds.perm (h : Holds cells next kept) : (cells.filterMap id).Perm kept := by
  obtain ⟨g, hg⟩ := h.order
  have hperm := ((cells.rotate_perm next).filterMap id).symm
  have hfree : (replicate g (none : Option α)).filterMap id = [] := by
    refine filterMap_eq_nil_iff.mpr fun c hc => ?_
    rw [eq_of_mem_replicate hc]
    rfl
  rw [hg, filterMap_append, hfree, nil_append] at hperm
  simpa using hperm

theorem Holds.length_eq (h : Holds cells next kept) : ∃ g, cells.length = g + kept.length ∧
      cells.rotate next = replicate g none ++ kept.map some := by
  obtain ⟨g, hg⟩ := h.order
  refine ⟨g, ?_, hg⟩
  have := congrArg length hg
  simpa using this

/-! ## §2  Writing -/

/-- Writing to the cell an order begins with moves the beginning on by one. -/
theorem set_rotate {β : Type*} {l : List β} {i : ℕ} (hi : i < l.length) (b : β) :
    ∃ rest, l.rotate i = l[i] :: rest ∧ (l.set i b).rotate (i + 1) = rest ++ [b] := by
  refine ⟨l.drop (i + 1) ++ l.take i, ?_, ?_⟩
  · rw [rotate_eq_drop_append_take (Nat.le_of_lt hi), drop_eq_getElem_cons hi]
    rfl
  have hlen : i + 1 ≤ (l.set i b).length := by
    rw [length_set]
    exact hi
  rw [rotate_eq_drop_append_take hlen, drop_set, if_pos (Nat.lt_succ_self i),
    take_add_one, take_set, getElem?_set_self hi]
  rw [set_eq_of_length_le (by rw [length_take]; exact Nat.min_le_left _ _)]
  simp

/-- **Writing keeps the order.** A new greatest element comes last; without
a free cell the oldest goes. -/
theorem Holds.write (h : Holds cells next kept) {a : α} (hnew : ∀ b ∈ kept, b < a) :
    Holds (cells.set next (some a)) ((next + 1) % cells.length)
      ((kept ++ [a]).drop (kept.length + 1 - cells.length)) := by
  have hsorted : (kept ++ [a]).Pairwise (· < ·) := by
    refine pairwise_append.mpr ⟨h.sorted, pairwise_singleton _ _, ?_⟩
    intro b hb c hc
    rw [mem_singleton.mp hc]
    exact hnew b hb
  have hpos : 0 < cells.length := Nat.lt_of_le_of_lt (Nat.zero_le _) h.bound
  refine ⟨hsorted.sublist (drop_sublist _ _), ?_, ?_⟩
  · rw [length_set]
    exact Nat.mod_lt _ hpos
  obtain ⟨g, hlen, hg⟩ := h.length_eq
  obtain ⟨rest, hrest, hset⟩ := set_rotate h.bound (some a)
  have hmod : (cells.set next (some a)).rotate ((next + 1) % cells.length) = rest ++ [some a] := by
    rw [← hset, ← rotate_mod (cells.set next (some a)) (next + 1), length_set]
  rw [hmod]
  rw [hrest] at hg
  cases g with
  | zero =>
      -- no free cell: the oldest element stood at `next`
      cases kept with
      | nil => simp at hg
      | cons b kept =>
          obtain ⟨_, rfl⟩ := cons.inj hg
          have hdrop : (b :: kept).length + 1 - cells.length = 1 := by omega
          rw [hdrop]
          simp
  | succ g =>
      obtain ⟨_, rfl⟩ := cons.inj hg
      have hdrop : kept.length + 1 - cells.length = 0 := by omega
      rw [hdrop]
      simp

/-- **What is overwritten**: an element only if no cell is free, and then the
oldest. -/
theorem Holds.overwritten (h : Holds cells next kept) {a : α} (ha : cells[next]? = some (some a)) :
    none ∉ cells ∧ ∀ b, some b ∈ cells → a ≤ b := by
  obtain ⟨g, hg⟩ := h.order
  have hhead := head?_rotate h.bound
  rw [ha, hg] at hhead
  cases g with
  | succ g => cases hhead
  | zero =>
      cases kept with
      | nil => cases hhead
      | cons b kept =>
          obtain rfl : b = a := by simpa using hhead
          constructor
          · intro hnone
            rw [← mem_rotate (n := next), hg] at hnone
            simp at hnone
          · intro c hc
            rcases mem_cons.mp (h.mem.mp hc) with rfl | hc
            · exact le_refl _
            · exact le_of_lt (rel_of_pairwise_cons h.sorted hc)

/-! ## §3  Taking away -/

/-- `next` is the first free cell, or the least element if none is free. -/
structure Rescanned (cells : List (Option α)) (next : ℕ) : Prop where
  bound : next < cells.length
  free : none ∈ cells → cells[next]? = some none ∧ ∀ j < next, cells[j]? ≠ some none
  full : none ∉ cells → ∀ a b, cells[next]? = some (some a) → some b ∈ cells → a ≤ b

def OpenEnded (cells : List (Option α)) : Prop :=
  cells.head? = some none ∧ cells.getLast? = some none ∧ ∃ a, some a ∈ cells

/-- The first free cell comes after the elements before it. -/
theorem Rescanned.eq_of_free (h : Rescanned cells next) {front : List α}
    {rest : List (Option α)} (hcells : cells = front.map some ++ none :: rest) :
    next = front.length := by
  have hnone : none ∈ cells := by simp [hcells]
  obtain ⟨hnext, hfirst⟩ := h.free hnone
  have hat : cells[front.length]? = some none := by simp [hcells]
  rcases Nat.lt_trichotomy next front.length with hlt | heq | hgt
  · rw [hcells, getElem?_append_left (by simpa using hlt), getElem?_map] at hnext
    rw [getElem?_eq_getElem hlt] at hnext
    cases hnext
  · exact heq
  · exact absurd hat (hfirst _ hgt)

/-- The least element is where an ascending order begins. -/
theorem Rescanned.eq_of_full (h : Rescanned cells next) {newer older : List α} {a : α}
    (hcells : cells = newer.map some ++ (a :: older).map some)
    (hsorted : (a :: older ++ newer).Pairwise (· < ·)) : next = newer.length := by
  have hfull : none ∉ cells := by simp [hcells]
  have hleast : ∀ b, some b ∈ cells → a ≤ b := by
    intro b hb
    have hb' : b = a ∨ b ∈ older ++ newer := by
      rw [hcells] at hb
      simp only [map_cons, mem_append, mem_cons, mem_map, Option.some.injEq, exists_eq_right] at hb
      rcases hb with hb | hb | hb
      · exact Or.inr (mem_append_right _ hb)
      · exact Or.inl hb
      · exact Or.inr (mem_append_left _ hb)
    rcases hb' with rfl | hb'
    · exact le_refl _
    · exact le_of_lt (rel_of_pairwise_cons hsorted hb')
  have hat : cells[newer.length]? = some (some a) := by simp [hcells]
  have hnodup : cells.Nodup := by
    have hnd : (newer ++ a :: older).Nodup := by
      have : (a :: older ++ newer).Nodup := hsorted.imp fun hab => ne_of_lt hab
      exact (perm_append_comm.nodup_iff).mp this
    rw [hcells, ← map_append]
    exact hnd.map fun _ _ => Option.some.inj
  obtain ⟨c, hcell⟩ : ∃ c, cells[next]? = some c := ⟨_, getElem?_eq_getElem h.bound⟩
  cases c with
  | none => exact absurd (mem_of_getElem? hcell) hfull
  | some b =>
      have hle := h.full hfull b a hcell (mem_of_getElem? hat)
      have hge := hleast b (mem_of_getElem? hcell)
      have hab : b = a := le_antisymm hle hge
      rw [hab] at hcell
      exact (getElem?_inj h.bound hnodup).mp (hcell.trans hat.symm)

/-- **A rescan finds the order again**, if the circle is not open at both
ends. -/
theorem Rescanned.holds (h : Rescanned cells next) (hsorted : kept.Pairwise (· < ·))
    {r m : ℕ} (hr : cells.rotate r = replicate m none ++ kept.map some)
    (hopen : ¬ OpenEnded cells) : Holds cells next kept := by
  have hpos : 0 < cells.length := Nat.lt_of_le_of_lt (Nat.zero_le _) h.bound
  have hmod : cells.rotate (r % cells.length) = replicate m none ++ kept.map some := by
    rw [rotate_mod]
    exact hr
  suffices hsuff : ∀ r < cells.length, cells.rotate r = replicate m none ++ kept.map some →
      (∃ g, cells.rotate next = replicate g none ++ kept.map some) by
    exact ⟨hsorted, h.bound, hsuff _ (Nat.mod_lt _ hpos) hmod⟩
  intro r hlt hrot
  have hsplit := hrot
  rw [rotate_eq_drop_append_take (Nat.le_of_lt hlt)] at hsplit
  have hlen : (cells.take r).length = r := length_take_of_le (Nat.le_of_lt hlt)
  have hcells : cells = cells.take r ++ cells.drop r := (take_append_drop r cells).symm
  rcases append_eq_append_iff.mp hsplit with ⟨t, hfree, htake⟩ | ⟨t, hdrop, hkept⟩
  · -- the cells from `r` on are free
    have hfree' := append_eq_replicate_iff.mp hfree.symm
    obtain ⟨k, hk⟩ : ∃ k, cells.drop r = replicate (k + 1) none := by
      have hdl : (cells.drop r).length = (cells.length - r - 1) + 1 := by
        rw [length_drop]
        omega
      exact ⟨cells.length - r - 1, by rw [← hdl]; exact hfree'.2.1⟩
    cases t with
    | nil =>
        rw [nil_append] at htake
        have hnext : next = kept.length := by
          have hfront : cells = kept.map some ++ none :: replicate k none := by
            rw [← htake, ← replicate_succ, ← hk]
            exact hcells
          exact h.eq_of_free hfront
        have hkr : kept.length = r := by
          rw [← hlen, htake, length_map]
        rw [hnext, hkr]
        exact ⟨m, hrot⟩
    | cons c t =>
        have hc : c = none := (eq_of_mem_replicate (hfree'.2.2 ▸ mem_cons_self))
        have hhead : cells.head? = some none := by
          rw [hcells, htake, hc]
          rfl
        have hlast : cells.getLast? = some none := by
          rw [hcells, hk, replicate_succ']
          simp
        have hnil : kept = [] := by
          cases kept with
          | nil => rfl
          | cons a kept =>
              refine absurd ⟨hhead, hlast, a, ?_⟩ hopen
              rw [← mem_rotate (n := r), hrot]
              simp
        have hall : cells = replicate cells.length none := by
          rw [hnil, map_nil, append_nil] at hrot
          refine eq_replicate_iff.mpr ⟨rfl, fun b hb => ?_⟩
          rw [← mem_rotate (n := r), hrot] at hb
          exact eq_of_mem_replicate hb
        rw [hall, rotate_replicate, hnil]
        simp
  · -- the cells from `r` on are the free ones and the oldest elements
    obtain ⟨older, newer, hke, ht, htake⟩ := map_eq_append_iff.mp hkept
    have hnewer : newer.length = r := by
      rw [← hlen, ← htake, length_map]
    have hcells' : cells = newer.map some ++ (replicate m none ++ older.map some) := by
      nth_rewrite 1 [hcells]
      rw [hdrop, ← htake, ← ht]
    have hnext : next = newer.length := by
      cases m with
      | succ m =>
          exact h.eq_of_free hcells'
      | zero =>
          cases older with
          | nil =>
              rw [hcells'] at hlt
              simp at hlt
              omega
          | cons a older =>
              rw [hke] at hsorted
              exact h.eq_of_full hcells' hsorted
    rw [hnext, hnewer]
    exact ⟨m, hrot⟩

def Contiguous (f : α → Option α) (kept : List α) : Prop :=
  ∀ x ∈ kept, ∀ y ∈ kept, ∀ z ∈ kept, x < y → y < z → f x ≠ none → f z ≠ none → f y ≠ none

/-- What stays is one block of the order. -/
theorem Contiguous.block {f : α → Option α} (hsorted : kept.Pairwise (· < ·))
    (h : Contiguous f kept) :
    ∃ a c, kept.map f = replicate a none ++ ((kept.filterMap f).map some ++ replicate c none) := by
  induction kept with
  | nil => exact ⟨0, 0, rfl⟩
  | cons x kept ih =>
      have hsub : Contiguous f kept := fun a ha b hb c hc =>
        h a (.tail _ ha) b (.tail _ hb) c (.tail _ hc)
      obtain ⟨a, c, hac⟩ := ih hsorted.of_cons hsub
      cases hx : f x with
      | none => exact ⟨a + 1, c, by simp [hx, hac, replicate_succ]⟩
      | some x' =>
          cases a with
          | zero => exact ⟨0, c, by simpa [hx] using hac⟩
          | succ a =>
              -- the first of the rest goes, so all of the rest goes
              have hnone : ∀ z ∈ kept, f z = none := by
                cases kept with
                | nil => simp
                | cons y kept =>
                    have hy : f y = none := by
                      exact (cons.inj hac).1
                    intro z hz
                    rcases mem_cons.mp hz with rfl | hz
                    · exact hy
                    · by_contra hfz
                      have hxy := rel_of_pairwise_cons hsorted mem_cons_self
                      have hyz := rel_of_pairwise_cons hsorted.of_cons hz
                      exact h x mem_cons_self y (.tail _ mem_cons_self) z
                        (.tail _ (.tail _ hz)) hxy hyz (by simp [hx]) hfz hy
              refine ⟨0, kept.length, ?_⟩
              have hfm : kept.filterMap f = [] := filterMap_eq_nil_iff.mpr hnone
              have hmap : kept.map f = replicate kept.length none := by
                refine eq_replicate_iff.mpr ⟨length_map _, fun b hb => ?_⟩
                obtain ⟨z, hz, rfl⟩ := mem_map.mp hb
                exact hnone z hz
              simp [hx, hfm, hmap]

/-- **Taking away keeps the order**: what stays is a block, the order of
what stays does not change, and a rescan sets the index. -/
theorem Holds.removed (h : Holds cells next kept) {f : α → Option α}
    (hmono : ∀ x ∈ kept, ∀ y ∈ kept, x < y → ∀ x' y', f x = some x' → f y = some y' → x' < y')
    (hblock : Contiguous f kept) {next' : ℕ}
    (hscan : Rescanned (cells.map (·.bind f)) next')
    (hopen : ¬ OpenEnded (cells.map (·.bind f))) :
    Holds (cells.map (·.bind f)) next' (kept.filterMap f) := by
  obtain ⟨g, hg⟩ := h.order
  obtain ⟨a, c, hac⟩ := hblock.block h.sorted
  have hsorted : (kept.filterMap f).Pairwise (· < ·) := by
    refine pairwise_filterMap.mpr ?_
    refine h.sorted.imp_of_mem fun {x y} hx hy hxy x' hx' y' hy' => ?_
    exact hmono x hx y hy hxy x' y' hx' hy'
  have hrot : (cells.map (·.bind f)).rotate next =
      (replicate (g + a) none ++ (kept.filterMap f).map some) ++ replicate c none := by
    rw [← map_rotate, hg, map_append, map_replicate, map_map]
    have hcomp : ((fun o : Option α => o.bind f) ∘ some) = f := rfl
    rw [hcomp, hac, replicate_add]
    simp only [Option.bind_none, append_assoc]
  refine hscan.holds hsorted (r := next + (replicate (g + a) none ++
    (kept.filterMap f).map some).length) (m := c + (g + a)) ?_ hopen
  rw [← rotate_rotate, hrot, rotate_append_length_eq, ← append_assoc, ← replicate_add]

end Ollama.Lib.Ring
