import Mathlib.Data.Finset.Card

/-!
# Reference-counted slots

A table gives each owner at most one of `n` slots; a slot may have several
owners. `Counted` says that the counts are the numbers of owners and that the
free list holds the slots without one. Taking a free slot, sharing a slot and
releasing one keep it, and as long as there are at most `n` owners a slot is
free whenever an owner has none or a slot has two. With contents in the slots
the operations refine a store in which every owner has a copy of its own.
-/

namespace Ollama.Lib.RefCount

open Finset Function

/-- The slot of each owner, the count of each slot, and the free slots, the
next one to be taken first. -/
structure Table (ι : Type*) where
  owner : ι → Option ℕ
  count : ℕ → ℕ
  free : List ℕ

variable {ι : Type*}

/-- The owners of a slot among `ids`. -/
def owners (ids : Finset ι) (t : Table ι) (s : ℕ) : Finset ι :=
  ids.filter fun q => t.owner q = some s

/-- **The invariant** of a table of `n` slots with owners in `ids`. -/
structure Counted (ids : Finset ι) (n : ℕ) (t : Table ι) : Prop where
  mapped : ∀ q s, t.owner q = some s → q ∈ ids ∧ s < n
  count : ∀ s, s < n → t.count s = (owners ids t s).card
  nodup : t.free.Nodup
  free : ∀ s, s ∈ t.free ↔ s < n ∧ t.count s = 0

/-! ## §1  Consequences of the invariant -/

section Consequences

variable {ids : Finset ι} {n : ℕ} {t : Table ι}

variable {q : ι} {s : ℕ}

theorem mem_owners : q ∈ owners ids t s ↔ q ∈ ids ∧ t.owner q = some s := mem_filter

theorem Counted.mem_owners_iff (h : Counted ids n t) : q ∈ owners ids t s ↔ t.owner q = some s := by
  rw [mem_owners]
  exact ⟨fun hq => hq.2, fun hq => ⟨(h.mapped q s hq).1, hq⟩⟩

theorem Counted.count_pos (h : Counted ids n t) (hq : t.owner q = some s) : 0 < t.count s := by
  rw [h.count s (h.mapped q s hq).2]
  exact card_pos.mpr ⟨q, h.mem_owners_iff.mpr hq⟩

theorem Counted.not_mem_free (h : Counted ids n t) (hq : t.owner q = some s) : s ∉ t.free := by
  intro hs
  have hpos := h.count_pos hq
  have hzero := ((h.free s).mp hs).2
  omega

theorem Counted.owner_unique (h : Counted ids n t) {q q' : ι}
    (hone : t.count s ≤ 1) (hq : t.owner q = some s) (hq' : t.owner q' = some s) :
    q = q' := by
  have hlt := (h.mapped q s hq).2
  rw [h.count s hlt] at hone
  exact card_le_one.mp hone q (h.mem_owners_iff.mpr hq) q' (h.mem_owners_iff.mpr hq')

theorem Counted.init (ids : Finset ι) (n : ℕ) :
    Counted ids n ⟨fun _ => none, fun _ => 0, List.range n⟩ where
  mapped q s hq := by cases hq
  count s _ := by
    refine (card_eq_zero.mpr (filter_eq_empty_iff.mpr fun q _ hq => ?_)).symm
    cases hq
  nodup := List.nodup_range
  free s := by
    rw [List.mem_range]
    exact (and_iff_left rfl).symm

def holders (ids : Finset ι) (t : Table ι) : Finset ι :=
  ids.filter fun q => (t.owner q).isSome

def usedSlots (n : ℕ) (t : Table ι) : Finset ℕ :=
  (range n).filter fun s => t.count s ≠ 0

/-- Every slot in use is the slot of a holder. -/
theorem Counted.usedSlots_eq (h : Counted ids n t) :
    usedSlots n t = (holders ids t).image fun q => (t.owner q).getD 0 := by
  ext s
  rw [usedSlots, mem_filter, mem_range, mem_image]
  constructor
  · rintro ⟨hlt, hne⟩
    rw [h.count s hlt] at hne
    obtain ⟨q, hq⟩ := card_pos.mp (Nat.pos_of_ne_zero hne)
    have hq' := h.mem_owners_iff.mp hq
    refine ⟨q, mem_filter.mpr ⟨(h.mapped q s hq').1, ?_⟩, ?_⟩
    · rw [hq']
      rfl
    · rw [hq']
      rfl
  · rintro ⟨q, hq, hqs⟩
    obtain ⟨_, hsome⟩ := mem_filter.mp hq
    obtain ⟨s', hs'⟩ := Option.isSome_iff_exists.mp hsome
    rw [hs'] at hqs
    have hss : s' = s := hqs
    rw [hss] at hs'
    have := h.count_pos hs'
    exact ⟨(h.mapped q s hs').2, by omega⟩

/-- **A slot is free** when fewer than `n` are in use. -/
theorem Counted.free_ne_nil (h : Counted ids n t) (hlt : (usedSlots n t).card < n) :
    t.free ≠ [] := by
  have hex : ∃ s ∈ range n, s ∉ usedSlots n t := by
    by_contra hall
    have hsub : range n ⊆ usedSlots n t := by
      intro s hs
      by_contra hnot
      exact hall ⟨s, hs, hnot⟩
    have := card_le_card hsub
    rw [card_range] at this
    omega
  obtain ⟨s, hs, hnot⟩ := hex
  have hzero : t.count s = 0 := by
    by_contra hne
    exact hnot (mem_filter.mpr ⟨hs, hne⟩)
  exact List.ne_nil_of_mem ((h.free s).mpr ⟨mem_range.mp hs, hzero⟩)

/-- With at most `n` owners, a slot is free if some owner has none. -/
theorem Counted.free_of_unmapped (h : Counted ids n t) (hcard : ids.card ≤ n)
    (hq : q ∈ ids) (hnone : t.owner q = none) : t.free ≠ [] := by
  refine h.free_ne_nil ?_
  have hsub : holders ids t ⊂ ids := by
    refine (Finset.ssubset_iff_of_subset (filter_subset _ _)).mpr ⟨q, hq, ?_⟩
    intro hmem
    have := (mem_filter.mp hmem).2
    rw [hnone] at this
    cases this
  rw [h.usedSlots_eq]
  calc ((holders ids t).image _).card ≤ (holders ids t).card := card_image_le
    _ < ids.card := card_lt_card hsub
    _ ≤ n := hcard

/-- With at most `n` owners, a slot is free if some slot has two. -/
theorem Counted.free_of_shared (h : Counted ids n t) (hcard : ids.card ≤ n)
    (hs : s < n) (htwo : 1 < t.count s) : t.free ≠ [] := by
  refine h.free_ne_nil ?_
  rw [h.count s hs] at htwo
  obtain ⟨q, hq, q', hq', hne⟩ := one_lt_card.mp htwo
  have hqs := h.mem_owners_iff.mp hq
  have hqs' := h.mem_owners_iff.mp hq'
  have hholder : ∀ {r}, t.owner r = some s → r ∈ holders ids t := by
    intro r hr
    refine mem_filter.mpr ⟨(h.mapped r s hr).1, ?_⟩
    rw [hr]
    rfl
  have hlt : ((holders ids t).image fun q => (t.owner q).getD 0).card < (holders ids t).card := by
    refine lt_of_le_of_ne card_image_le fun heq => hne ?_
    refine card_image_iff.mp heq (hholder hqs) (hholder hqs') ?_
    rw [hqs, hqs']
  rw [h.usedSlots_eq]
  calc ((holders ids t).image _).card < (holders ids t).card := hlt
    _ ≤ ids.card := card_le_card (filter_subset _ _)
    _ ≤ n := hcard

end Consequences

/-! ## §2  Operations -/

variable [DecidableEq ι]

/-- `q`, which owns no slot, becomes the only owner of the free slot `s`. -/
def Table.take (t : Table ι) (q : ι) (s : ℕ) (rest : List ℕ) : Table ι :=
  ⟨update t.owner q (some s), update t.count s 1, rest⟩

/-- `q`, which owns no slot, becomes one more owner of `s`. -/
def Table.share (t : Table ι) (q : ι) (s : ℕ) : Table ι :=
  ⟨update t.owner q (some s), update t.count s (t.count s + 1), t.free⟩

/-- `q` gives up its slot `s`, which becomes free with its last owner. -/
def Table.release (t : Table ι) (q : ι) (s : ℕ) : Table ι :=
  ⟨update t.owner q none, update t.count s (t.count s - 1),
    if t.count s ≤ 1 then s :: t.free else t.free⟩

variable {t : Table ι} {q : ι} {s : ℕ} {r : ι} {s' : ℕ} {rest : List ℕ}

theorem take_owner :
    (t.take q s rest).owner r = some s' ↔ if r = q then s = s' else t.owner r = some s' := by
  show update t.owner q (some s) r = some s' ↔ _
  by_cases hr : r = q
  · rw [if_pos hr, hr, update_self, Option.some_inj]
  · rw [if_neg hr, update_of_ne hr]

theorem share_owner :
    (t.share q s).owner r = some s' ↔ if r = q then s = s' else t.owner r = some s' := by
  show update t.owner q (some s) r = some s' ↔ _
  by_cases hr : r = q
  · rw [if_pos hr, hr, update_self, Option.some_inj]
  · rw [if_neg hr, update_of_ne hr]

theorem release_owner : (t.release q s).owner r = some s' ↔ r ≠ q ∧ t.owner r = some s' := by
  show update t.owner q none r = some s' ↔ _
  by_cases hr : r = q
  · rw [hr, update_self]
    exact iff_of_false (by simp) (fun hc => hc.1 rfl)
  · rw [update_of_ne hr]
    exact ⟨fun hc => ⟨hr, hc⟩, fun hc => hc.2⟩

/-! ## §3  The operations keep the invariant -/

section Preservation

variable {ids : Finset ι} {n : ℕ} {t : Table ι}

variable {q : ι} {s : ℕ}

theorem Counted.take (h : Counted ids n t)
    (hq : q ∈ ids) (hnone : t.owner q = none) (hfree : t.free = s :: rest) :
    Counted ids n (t.take q s rest) := by
  have hs := (h.free s).mp (by rw [hfree]; exact List.mem_cons_self)
  have hnodup := h.nodup
  rw [hfree, List.nodup_cons] at hnodup
  refine ⟨?_, ?_, hnodup.2, ?_⟩
  · intro q' s' hq'
    rw [take_owner] at hq'
    by_cases hqq : q' = q
    · rw [if_pos hqq] at hq'
      rw [hqq, ← hq']
      exact ⟨hq, hs.1⟩
    · rw [if_neg hqq] at hq'
      exact h.mapped q' s' hq'
  · intro s' hs'
    by_cases hss : s' = s
    · subst hss
      have hone : owners ids (t.take q s' rest) s' = {q} := by
        ext q'
        rw [mem_owners, take_owner, mem_singleton]
        constructor
        · rintro ⟨_, hif⟩
          by_contra hqq
          rw [if_neg hqq] at hif
          exact h.not_mem_free hif (by rw [hfree]; exact List.mem_cons_self)
        · rintro rfl
          exact ⟨hq, by rw [if_pos rfl]⟩
      rw [hone, card_singleton]
      exact update_self _ _ _
    · have hsame : owners ids (t.take q s rest) s' = owners ids t s' := by
        ext q'
        rw [mem_owners, take_owner, mem_owners]
        by_cases hqq : q' = q
        · rw [if_pos hqq, hqq, hnone]
          exact and_congr_right fun _ => iff_of_false (Ne.symm hss) (by simp)
        · rw [if_neg hqq]
      rw [hsame, ← h.count s' hs']
      exact update_of_ne hss _ _
  · intro s'
    show s' ∈ rest ↔ s' < n ∧ update t.count s 1 s' = 0
    by_cases hss : s' = s
    · subst hss
      rw [update_self]
      exact iff_of_false hnodup.1 (fun hc => absurd hc.2 Nat.one_ne_zero)
    · rw [update_of_ne hss, ← h.free s', hfree, List.mem_cons]
      exact ⟨Or.inr, fun hc => hc.resolve_left hss⟩

theorem Counted.share (h : Counted ids n t) {q q' : ι} (hq : q ∈ ids)
    (hnone : t.owner q = none) (hq' : t.owner q' = some s) :
    Counted ids n (t.share q s) := by
  have hs := (h.mapped q' s hq').2
  refine ⟨?_, ?_, h.nodup, ?_⟩
  · intro r s' hr
    rw [share_owner] at hr
    by_cases hrq : r = q
    · rw [if_pos hrq] at hr
      rw [hrq, ← hr]
      exact ⟨hq, hs⟩
    · rw [if_neg hrq] at hr
      exact h.mapped r s' hr
  · intro s' hs'
    by_cases hss : s' = s
    · subst hss
      have hins : owners ids (t.share q s') s' = insert q (owners ids t s') := by
        ext r
        rw [mem_owners, share_owner, mem_insert, mem_owners]
        by_cases hrq : r = q
        · rw [if_pos hrq]
          exact iff_of_true ⟨hrq ▸ hq, rfl⟩ (Or.inl hrq)
        · rw [if_neg hrq]
          exact ⟨Or.inr, fun hc => hc.resolve_left hrq⟩
      have hnot : q ∉ owners ids t s' := by
        rw [mem_owners, hnone]
        simp
      rw [hins, card_insert_of_notMem hnot, ← h.count s' hs']
      exact update_self _ _ _
    · have hsame : owners ids (t.share q s) s' = owners ids t s' := by
        ext r
        rw [mem_owners, share_owner, mem_owners]
        by_cases hrq : r = q
        · rw [if_pos hrq, hrq, hnone]
          exact and_congr_right fun _ => iff_of_false (Ne.symm hss) (by simp)
        · rw [if_neg hrq]
      rw [hsame, ← h.count s' hs']
      exact update_of_ne hss _ _
  · intro s'
    show s' ∈ t.free ↔ s' < n ∧ update t.count s (t.count s + 1) s' = 0
    by_cases hss : s' = s
    · subst hss
      rw [update_self]
      exact iff_of_false (h.not_mem_free hq') (fun hc => absurd hc.2 (Nat.succ_ne_zero _))
    · rw [update_of_ne hss]
      exact h.free s'

theorem Counted.release (h : Counted ids n t) (hq : t.owner q = some s) :
    Counted ids n (t.release q s) := by
  have hs := (h.mapped q s hq).2
  refine ⟨?_, ?_, ?_, ?_⟩
  · intro r s' hr
    exact h.mapped r s' (release_owner.mp hr).2
  · intro s' hs'
    by_cases hss : s' = s
    · subst hss
      have herase : owners ids (t.release q s') s' = (owners ids t s').erase q := by
        ext r
        rw [mem_owners, release_owner, mem_erase, mem_owners]
        exact ⟨fun hc => ⟨hc.2.1, hc.1, hc.2.2⟩, fun hc => ⟨hc.2.1, hc.1, hc.2.2⟩⟩
      rw [herase, card_erase_of_mem (h.mem_owners_iff.mpr hq), ← h.count s' hs']
      exact update_self _ _ _
    · have hsame : owners ids (t.release q s) s' = owners ids t s' := by
        ext r
        rw [mem_owners, release_owner, mem_owners]
        refine and_congr_right fun _ => ⟨fun hc => hc.2, fun hc => ⟨?_, hc⟩⟩
        rintro rfl
        rw [hq] at hc
        cases hc
        exact hss rfl
      rw [hsame, ← h.count s' hs']
      exact update_of_ne hss _ _
  · show (if t.count s ≤ 1 then s :: t.free else t.free).Nodup
    split
    · exact List.nodup_cons.mpr ⟨h.not_mem_free hq, h.nodup⟩
    · exact h.nodup
  intro s'
  show s' ∈ (if t.count s ≤ 1 then s :: t.free else t.free) ↔
    s' < n ∧ update t.count s (t.count s - 1) s' = 0
  by_cases hss : s' = s
  · subst hss
    rw [update_self]
    by_cases hone : t.count s' ≤ 1
    · rw [if_pos hone]
      exact iff_of_true List.mem_cons_self ⟨hs, by omega⟩
    · rw [if_neg hone]
      exact iff_of_false (h.not_mem_free hq) (fun hc => hone (by omega))
  · rw [update_of_ne hss, ← h.free s']
    split
    · rw [List.mem_cons]
      exact ⟨fun hc => hc.resolve_left hss, Or.inr⟩
    · exact Iff.rfl

theorem Counted.detach (h : Counted ids n t) {s s' : ℕ}
    (hq : t.owner q = some s) (hshared : 1 < t.count s) (hfree : t.free = s' :: rest) :
    Counted ids n ((t.release q s).take q s' rest) := by
  refine (h.release hq).take (h.mapped q s hq).1 (update_self _ _ _) ?_
  show (if t.count s ≤ 1 then s :: t.free else t.free) = s' :: rest
  rw [if_neg (by omega), hfree]

end Preservation

/-! ## §4  What the owners see

With contents in the slots every owner sees that of its slot. A slot that is
shared is never written, so each owner could as well hold a copy of its own. -/

section View

variable {β : Type*}

def Table.view (t : Table ι) (mem : ℕ → β) (q : ι) : Option β := (t.owner q).map mem

variable {ids : Finset ι} {n : ℕ} {t : Table ι} {mem : ℕ → β}

variable {q : ι} {s : ℕ}

omit [DecidableEq ι] in
theorem view_of_owner (hq : t.owner q = some s) : t.view mem q = some (mem s) := by
  rw [Table.view, hq]
  rfl

omit [DecidableEq ι] in
theorem view_write (t : Table ι) (mem : ℕ → β) (s : ℕ) (x : β) (q : ι)
    (hq : t.owner q ≠ some s) : t.view (update mem s x) q = t.view mem q := by
  unfold Table.view
  cases hown : t.owner q with
  | none => rfl
  | some s' =>
    rw [hown] at hq
    exact congrArg some (update_of_ne (fun h => hq (congrArg some h)) _ _)

theorem Counted.view_write (h : Counted ids n t) (hq : t.owner q = some s)
    (hone : t.count s ≤ 1) (x : β) :
    t.view (update mem s x) = update (t.view mem) q (some x) := by
  funext r
  by_cases hr : r = q
  · rw [hr, update_self, view_of_owner hq, update_self]
  · rw [update_of_ne hr]
    exact RefCount.view_write t mem s x r fun hc => hr (h.owner_unique hone hc hq)

/-- An owner without a slot takes a free one and writes to it. -/
theorem Counted.take_view (h : Counted ids n t) (hfree : s ∈ t.free) (x : β) :
    (t.take q s rest).view (update mem s x) = update (t.view mem) q (some x) := by
  funext r
  by_cases hr : r = q
  · rw [hr, update_self, view_of_owner (update_self _ _ _), update_self]
  rw [update_of_ne hr]
  have hown : (t.take q s rest).owner r = t.owner r := update_of_ne hr _ _
  rw [RefCount.view_write (t.take q s rest) mem s x r]
  · unfold Table.view
    rw [hown]
  · rw [hown]
    exact fun hc => h.not_mem_free hc hfree

theorem share_view {q q' : ι} (hq' : t.owner q' = some s) :
    (t.share q s).view mem = update (t.view mem) q (t.view mem q') := by
  funext r
  by_cases hr : r = q
  · rw [hr, update_self, view_of_owner (update_self _ _ _), view_of_owner hq']
  · rw [update_of_ne hr]
    unfold Table.view
    rw [show (t.share q s).owner r = t.owner r from update_of_ne hr _ _]

theorem release_view (t : Table ι) (mem : ℕ → β) (q : ι) (s : ℕ) :
    (t.release q s).view mem = update (t.view mem) q none := by
  funext r
  by_cases hr : r = q
  · rw [hr, update_self]
    unfold Table.view
    rw [show (t.release q s).owner q = none from update_self _ _ _]
    rfl
  · rw [update_of_ne hr]
    unfold Table.view
    rw [show (t.release q s).owner r = t.owner r from update_of_ne hr _ _]

/-- **Copy-on-write.** Moving an owner to a free slot with a copy of its
content is not seen by any owner. -/
theorem Counted.detach_view (h : Counted ids n t) {s s' : ℕ}
    (hq : t.owner q = some s) (hfree : s' ∈ t.free) :
    ((t.release q s).take q s' rest).view (update mem s' (mem s)) = t.view mem := by
  have hfree' : s' ∈ (t.release q s).free := by
    show s' ∈ (if t.count s ≤ 1 then s :: t.free else t.free)
    split
    · exact List.mem_cons_of_mem _ hfree
    · exact hfree
  rw [(h.release hq).take_view hfree', release_view, update_idem, ← view_of_owner hq,
    update_eq_self]

end View

end Ollama.Lib.RefCount
