import Mathlib

/-!
# Merging pairs of lowest rank

Some pairs of symbols have a rank and can be joined. A list of symbols is merged
by joining a pair of neighbours of the lowest rank in it, again and again. Which
of several pairs of that rank comes first is left open, or it is the leftmost.
-/

namespace Ollama.Lib.PairMerge

open Relation List ReflTransGen

variable {α κ : Type} [LinearOrder κ] (rank : α → α → Option κ) (join : α → α → α)

/-! ## §1  Steps -/

structure Redex (s pre : List α) (x y : α) (post : List α) (k : κ) : Prop where
  eq : s = pre ++ x :: y :: post
  rank : rank x y = some k

/-- No pair has a lower rank; with `left`, those of the same rank stand further
to the right. -/
def Lowest (left : Prop) (s pre : List α) (k : κ) : Prop :=
  ∀ ⦃pre' x' y' post' k'⦄, Redex rank s pre' x' y' post' k' →
    k < k' ∨ k = k' ∧ (left → pre.length ≤ pre'.length)

inductive Step (left : Prop) : List α → List α → Prop
  | join {s pre x y post k} : Redex rank s pre x y post k → Lowest rank left s pre k →
      Step left s (pre ++ join x y :: post)

def Done (s : List α) : Prop := ∀ pre x y post k, ¬Redex rank s pre x y post k

def Outcome (left : Prop) (s t : List α) : Prop :=
  ReflTransGen (Step rank join left) s t ∧ Done rank t

variable {rank join}

variable {left : Prop} {k : κ}

theorem Lowest.le {s pre : List α} (h : Lowest rank left s pre k)
    {pre' x' y' post' k'} (hr : Redex rank s pre' x' y' post' k') : k ≤ k' := by
  rcases h hr with hlt | ⟨heq, _⟩
  · exact hlt.le
  · exact heq.le

theorem Lowest.shift {s pre pre' : List α} (h : Lowest rank False s pre k) :
    Lowest rank False s pre' k := by
  intro pre₂ x y post k' hr
  rcases h hr with hlt | ⟨heq, _⟩
  · exact Or.inl hlt
  · exact Or.inr ⟨heq, False.elim⟩

variable {s t : List α}

theorem Step.mono (h : Step rank join True s t) : Step rank join left s t := by
  obtain ⟨hr, hl⟩ := h
  refine Step.join hr fun pre' x' y' post' k' hr' => ?_
  rcases hl hr' with hlt | ⟨heq, hpos⟩
  · exact Or.inl hlt
  · exact Or.inr ⟨heq, fun _ => hpos trivial⟩

theorem Step.length (h : Step rank join left s t) : t.length + 1 = s.length := by
  obtain ⟨hr, _⟩ := h
  rw [hr.eq, length_append, length_append]
  rfl

theorem Step.unique {s t t' : List α} (h : Step rank join True s t)
    (h' : Step rank join True s t') : t = t' := by
  obtain ⟨hr, hl⟩ := h
  obtain ⟨hr', hl'⟩ := h'
  have hlen := Nat.le_antisymm ((hl hr').resolve_left (not_lt.mpr (hl'.le hr)) |>.2 trivial)
    ((hl' hr).resolve_left (not_lt.mpr (hl.le hr')) |>.2 trivial)
  obtain ⟨hpre, htail⟩ := append_inj (hr.eq.symm.trans hr'.eq) hlen
  obtain ⟨hx, htail⟩ := List.cons.inj htail
  obtain ⟨hy, hpost⟩ := List.cons.inj htail
  rw [hpre, hx, hy, hpost]

theorem Step.not_done (h : Step rank join left s t) : ¬Done rank s := by
  obtain ⟨hr, _⟩ := h
  exact fun hd => hd _ _ _ _ _ hr

/-! ## §2  The leftmost pair -/

variable (rank join) in
/-- The leftmost pair of the lowest rank: its rank, and the list with it joined. -/
def best : List α → Option (κ × List α)
  | x :: y :: rest =>
      let later := (best (y :: rest)).map fun p => (p.1, x :: p.2)
      match rank x y, later with
      | none, later => later
      | some k, none => some (k, join x y :: rest)
      | some k, some p => if k ≤ p.1 then some (k, join x y :: rest) else some p
  | _ => none

variable {x y : α}

omit [LinearOrder κ] in
/-- The pairs of a list with one more symbol. -/
theorem Redex.cons_cases {rest pre post : List α} {x' y' : α}
    (h : Redex rank (x :: y :: rest) pre x' y' post k) :
    pre = [] ∧ x' = x ∧ y' = y ∧ post = rest ∧ rank x y = some k ∨
      ∃ pre', pre = x :: pre' ∧ Redex rank (y :: rest) pre' x' y' post k := by
  obtain ⟨heq, hk⟩ := h
  cases pre with
  | nil =>
    obtain ⟨rfl, htail⟩ := List.cons.inj heq
    obtain ⟨rfl, rfl⟩ := List.cons.inj htail
    exact Or.inl ⟨rfl, rfl, rfl, rfl, hk⟩
  | cons w pre' =>
    obtain ⟨rfl, htail⟩ := List.cons.inj heq
    exact Or.inr ⟨pre', rfl, htail, hk⟩

omit [LinearOrder κ] in
theorem Redex.cons {x : α} {s pre post : List α} {x' y' : α}
    (h : Redex rank s pre x' y' post k) : Redex rank (x :: s) (x :: pre) x' y' post k :=
  ⟨by rw [h.eq]; rfl, h.rank⟩

omit [LinearOrder κ] in
theorem done_of_length {s : List α} (h : s.length < 2) : Done rank s := by
  rintro pre x y post k ⟨rfl, _⟩
  rw [length_append, length_cons, length_cons] at h
  omega

theorem Lowest.head {rest : List α} (hk : rank x y = some k)
    (h : ∀ pre' x' y' post' k', Redex rank (y :: rest) pre' x' y' post' k' → k ≤ k') :
    Lowest rank True (x :: y :: rest) [] k := by
  intro pre' x' y' post' k' hr
  rcases hr.cons_cases with ⟨_, _, _, _, hk'⟩ | ⟨pre, _, hr'⟩
  · exact Or.inr ⟨Option.some.inj (hk.symm.trans hk'), fun _ => Nat.zero_le _⟩
  · rcases lt_or_eq_of_le (h _ _ _ _ _ hr') with hlt | heq
    · exact Or.inl hlt
    · exact Or.inr ⟨heq, fun _ => Nat.zero_le _⟩

theorem Lowest.cons {rest pre : List α}
    (hl : Lowest rank True (y :: rest) pre k) (h : ∀ k', rank x y = some k' → k < k') :
    Lowest rank True (x :: y :: rest) (x :: pre) k := by
  intro pre' x' y' post' k' hr
  rcases hr.cons_cases with ⟨_, _, _, _, hk'⟩ | ⟨pre, rfl, hr'⟩
  · exact Or.inl (h k' hk')
  · rcases hl hr' with hlt | ⟨heq, hpos⟩
    · exact Or.inl hlt
    · exact Or.inr ⟨heq, fun _ => Nat.succ_le_succ (hpos trivial)⟩

/-- `best` finds the leftmost pair of the lowest rank. -/
theorem best_spec : ∀ s : List α, (best rank join s = none ∧ Done rank s) ∨
      ∃ pre x y post k, best rank join s = some (k, pre ++ join x y :: post) ∧
        Redex rank s pre x y post k ∧ Lowest rank True s pre k := by
  intro s
  induction s with
  | nil => exact Or.inl ⟨rfl, done_of_length Nat.two_pos⟩
  | cons x s ih =>
    cases s with
    | nil => exact Or.inl ⟨rfl, done_of_length Nat.one_lt_two⟩
    | cons y rest =>
      unfold best
      cases hk : rank x y with
      | none =>
        have hnone : ∀ k', rank x y ≠ some k' := by
          intro k' hk'
          rw [hk] at hk'
          cases hk'
        rcases ih with ⟨hb, hd⟩ | ⟨pre, x', y', post, k, hb, hr, hl⟩
        · refine Or.inl ⟨by rw [hb]; rfl, fun pre x' y' post k hr => ?_⟩
          rcases hr.cons_cases with ⟨_, _, _, _, hk'⟩ | ⟨pre', _, hr'⟩
          · exact hnone k hk'
          · exact hd _ _ _ _ _ hr'
        · exact Or.inr ⟨x :: pre, x', y', post, k, by rw [hb]; rfl, hr.cons,
            hl.cons fun k' hk' => absurd hk' (hnone k')⟩
      | some k =>
        have hhead : Redex rank (x :: y :: rest) [] x y rest k := ⟨rfl, hk⟩
        rcases ih with ⟨hb, hd⟩ | ⟨pre, x', y', post, k', hb, hr, hl⟩
        · exact Or.inr ⟨[], x, y, rest, k, by rw [hb]; rfl, hhead,
            Lowest.head hk fun _ _ _ _ _ hr' => absurd hr' (hd _ _ _ _ _)⟩
        by_cases hle : k ≤ k'
        · refine Or.inr ⟨[], x, y, rest, k, ?_, hhead,
            Lowest.head hk fun _ _ _ _ _ hr' => hle.trans (hl.le hr')⟩
          rw [hb]
          exact if_pos hle
        · refine Or.inr ⟨x :: pre, x', y', post, k', ?_, hr.cons, hl.cons fun k₂ hk₂ => ?_⟩
          · rw [hb]
            exact if_neg hle
          · rw [← Option.some.inj (hk.symm.trans hk₂)]
            exact not_le.mp hle

/-! ## §3  Merging from the left -/

variable (rank join) in
def mergeLeft : ℕ → List α → List α
  | 0, s => s
  | n + 1, s =>
      match best rank join s with
      | none => s
      | some p => mergeLeft n p.2

/-- As many rounds as there are symbols are enough. -/
theorem mergeLeft_outcome : ∀ (n : ℕ) (s : List α), s.length ≤ n →
    Outcome rank join True s (mergeLeft rank join n s) := by
  intro n
  induction n with
  | zero =>
    intro s hs
    exact ⟨refl, done_of_length (Nat.lt_of_le_of_lt hs Nat.two_pos)⟩
  | succ n ih =>
    intro s hs
    rw [mergeLeft]
    rcases @best_spec _ _ _ rank join s with ⟨hb, hd⟩ | ⟨pre, x, y, post, k, hb, hr, hl⟩
    · rw [hb]
      exact ⟨refl, hd⟩
    · rw [hb]
      have hstep : Step rank join True s (pre ++ join x y :: post) := Step.join hr hl
      have hlen := hstep.length
      obtain ⟨hrun, hd⟩ := ih (pre ++ join x y :: post) (by omega)
      exact ⟨head hstep hrun, hd⟩

/-- Merging from the left ends in one list only. -/
theorem Outcome.unique {s t t' : List α} (h : Outcome rank join True s t)
    (h' : Outcome rank join True s t') : t = t' := by
  obtain ⟨hrun, hd⟩ := h
  obtain ⟨hrun', hd'⟩ := h'
  induction hrun using head_induction_on with
  | refl =>
    rcases hrun'.cases_head with heq | ⟨u, hstep, _⟩
    · exact heq
    · exact absurd hd hstep.not_done
  | head hstep _ ih =>
    rcases hrun'.cases_head with rfl | ⟨u, hstep', hrest⟩
    · exact absurd hd' hstep.not_done
    · rw [hstep.unique hstep'] at ih
      exact ih hrest

variable (rank join) in
def canonical (s : List α) : List α := mergeLeft rank join s.length s

theorem canonical_outcome (s : List α) : Outcome rank join True s (canonical rank join s) :=
  mergeLeft_outcome s.length s (Nat.le_refl _)

theorem canonical_of_outcome (h : Outcome rank join True s t) :
    canonical rank join s = t := (canonical_outcome s).unique h

theorem canonical_of_done {s : List α} (h : Done rank s) : canonical rank join s = s :=
  canonical_of_outcome ⟨refl, h⟩

theorem Outcome.mono (h : Outcome rank join True s t) :
    Outcome rank join left s t := ⟨ReflTransGen.mono (fun _ _ => Step.mono) _ _ h.1, h.2⟩

/-! ## §4  Ties that do not matter -/

variable (rank join) in
/-- Whichever pair of the lowest rank is joined next, `f` sees the same in what
merging from the left then ends in. -/
def Tied {β : Type} (f : List α → β) (s : List α) : Prop :=
  ∀ u t, ReflTransGen (Step rank join False) s u → Step rank join False u t →
    f (canonical rank join t) = f (canonical rank join u)

/-- Ties do not matter if and only if all runs end alike. -/
theorem tied_iff {β : Type} (f : List α → β) (s : List α) :
    Tied rank join f s ↔ ∀ t, Outcome rank join False s t → f t = f (canonical rank join s) := by
  constructor
  · rintro h t ⟨hrun, hd⟩
    have hall : ∀ u, ReflTransGen (Step rank join False) s u →
        f (canonical rank join u) = f (canonical rank join s) := by
      intro u hu
      induction hu with
      | refl => rfl
      | tail hrun hstep ih => exact (h _ _ hrun hstep).trans ih
    have := hall t hrun
    rwa [canonical_of_done hd] at this
  · intro h u t hrun hstep
    have hcanon : ∀ v, Outcome rank join False v (canonical rank join v) :=
      fun v => (canonical_outcome v).mono
    obtain ⟨hu, hdu⟩ := hcanon u
    obtain ⟨ht, hdt⟩ := hcanon t
    rw [h _ ⟨hrun.trans hu, hdu⟩, h _ ⟨(hrun.tail hstep).trans ht, hdt⟩]

/-! ## §5  A table without such ties -/

/-- A pair of neighbours stands before a symbol, holds it, or stands after it. -/
theorem cons_cons_of_append {pre pre' post post' : List α} {x y z : α}
    (h : pre ++ z :: post = pre' ++ x :: y :: post') :
    (∃ mid, pre = pre' ++ x :: y :: mid ∧ post' = mid ++ z :: post) ∨
      (pre = pre' ++ [x] ∧ y = z ∧ post' = post) ∨
      (pre' = pre ∧ x = z ∧ post = y :: post') ∨
      ∃ mid, pre' = pre ++ z :: mid ∧ post = mid ++ x :: y :: post' := by
  induction pre generalizing pre' with
  | nil =>
    cases pre' with
    | nil =>
      obtain ⟨rfl, rfl⟩ := List.cons.inj h
      exact Or.inr (Or.inr (Or.inl ⟨rfl, rfl, rfl⟩))
    | cons w pre' =>
      obtain ⟨rfl, rfl⟩ := List.cons.inj h
      exact Or.inr (Or.inr (Or.inr ⟨pre', rfl, rfl⟩))
  | cons w pre ih =>
    cases pre' with
    | nil =>
      obtain ⟨rfl, htail⟩ := List.cons.inj h
      cases pre with
      | nil =>
        obtain ⟨rfl, rfl⟩ := List.cons.inj htail
        exact Or.inr (Or.inl ⟨rfl, rfl, rfl⟩)
      | cons v pre =>
        obtain ⟨rfl, rfl⟩ := List.cons.inj htail
        exact Or.inl ⟨pre, rfl, rfl⟩
    | cons w' pre' =>
      obtain ⟨rfl, htail⟩ := List.cons.inj h
      rcases ih htail with ⟨mid, rfl, rfl⟩ | ⟨rfl, rfl, rfl⟩ | ⟨rfl, rfl, rfl⟩ | ⟨mid, rfl, rfl⟩
      · exact Or.inl ⟨mid, rfl, rfl⟩
      · exact Or.inr (Or.inl ⟨rfl, rfl, rfl⟩)
      · exact Or.inr (Or.inr (Or.inl ⟨rfl, rfl, rfl⟩))
      · exact Or.inr (Or.inr (Or.inr ⟨mid, rfl, rfl⟩))

variable (rank join) in
def Trained : Prop :=
  ∀ x y k, rank x y = some k → (∀ w k', rank w (join x y) = some k' → k < k') ∧
    ∀ z k', rank (join x y) z = some k' → k < k'

variable (rank) in
def Overlap (s : List α) : Prop :=
  ∃ pre x y z post k, s = pre ++ x :: y :: z :: post ∧ rank x y = some k ∧ rank y z = some k ∧
    Lowest rank False s pre k

/-- The rank that was the lowest stays a lower bound. -/
theorem Trained.lowest (h : Trained rank join) {s pre pre₂ : List α} {post : List α}
    (hr : Redex rank s pre x y post k) (hl : Lowest rank False s pre k) :
    Lowest rank False (pre ++ join x y :: post) pre₂ k := by
  intro pre' x' y' post' k' hr'
  have hle : k ≤ k' := by
    rcases cons_cons_of_append hr'.eq with ⟨mid, rfl, rfl⟩ | ⟨rfl, rfl, rfl⟩ | ⟨rfl, rfl, rfl⟩ |
      ⟨mid, rfl, rfl⟩
    · exact hl.le ⟨by rw [hr.eq, append_assoc]; rfl, hr'.rank⟩
    · exact ((h _ _ _ hr.rank).1 _ _ hr'.rank).le
    · exact ((h _ _ _ hr.rank).2 _ _ hr'.rank).le
    · have hold : Redex rank s (pre ++ x :: y :: mid) x' y' post' k' :=
        ⟨by rw [hr.eq, append_assoc]; rfl, hr'.rank⟩
      exact hl.le hold
  rcases lt_or_eq_of_le hle with hlt | heq
  · exact Or.inl hlt
  · exact Or.inr ⟨heq, False.elim⟩

/-- Two pairs of the lowest rank that share no symbol are joined in either order. -/
theorem Trained.commute (h : Trained rank join) {s pre mid post : List α} {x y x' y' : α}
    (hr : Redex rank s pre x y (mid ++ x' :: y' :: post) k)
    (hr' : Redex rank s (pre ++ x :: y :: mid) x' y' post k) (hl : Lowest rank False s pre k) :
    ∃ v, Step rank join False (pre ++ join x y :: (mid ++ x' :: y' :: post)) v ∧
      Step rank join False (pre ++ x :: y :: mid ++ join x' y' :: post) v := by
  refine ⟨pre ++ join x y :: (mid ++ join x' y' :: post), ?_, ?_⟩
  · have hstep := @Step.join _ _ _ rank join False _ (pre ++ join x y :: mid) x' y' post k
      ⟨by rw [append_assoc]; rfl, hr'.rank⟩ (h.lowest hr hl)
    rwa [append_assoc] at hstep
  · have hstep := @Step.join _ _ _ rank join False _ pre x y (mid ++ join x' y' :: post) k
      ⟨by rw [append_assoc]; rfl, hr.rank⟩ (h.lowest hr' hl.shift)
    exact hstep

/-- Without pairs that share a symbol two steps lead on to one list. -/
theorem Trained.diamond (h : Trained rank join) {s t t' : List α} (hno : ¬Overlap rank s)
    (hs : Step rank join False s t) (hs' : Step rank join False s t') :
    t = t' ∨ ∃ v, Step rank join False t v ∧ Step rank join False t' v := by
  cases hs with | @join pre x y post k hr hl
  cases hs' with | @join pre' x' y' post' k' hr' hl'
  have hk : k = k' := le_antisymm (hl.le hr') (hl'.le hr)
  subst hk
  rcases cons_cons_of_append (hr.eq.symm.trans hr'.eq) with ⟨mid, hpre, hpost⟩ |
    ⟨hpre, rfl, hpost⟩ | ⟨rfl, rfl, hpost⟩ | ⟨mid, rfl, hpost⟩
  · -- the second pair stands before the first
    subst hpre hpost
    obtain ⟨v, hv', hv⟩ := h.commute hr' hr hl'
    exact Or.inr ⟨v, hv, hv'⟩
  · exact absurd ⟨pre', x', y', y, post, k, by rw [hr'.eq, hpost], hr'.rank, hr.rank, hl'⟩ hno
  · obtain ⟨rfl, rfl⟩ := List.cons.inj hpost
    exact Or.inl rfl
  cases mid with
  | nil =>
    obtain ⟨rfl, rfl⟩ := List.cons.inj hpost
    exact absurd ⟨pre, x, y, y', post', k, hr.eq, hr.rank, hr'.rank, hl⟩ hno
  | cons _ mid =>
    obtain ⟨rfl, rfl⟩ := List.cons.inj hpost
    exact Or.inr (h.commute hr hr' hl)

/-- **With a trained table and no pairs that share a symbol the order of ties
does not matter.** -/
theorem Trained.tied (h : Trained rank join) {s : List α}
    (hno : ∀ u, ReflTransGen (Step rank join False) s u → ¬Overlap rank u) {β : Type}
    (f : List α → β) : Tied rank join f s := by
  -- steps from lists that the run can reach
  let r : List α → List α → Prop := fun u v =>
    ReflTransGen (Step rank join False) s u ∧ Step rank join False u v
  have hlift : ∀ {u v}, ReflTransGen (Step rank join False) s u →
      ReflTransGen (Step rank join False) u v → ReflTransGen r u v := by
    intro u v hu huv
    induction huv with
    | refl => exact refl
    | tail hrun hstep ih => exact ih.tail ⟨hu.trans hrun, hstep⟩
  have hend : ∀ {u v}, Done rank u → ReflTransGen r u v → u = v := by
    intro u v hd huv
    rcases huv.cases_head with heq | ⟨w, ⟨_, hstep⟩, _⟩
    · exact heq
    · exact absurd hd hstep.not_done
  refine (tied_iff f s).mpr fun t ht => congrArg f ?_
  have hcanon : Outcome rank join False s (canonical rank join s) := (canonical_outcome s).mono
  obtain ⟨v, htv, hcv⟩ := church_rosser (r := r) (fun u v w huv huw => by
    rcases h.diamond (hno u huv.1) huv.2 huw.2 with rfl | ⟨x, hvx, hwx⟩
    · exact ⟨v, ReflGen.refl, refl⟩
    · exact ⟨x, ReflGen.single ⟨huv.1.tail huv.2, hvx⟩, single ⟨huw.1.tail huw.2, hwx⟩⟩)
    (hlift refl ht.1) (hlift refl hcanon.1)
  rw [hend ht.2 htv, hend hcanon.2 hcv]

end Ollama.Lib.PairMerge
