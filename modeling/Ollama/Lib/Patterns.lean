import Mathlib

/-!
# Names: patterns with a star, replacements, and the order of decimal numerals
-/

namespace Ollama.Lib.Patterns

open List

/-! ## §1  Patterns -/

/-- A star stands for any characters but slashes, and is followed by what matches `rest`. -/
def matchStar (rest : List Char → Bool) : List Char → Bool
  | [] => rest []
  | c :: s => rest (c :: s) || (c ≠ '/' && matchStar rest s)

def matchChar (c : Char) (rest : List Char → Bool) : List Char → Bool
  | [] => false
  | d :: s => d = c && rest s

/-- `path.Match`. Of the special characters only the star is here. -/
def pathMatch : List Char → List Char → Bool
  | [] => List.isEmpty
  | c :: p => if c = '*' then matchStar (pathMatch p) else matchChar c (pathMatch p)

theorem matchStar_iff {rest : List Char → Bool} {s : List Char} :
    matchStar rest s = true ↔ ∃ m t, s = m ++ t ∧ '/' ∉ m ∧ rest t = true := by
  induction s with
  | nil =>
    constructor
    · exact fun h => ⟨[], [], rfl, not_mem_nil, h⟩
    · rintro ⟨m, t, hs, -, h⟩
      obtain ⟨rfl, rfl⟩ := append_eq_nil_iff.mp hs.symm
      exact h
  | cons c s ih =>
    rw [matchStar, Bool.or_eq_true, Bool.and_eq_true, ih, decide_eq_true_iff]
    constructor
    · rintro (h | ⟨hc, m, t, rfl, hm, h⟩)
      · exact ⟨[], c :: s, rfl, not_mem_nil, h⟩
      · refine ⟨c :: m, t, rfl, ?_, h⟩
        rw [mem_cons, not_or]
        exact ⟨Ne.symm hc, hm⟩
    · rintro ⟨m, t, hs, hm, h⟩
      cases m with
      | nil =>
        rw [hs]
        exact Or.inl h
      | cons d m =>
        obtain ⟨rfl, rfl⟩ := List.cons.inj hs
        rw [mem_cons, not_or] at hm
        exact Or.inr ⟨Ne.symm hm.1, m, t, rfl, hm.2, h⟩

theorem pathMatch_literal {lit : List Char} (hlit : '*' ∉ lit) {p s : List Char} :
    pathMatch (lit ++ p) s = true ↔ ∃ t, s = lit ++ t ∧ pathMatch p t = true := by
  induction lit generalizing s with
  | nil => exact ⟨fun h => ⟨s, rfl, h⟩, fun ⟨t, hs, h⟩ => hs ▸ h⟩
  | cons c lit ih =>
    rw [mem_cons, not_or] at hlit
    rw [cons_append, pathMatch, if_neg (Ne.symm hlit.1)]
    cases s with
    | nil =>
      refine ⟨fun h => (nomatch h), ?_⟩
      rintro ⟨t, hs, -⟩
      cases hs
    | cons d s =>
      rw [matchChar, Bool.and_eq_true, decide_eq_true_iff, ih hlit.2]
      constructor
      · rintro ⟨rfl, t, rfl, h⟩
        exact ⟨t, rfl, h⟩
      · rintro ⟨t, hs, h⟩
        obtain ⟨rfl, rfl⟩ := List.cons.inj hs
        exact ⟨rfl, t, rfl, h⟩

/-- **One star** between two literals. -/
theorem pathMatch_star {pre post : List Char} (hpre : '*' ∉ pre) (hpost : '*' ∉ post)
    {s : List Char} : pathMatch (pre ++ '*' :: post) s = true ↔
      ∃ m, s = pre ++ (m ++ post) ∧ '/' ∉ m := by
  have hend : ∀ t, pathMatch post t = true ↔ t = post := by
    intro t
    have h := @pathMatch_literal post hpost [] t
    rw [append_nil] at h
    rw [h]
    constructor
    · rintro ⟨u, rfl, hu⟩
      rw [List.isEmpty_iff.mp hu, append_nil]
    · rintro rfl
      exact ⟨[], (append_nil t).symm, rfl⟩
  rw [pathMatch_literal hpre]
  constructor
  · rintro ⟨t, rfl, h⟩
    rw [pathMatch, if_pos rfl, matchStar_iff] at h
    obtain ⟨m, u, rfl, hm, hu⟩ := h
    exact ⟨m, by rw [(hend u).mp hu], hm⟩
  · rintro ⟨m, rfl, hm⟩
    refine ⟨m ++ post, rfl, ?_⟩
    rw [pathMatch, if_pos rfl, matchStar_iff]
    exact ⟨m, post, rfl, hm, (hend post).mpr rfl⟩

/-! ## §2  Replacements -/

abbrev Replacements := List (List Char × List Char)

variable (pairs : Replacements)

/-- The first pair, in the order of the arguments, whose old text comes next. -/
def lookup (s : List Char) : Option (List Char × List Char) :=
  pairs.find? fun p => p.1.isPrefixOf s

/-- What is left after `k` more characters of an old text. -/
def replaceFrom : ℕ → List Char → List Char
  | _, [] => []
  | k + 1, _ :: s => replaceFrom k s
  | 0, c :: s =>
      match lookup pairs (c :: s) with
      | some (old, new) => new ++ replaceFrom (old.length - 1) s
      | none => c :: replaceFrom 0 s

/-- `(*strings.Replacer).Replace` -/
def replace (s : List Char) : List Char := replaceFrom pairs 0 s

variable {pairs}

def clash : List Char → List Char → Bool
  | [], _ => false
  | o :: _, [] => !o.isDigit
  | o :: old, c :: lit => o ≠ c || clash old lit

theorem not_isPrefixOf_of_clash {old lit : List Char} (h : clash old lit = true) {d : Char}
    (hd : d.isDigit = true) (s : List Char) : old.isPrefixOf (lit ++ d :: s) = false := by
  induction old generalizing lit with
  | nil => cases h
  | cons o old ih =>
    cases lit with
    | nil =>
      rw [clash, Bool.not_eq_true'] at h
      have hne : o ≠ d := by
        rintro rfl
        rw [hd] at h
        cases h
      rw [nil_append, List.isPrefixOf, beq_eq_false_iff_ne.mpr hne, Bool.false_and]
    | cons c lit =>
      rw [clash, Bool.or_eq_true, decide_eq_true_iff] at h
      rw [cons_append, List.isPrefixOf]
      rcases h with hne | h
      · rw [beq_eq_false_iff_ne.mpr hne, Bool.false_and]
      · rw [ih h, Bool.and_false]

def settled (pairs : Replacements) (lit : List Char) : Bool :=
  lit.tails.all fun t => t.isEmpty || pairs.all fun p => p.1.isPrefixOf t || clash p.1 t

theorem find?_congr {α : Type*} {f g : α → Bool} {l : List α} (h : ∀ x ∈ l, f x = g x) :
    l.find? f = l.find? g := by
  induction l with
  | nil => rfl
  | cons x l ih =>
    rw [List.find?, List.find?, h x mem_cons_self, ih fun y hy => h y (mem_cons_of_mem _ hy)]

theorem lookup_append_digit {t : List Char}
    (h : (pairs.all fun p => p.1.isPrefixOf t || clash p.1 t) = true) {d : Char}
    (hd : d.isDigit = true) (s : List Char) : lookup pairs (t ++ d :: s) = lookup pairs t := by
  refine find?_congr fun p hp => ?_
  have hp := all_eq_true.mp h p hp
  cases hpre : p.1.isPrefixOf t with
  | true =>
    rw [List.isPrefixOf_iff_prefix] at hpre ⊢
    exact hpre.trans (prefix_append t (d :: s))
  | false =>
    rw [hpre, Bool.false_or] at hp
    exact not_isPrefixOf_of_clash hp hd s

/-- A settled literal is replaced on its own. -/
theorem replace_append_digit {lit : List Char} (h : settled pairs lit = true) {d : Char}
    (hd : d.isDigit = true) (s : List Char) :
    replace pairs (lit ++ d :: s) = replace pairs lit ++ replace pairs (d :: s) := by
  -- with `k` characters of an old text left, which do not reach the digit
  suffices hfrom : ∀ k ≤ lit.length, replaceFrom pairs k (lit ++ d :: s) =
      replaceFrom pairs k lit ++ replaceFrom pairs 0 (d :: s) from hfrom 0 (Nat.zero_le _)
  induction lit with
  | nil =>
    intro k hk
    rw [Nat.le_zero.mp hk]
    rfl
  | cons c lit ih =>
    rw [settled, List.tails, List.all_cons, Bool.and_eq_true] at h
    obtain ⟨hfirst, hrest⟩ := h
    intro k hk
    cases k with
    | succ k => exact ih hrest k (Nat.le_of_succ_le_succ hk)
    | zero =>
      have hlook := lookup_append_digit hfirst hd s
      rw [cons_append] at hlook
      rw [cons_append, replaceFrom, replaceFrom, hlook]
      cases hfound : lookup pairs (c :: lit) with
      | none =>
        rw [ih hrest 0 (Nat.zero_le _), cons_append]
      | some p =>
        obtain ⟨old, new⟩ := p
        have hpre : old <+: c :: lit :=
          List.isPrefixOf_iff_prefix.mp (@List.find?_some _ _ (old, new) pairs hfound)
        have hlen : old.length - 1 ≤ lit.length := Nat.pred_le_of_le_succ hpre.length_le
        dsimp only
        rw [ih hrest _ hlen, append_assoc]

/-- Digits stay, when no old text starts with one. -/
theorem replace_digits (h : (pairs.all fun p => clash p.1 []) = true) {ds : List Char}
    (hds : ∀ d ∈ ds, d.isDigit = true) (s : List Char) :
    replace pairs (ds ++ s) = ds ++ replace pairs s := by
  induction ds with
  | nil => rfl
  | cons d ds ih =>
    have hnone : lookup pairs (d :: (ds ++ s)) = none := by
      refine find?_eq_none.mpr fun p hp => ?_
      rw [Bool.not_eq_true]
      exact not_isPrefixOf_of_clash (all_eq_true.mp h p hp) (hds d mem_cons_self) _
    have hrest := ih fun d' hd' => hds d' (mem_cons_of_mem _ hd')
    unfold replace at hrest ⊢
    rw [cons_append, replaceFrom, hnone]
    exact congrArg (d :: ·) hrest

/-! ## §3  The order of texts -/

theorem append_lt_append_iff (pre : List Char) {a b : List Char} : pre ++ a < pre ++ b ↔ a < b := by
  induction pre with
  | nil => exact Iff.rfl
  | cons c pre ih => rw [cons_append, cons_append, cons_lt_cons_self, ih]

/-- Texts without a character are told by where it comes first. -/
theorem append_cons_inj {c : Char} {a b s t : List Char} (ha : c ∉ a) (hb : c ∉ b)
    (h : a ++ c :: s = b ++ c :: t) : a = b ∧ s = t := by
  induction a generalizing b with
  | nil =>
    cases b with
    | nil => exact ⟨rfl, (List.cons.inj h).2⟩
    | cons d b => exact absurd ((List.cons.inj h).1 ▸ mem_cons_self) hb
  | cons d a ih =>
    rw [mem_cons, not_or] at ha
    cases b with
    | nil => exact absurd (List.cons.inj h).1.symm ha.1
    | cons d' b =>
      rw [mem_cons, not_or] at hb
      obtain ⟨rfl, hrest⟩ := List.cons.inj h
      obtain ⟨rfl, hst⟩ := ih ha.2 hb.2 hrest
      exact ⟨rfl, hst⟩

/-- Before a character that is less than all of theirs, texts compare on their own. -/
theorem append_lt_of_end {e : Char} {t : List Char} {a b : List Char} (ha : ∀ c ∈ a, e < c)
    (hb : ∀ c ∈ b, e < c) : a ++ e :: t < b ++ e :: t ↔ a < b := by
  induction a generalizing b with
  | nil =>
    cases b with
    | nil => exact iff_of_false (lt_irrefl _) (lt_irrefl _)
    | cons d b =>
      refine iff_of_true ?_ (nil_lt_cons d b)
      rw [nil_append, cons_append, cons_lt_cons_iff]
      exact Or.inl (hb d mem_cons_self)
  | cons c a ih =>
    have hc := ha c mem_cons_self
    cases b with
    | nil =>
      refine iff_of_false ?_ (not_lt_nil _)
      rw [nil_append, cons_append, cons_lt_cons_iff, not_or]
      exact ⟨not_lt_of_gt hc, fun hand => absurd hand.1 hc.ne'⟩
    | cons d b =>
      rw [cons_append, cons_append, cons_lt_cons_iff, cons_lt_cons_iff,
        ih (fun x hx => ha x (mem_cons_of_mem _ hx)) (fun x hx => hb x (mem_cons_of_mem _ hx))]

/-! ## §4  Groups sorted by another key -/

section Groups

variable {S : Type*} [LinearOrder S] {key : ℕ → S}

/-- A list sorted by key is in numeric order when the key keeps that order. -/
theorem pairwise_lt_iff {g : List ℕ} (hsorted : g.Pairwise fun x y => key x < key y) :
    g.Pairwise (· < ·) ↔ ∀ x ∈ g, ∀ y ∈ g, x < y → key x < key y := by
  constructor
  · intro hlt x hx y hy
    refine @List.Pairwise.forall_of_forall_of_flip _ g (fun x y => x < y → key x < key y)
      ?_ ?_ ?_ x hx y hy
    · exact fun _ _ h => absurd h (lt_irrefl _)
    · exact List.Pairwise.imp (fun {x y} (h : key x < key y) (_ : x < y) => h) hsorted
    · exact List.Pairwise.imp (fun {x y} (h : x < y) (hyx : y < x) => absurd h hyx.not_gt) hlt
  · intro hkeep
    refine hsorted.imp_of_mem ?_
    intro x y hx hy hkey
    rcases lt_trichotomy x y with h | h | h
    · exact h
    · exact absurd (h ▸ hkey) (lt_irrefl _)
    · exact absurd (hkeep y hy x hx h) hkey.not_gt

/-- **Groups sorted by key**, joined, are the numbers in order exactly when the groups follow
each other and the key keeps the order in each. -/
theorem flatten_eq_range_iff {gs : List (List ℕ)} {E : ℕ}
    (hsorted : ∀ g ∈ gs, g.Pairwise fun x y => key x < key y)
    (hperm : gs.flatten.Perm (List.range E)) : gs.flatten = List.range E ↔
      gs.Pairwise (fun g g' => ∀ x ∈ g, ∀ y ∈ g', x < y) ∧
        ∀ g ∈ gs, ∀ x ∈ g, ∀ y ∈ g, x < y → key x < key y := by
  have horder : gs.flatten = List.range E ↔ gs.flatten.Pairwise (· < ·) := by
    constructor
    · exact fun h => h ▸ pairwise_lt_range
    · exact fun h => List.Perm.eq_of_pairwise
        (fun _ _ _ _ hab hba => absurd hab hba.not_gt) h pairwise_lt_range hperm
  rw [horder, pairwise_flatten, and_comm]
  exact and_congr_right fun _ => forall₂_congr fun g hg => pairwise_lt_iff (hsorted g hg)

end Groups

end Ollama.Lib.Patterns
