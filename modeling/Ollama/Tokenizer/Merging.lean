import Ollama.Tokenizer.Vocabulary
import Ollama.Lib.Heap
import Mathlib.Data.Finset.Card

/-!
# Merging runes

The loop that both tokenizers share: the runes of a text are nodes of a linked
list, pairs of neighbours wait in a heap, and the pair that is taken out is
merged unless one of its nodes has changed since. The tokenizers differ in which
pairs they queue and in how they tell that a pair is stale.
-/

namespace Ollama.Tokenizer

open Lib Lib.Utf8 List Function

/-! ## §1  The loop -/

/-- `merge`: a node of the list, with its neighbours. -/
structure Node where
  p : Int
  n : ℕ
  runes : List Char

/-- How a tokenizer queues and checks pairs: `pairwise` makes the pair of two
nodes from their strings, `fresh` says whether a pair still stands for the
strings its nodes have now. -/
structure MergeRules (ε : Type) where
  a : ε → ℕ
  b : ε → ℕ
  pairwise : ℕ → ℕ → Str → Str → Option ε
  fresh : ε → Str → Str → Bool
  pairwise_a : ∀ i j l r e, pairwise i j l r = some e → a e = i
  pairwise_b : ∀ i j l r e, pairwise i j l r = some e → b e = j

def initNodes (rs : List Char) (i : ℕ) : Node := ⟨(i : Int) - 1, i + 1, rs[i]?.toList⟩

section Loop

variable {ε κ : Type} [LinearOrder κ] {key : ε → κ} (rules : MergeRules ε) (heap : Heap key)
  (len : ℕ)

/-- `pairwise` -/
def pairAt (nodes : ℕ → Node) (a : Int) (b : ℕ) : Option ε :=
  if a < 0 ∨ len ≤ b then none
  else rules.pairwise a.toNat b (encode (nodes a.toNat).runes) (encode (nodes b).runes)

/-- Node `b` is merged into node `a`. -/
def mergeAt (nodes : ℕ → Node) (a b : ℕ) : ℕ → Node :=
  let left := nodes a
  let right := nodes b
  let nodes := update nodes a ⟨left.p, right.n, left.runes ++ right.runes⟩
  let nodes := update nodes b { right with runes := [] }
  if right.n < len then update nodes right.n { nodes right.n with p := a } else nodes

/-- The loop over the heap; `none` when the steps run out. -/
def mergeLoop : ℕ → (ℕ → Node) → List ε → Option (ℕ → Node)
  | fuel, nodes, queue =>
      match heap.pop queue with
      | none => some nodes
      | some (e, rest) =>
          match fuel with
          | 0 => none
          | fuel + 1 =>
              let left := (nodes (rules.a e)).runes
              let right := (nodes (rules.b e)).runes
              if left = [] ∨ right = [] ∨ rules.fresh e (encode left) (encode right) = false then
                mergeLoop fuel nodes rest
              else
                let nodes := mergeAt len nodes (rules.a e) (rules.b e)
                mergeLoop fuel nodes (rest ++
                  (pairAt rules len nodes (nodes (rules.a e)).p (rules.a e)).toList ++
                  (pairAt rules len nodes (rules.a e) (nodes (rules.a e)).n).toList)

def mergeRunes (rs : List Char) : Option (List (List Char)) :=
  let nodes := initNodes rs
  let queue := (List.range (rs.length - 1)).filterMap fun i : ℕ =>
    pairAt rules rs.length nodes i (i + 1)
  (mergeLoop rules heap rs.length (4 * rs.length) nodes queue).map fun nodes =>
    (List.range rs.length).map fun i => (nodes i).runes

end Loop

/-! ## §2  The text of the nodes -/

/-- The runes of the first `k` nodes. -/
def joined (nodes : ℕ → Node) (k : ℕ) : List Char :=
  (List.range k).flatMap fun i => (nodes i).runes

theorem joined_succ (nodes : ℕ → Node) (k : ℕ) :
    joined nodes (k + 1) = joined nodes k ++ (nodes k).runes := by
  unfold joined
  rw [range_succ, flatMap_append, flatMap_singleton]

theorem joined_initNodes (rs : List Char) : ∀ k ≤ rs.length, joined (initNodes rs) k = rs.take k := by
  intro k
  induction k with
  | zero => exact fun _ => rfl
  | succ k ih =>
    intro hk
    have hlt : k < rs.length := hk
    rw [joined_succ, ih (Nat.le_of_lt hk), initNodes, getElem?_eq_getElem hlt,
      Option.toList_some, take_append_getElem]

/-- Merging `b` into `a` over empty nodes keeps the text. -/
theorem joined_merge {nodes nodes' : ℕ → Node} {a b : ℕ} (hab : a < b)
    (hbetween : ∀ j, a < j → j < b → (nodes j).runes = [])
    (ha : (nodes' a).runes = (nodes a).runes ++ (nodes b).runes) (hb : (nodes' b).runes = [])
    (hother : ∀ j, j ≠ a → j ≠ b → (nodes' j).runes = (nodes j).runes) :
    ∀ k, joined nodes' k =
      if a < k ∧ k ≤ b then joined nodes k ++ (nodes b).runes else joined nodes k := by
  intro k
  induction k with
  | zero => rw [if_neg (by omega)]; rfl
  | succ k ih =>
    rw [joined_succ, joined_succ, ih]
    rcases Nat.lt_trichotomy k a with hlt | rfl | hgt
    · rw [if_neg (by omega), if_neg (by omega), hother k (by omega) (by omega)]
    · rw [if_neg (by omega), if_pos (by omega), ha, append_assoc]
    · rcases Nat.lt_trichotomy k b with hlt' | rfl | hgt'
      · rw [if_pos (by omega), if_pos (by omega), hother k (by omega) (by omega),
          hbetween k hgt hlt', append_nil, append_nil]
      · rw [if_pos (by omega), if_neg (by omega), hb, append_nil]
      · rw [if_neg (by omega), if_neg (by omega), hother k (by omega) (by omega)]

/-! ## §3  Neighbours -/

def Apart (nodes : ℕ → Node) (a : Int) (b : ℕ) : Prop :=
  ∀ j : ℕ, a < j → j < b → (nodes j).runes = []

/-- The list is linked: the neighbours of a node that is not empty are the next
ones that may not be. -/
structure Linked (nodes : ℕ → Node) : Prop where
  next : ∀ i, (nodes i).runes ≠ [] → i < (nodes i).n ∧ Apart nodes i (nodes i).n
  prev : ∀ i, (nodes i).runes ≠ [] → (nodes i).p < i ∧ Apart nodes (nodes i).p i

theorem linked_initNodes (rs : List Char) : Linked (initNodes rs) where
  next := by
    intro i _
    refine ⟨Nat.lt_succ_self i, fun j hj hj' => ?_⟩
    have : j < i + 1 := hj'
    omega
  prev := by
    intro i _
    refine ⟨?_, fun j hj hj' => ?_⟩
    · show (i : Int) - 1 < i
      omega
    · have : (i : Int) - 1 < j := hj
      omega

def Neighbours {ε : Type} (rules : MergeRules ε) (len : ℕ) (nodes : ℕ → Node) (e : ε) : Prop :=
  rules.a e < rules.b e ∧ rules.b e < len ∧ Apart nodes (rules.a e) (rules.b e)

theorem Apart.mono {nodes nodes' : ℕ → Node}
    (h : ∀ j, (nodes j).runes = [] → (nodes' j).runes = []) {a : Int} {b : ℕ}
    (hap : Apart nodes a b) : Apart nodes' a b := fun j hj hj' => h j (hap j hj hj')

theorem neighbours_pairAt {ε : Type} {rules : MergeRules ε} {len : ℕ} {nodes : ℕ → Node} {a : Int}
    {b : ℕ} (hab : a < b) (hap : Apart nodes a b) {e : ε}
    (he : pairAt rules len nodes a b = some e) : Neighbours rules len nodes e := by
  unfold pairAt at he
  split at he
  · cases he
  · have ha : ((a.toNat : ℕ) : Int) = a := Int.toNat_of_nonneg (by omega)
    unfold Neighbours
    rw [rules.pairwise_a _ _ _ _ _ he, rules.pairwise_b _ _ _ _ _ he, ha]
    exact ⟨by omega, by omega, hap⟩

/-! ## §4  One merge -/

section Merge

variable {len : ℕ} {nodes : ℕ → Node} {a b : ℕ}

theorem mergeAt_runes_left (hab : a ≠ b) : (mergeAt len nodes a b a).runes =
    (nodes a).runes ++ (nodes b).runes := by
  unfold mergeAt
  split
  · by_cases ha : (nodes b).n = a
    · rw [ha, update_self, update_of_ne hab, update_self]
    · rw [update_of_ne (Ne.symm ha), update_of_ne hab, update_self]
  · rw [update_of_ne hab, update_self]

theorem mergeAt_runes_right : (mergeAt len nodes a b b).runes = [] := by
  unfold mergeAt
  split
  · by_cases hb : (nodes b).n = b
    · rw [hb, update_self, update_self]
    · rw [update_of_ne (Ne.symm hb), update_self]
  · rw [update_self]

theorem mergeAt_runes_other {j : ℕ} (ha : j ≠ a) (hb : j ≠ b) :
    (mergeAt len nodes a b j).runes = (nodes j).runes := by
  unfold mergeAt
  split
  · by_cases hj : (nodes b).n = j
    · rw [hj, update_self, update_of_ne hb, update_of_ne ha]
    · rw [update_of_ne (Ne.symm hj), update_of_ne hb, update_of_ne ha]
  · rw [update_of_ne hb, update_of_ne ha]

/-- The links after a merge. -/
theorem mergeAt_links {j : ℕ} (hb : j ≠ b) :
    (mergeAt len nodes a b j).n = (if j = a then (nodes b).n else (nodes j).n) ∧
      ((mergeAt len nodes a b j).p = (nodes j).p ∨
        j = (nodes b).n ∧ (mergeAt len nodes a b j).p = a) := by
  have hinner : ∀ k, k ≠ b → (update (update nodes a ⟨(nodes a).p, (nodes b).n,
        (nodes a).runes ++ (nodes b).runes⟩) b { nodes b with runes := [] } k).n =
          (if k = a then (nodes b).n else (nodes k).n) ∧
      (update (update nodes a ⟨(nodes a).p, (nodes b).n,
        (nodes a).runes ++ (nodes b).runes⟩) b { nodes b with runes := [] } k).p = (nodes k).p := by
    intro k hk
    rw [update_of_ne hk]
    by_cases hka : k = a
    · rw [hka, update_self, if_pos rfl]
      exact ⟨rfl, rfl⟩
    · rw [update_of_ne hka, if_neg hka]
      exact ⟨rfl, rfl⟩
  obtain ⟨hn, hp⟩ := hinner j hb
  unfold mergeAt
  split
  · by_cases hj : j = (nodes b).n
    · subst hj
      rw [update_self]
      exact ⟨hn, Or.inr ⟨rfl, rfl⟩⟩
    · rw [update_of_ne hj]
      exact ⟨hn, Or.inl hp⟩
  · exact ⟨hn, Or.inl hp⟩

variable (hl : Linked nodes) (hab : a < b) (hap : Apart nodes a b) (hleft : (nodes a).runes ≠ [])
  (hright : (nodes b).runes ≠ [])

include hab in
theorem mergeAt_empty {j : ℕ} (hj : (nodes j).runes = []) (hleft : (nodes a).runes ≠ []) :
    (mergeAt len nodes a b j).runes = [] := by
  by_cases hb : j = b
  · rw [hb]
    exact mergeAt_runes_right
  · have ha : j ≠ a := by
      rintro rfl
      exact hleft hj
    rw [mergeAt_runes_other ha hb]
    exact hj

include hl hab hap hleft hright in
/-- After a merge the list is linked. -/
theorem Linked.mergeAt : Linked (mergeAt len nodes a b) := by
  obtain ⟨hbn, hbap⟩ := hl.next b hright
  have hmono : ∀ j, (nodes j).runes = [] → (Tokenizer.mergeAt len nodes a b j).runes = [] :=
    fun j hj => mergeAt_empty hab hj hleft
  -- from `a` to what follows `b` all is empty
  have hgap : Apart (Tokenizer.mergeAt len nodes a b) a (nodes b).n := by
    intro j hj hj'
    rcases Nat.lt_trichotomy j b with hlt | rfl | hgt
    · exact hmono j (hap j hj hlt)
    · exact mergeAt_runes_right
    · exact hmono j (hbap j (by exact_mod_cast hgt) hj')
  have hlive : ∀ i, (Tokenizer.mergeAt len nodes a b i).runes ≠ [] →
      i ≠ b ∧ (nodes i).runes ≠ [] := by
    intro i hi
    refine ⟨fun h => hi (h ▸ mergeAt_runes_right), fun h => hi (hmono i h)⟩
  refine ⟨fun i hi => ?_, fun i hi => ?_⟩
  · obtain ⟨hib, hi'⟩ := hlive i hi
    obtain ⟨hn, _⟩ := @mergeAt_links len nodes a b i hib
    rw [hn]
    by_cases hia : i = a
    · rw [if_pos hia, hia]
      exact ⟨by omega, hgap⟩
    · rw [if_neg hia]
      obtain ⟨hlt, hap'⟩ := hl.next i hi'
      exact ⟨hlt, hap'.mono hmono⟩
  · obtain ⟨hib, hi'⟩ := hlive i hi
    obtain ⟨_, hp | ⟨rfl, hp⟩⟩ := @mergeAt_links len nodes a b i hib
    · rw [hp]
      obtain ⟨hlt, hap'⟩ := hl.prev i hi'
      exact ⟨hlt, hap'.mono hmono⟩
    · rw [hp]
      exact ⟨by omega, hgap⟩

def live (nodes : ℕ → Node) (len : ℕ) : ℕ :=
  ((Finset.range len).filter fun i => (nodes i).runes ≠ []).card

include hab hleft hright in
theorem live_mergeAt (hb : b < len) : live (mergeAt len nodes a b) len < live nodes len := by
  unfold live
  refine Finset.card_lt_card ⟨fun i hi => ?_, fun hsub => ?_⟩
  · obtain ⟨hlt, hne⟩ := Finset.mem_filter.mp hi
    exact Finset.mem_filter.mpr ⟨hlt, fun h => hne (mergeAt_empty hab h hleft)⟩
  · have hmem := hsub (Finset.mem_filter.mpr ⟨Finset.mem_range.mpr hb, hright⟩)
    exact (Finset.mem_filter.mp hmem).2 mergeAt_runes_right

end Merge

/-! ## §5  The run -/

variable {ε κ : Type} [LinearOrder κ] {key : ε → κ} {rules : MergeRules ε} {heap : Heap key}

/-- **The run of the loop**: it ends and keeps the text; a node that has more
than one rune is what `fresh` has let through. -/
theorem mergeLoop_spec {good : Str → Prop}
    (hgood : ∀ e l r, rules.fresh e l r = true → good (l ++ r)) {len : ℕ} :
    ∀ fuel nodes queue, Linked nodes → (∀ e ∈ queue, Neighbours rules len nodes e) →
      queue.length + 3 * live nodes len ≤ fuel →
      (∀ i, (nodes i).runes.length ≤ 1 ∨ good (encode (nodes i).runes)) →
      ∃ nodes', mergeLoop rules heap len fuel nodes queue = some nodes' ∧
        joined nodes' len = joined nodes len ∧
        ∀ i, (nodes' i).runes.length ≤ 1 ∨ good (encode (nodes' i).runes) := by
  intro fuel
  induction fuel with
  | zero =>
    intro nodes queue _ _ hfuel hnodes
    have hq : queue = [] := length_eq_zero_iff.mp (by omega)
    refine ⟨nodes, ?_, rfl, hnodes⟩
    rw [mergeLoop, hq, heap.pop_nil]
  | succ fuel ih =>
    intro nodes queue hl hq hfuel hnodes
    rw [mergeLoop]
    cases hpop : heap.pop queue with
    | none => exact ⟨nodes, rfl, rfl, hnodes⟩
    | some p =>
      obtain ⟨e, rest⟩ := p
      obtain ⟨hmem, hrest⟩ := heap.mem hpop
      have hlen := heap.length hpop
      have hrest' : ∀ x ∈ rest, Neighbours rules len nodes x := fun x hx => hq x (hrest x hx)
      simp only
      split
      · exact ih nodes rest hl hrest' (by omega) hnodes
      rename_i hcond
      push Not at hcond
      obtain ⟨hleft, hright, hfresh⟩ := hcond
      obtain ⟨hab, hb, hap⟩ := hq e hmem
      have hl' : Linked (mergeAt len nodes (rules.a e) (rules.b e)) :=
        hl.mergeAt hab hap hleft hright
      have hlive := live_mergeAt hab hleft hright hb
      have hra : (mergeAt len nodes (rules.a e) (rules.b e) (rules.a e)).runes =
          (nodes (rules.a e)).runes ++ (nodes (rules.b e)).runes :=
        mergeAt_runes_left (Nat.ne_of_lt hab)
      have hne : (mergeAt len nodes (rules.a e) (rules.b e) (rules.a e)).runes ≠ [] := by
        rw [hra]
        exact fun h => hleft (append_eq_nil_iff.mp h).1
      have hjoined := joined_merge hab (fun j hj hj' => hap j (by exact_mod_cast hj) hj') hra
        (@mergeAt_runes_right len nodes (rules.a e) (rules.b e))
        (fun j ha hb => mergeAt_runes_other ha hb) len
      rw [if_neg (by omega)] at hjoined
      have hmono : ∀ j, (nodes j).runes = [] →
          (mergeAt len nodes (rules.a e) (rules.b e) j).runes = [] :=
        fun j hj => mergeAt_empty hab hj hleft
      have hnodes' : ∀ i, (mergeAt len nodes (rules.a e) (rules.b e) i).runes.length ≤ 1 ∨
          good (encode (mergeAt len nodes (rules.a e) (rules.b e) i).runes) := by
        intro i
        by_cases hia : i = rules.a e
        · rw [hia, hra, encode_append]
          exact Or.inr (hgood e _ _ (Bool.eq_true_of_not_eq_false hfresh))
        · by_cases hib : i = rules.b e
          · rw [hib, mergeAt_runes_right]
            exact Or.inl (Nat.zero_le 1)
          · rw [mergeAt_runes_other hia hib]
            exact hnodes i
      generalize mergeAt len nodes (rules.a e) (rules.b e) = nodes₁ at *
      obtain ⟨hlt, hapn⟩ := hl'.next _ hne
      obtain ⟨hltp, happ⟩ := hl'.prev _ hne
      have hq' : ∀ x ∈ rest ++ (pairAt rules len nodes₁ (nodes₁ (rules.a e)).p
          (rules.a e)).toList ++ (pairAt rules len nodes₁ (rules.a e)
            (nodes₁ (rules.a e)).n).toList, Neighbours rules len nodes₁ x := by
        intro x hx
        rcases mem_append.mp hx with hx | hx
        · rcases mem_append.mp hx with hx | hx
          · obtain ⟨h₁, h₂, h₃⟩ := hrest' x hx
            exact ⟨h₁, h₂, h₃.mono hmono⟩
          · exact neighbours_pairAt hltp happ (Option.mem_toList.mp hx)
        · exact neighbours_pairAt (by exact_mod_cast hlt) hapn (Option.mem_toList.mp hx)
      have hcount : ∀ o : Option ε, o.toList.length ≤ 1 := by
        intro o
        cases o
        · exact Nat.zero_le 1
        · exact le_rfl
      obtain ⟨nodes', hrun, htext, hgood'⟩ := ih nodes₁ _ hl' hq' (by
        rw [length_append, length_append]
        have h₁ := hcount (pairAt rules len nodes₁ (nodes₁ (rules.a e)).p (rules.a e))
        have h₂ := hcount (pairAt rules len nodes₁ (rules.a e) (nodes₁ (rules.a e)).n)
        omega) hnodes'
      exact ⟨nodes', hrun, htext.trans hjoined, hgood'⟩

/-- **Merging keeps the text**, and what has more than one rune is what `fresh`
has let through. -/
theorem mergeRunes_spec {good : Str → Prop}
    (hgood : ∀ e l r, rules.fresh e l r = true → good (l ++ r)) (rs : List Char) :
    ∃ groups, mergeRunes rules heap rs = some groups ∧ groups.flatten = rs ∧
      ∀ g ∈ groups, g.length ≤ 1 ∨ good (encode g) := by
  have hsingle : ∀ i, (initNodes rs i).runes.length ≤ 1 := by
    intro i
    rw [initNodes]
    cases rs[i]?
    · exact Nat.zero_le 1
    · exact le_rfl
  have hlive : live (initNodes rs) rs.length ≤ rs.length :=
    (Finset.card_filter_le _ _).trans (Finset.card_range _).le
  obtain ⟨nodes, hrun, htext, hnodes⟩ := @mergeLoop_spec _ _ _ _ _ heap _ hgood rs.length
    (4 * rs.length) (initNodes rs)
    ((List.range (rs.length - 1)).filterMap fun i : ℕ =>
      pairAt rules rs.length (initNodes rs) i (i + 1)) (linked_initNodes rs) (by
      intro e he
      obtain ⟨i, _, hi⟩ := mem_filterMap.mp he
      refine neighbours_pairAt (by push_cast; omega) (fun j hj hj' => ?_) hi
      omega) (by
      have hqueue := length_filterMap_le
        (fun i : ℕ => pairAt rules rs.length (initNodes rs) i (i + 1)) (List.range (rs.length - 1))
      rw [length_range] at hqueue
      omega) (fun i => Or.inl (hsingle i))
  refine ⟨(List.range rs.length).map fun i => (nodes i).runes, ?_, ?_, ?_⟩
  · unfold mergeRunes
    simp only
    rw [hrun]
    rfl
  · rw [joined_initNodes rs rs.length le_rfl, take_length] at htext
    exact htext
  · intro g hg
    obtain ⟨i, _, rfl⟩ := mem_map.mp hg
    exact hnodes i

end Ollama.Tokenizer
