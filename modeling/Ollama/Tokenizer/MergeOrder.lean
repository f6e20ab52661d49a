import Ollama.Tokenizer.Merging
import Ollama.Lib.PairMerge

/-!
# The order of merges

The nodes of the merge loop hold a list of symbols, and the heap holds every
pair of neighbours in it that can be merged; what else it holds is stale. So a
pair that is merged is one of the lowest rank, and the loop ends where nothing
is left to merge.
-/

namespace Ollama.Tokenizer

open Lib Lib.Utf8 Lib.PairMerge List Function

/-! ## §1  Symbols in the nodes -/

/-- The symbols stand in the nodes from `i` on, behind node `p`: each at the place
of its first rune, linked to its neighbours. -/
def Laid (nodes : ℕ → Node) : ℕ → Int → List (List Char) → Prop
  | _, _, [] => True
  | i, p, x :: s =>
      (nodes i = ⟨p, i + x.length, x⟩ ∧ x ≠ [] ∧
        ∀ j, i < j → j < i + x.length → (nodes j).runes = []) ∧
      Laid nodes (i + x.length) i s

def lastNode : ℕ → Int → List (List Char) → Int
  | _, p, [] => p
  | i, _, x :: s => lastNode (i + x.length) i s

variable {s : List (List Char)}

theorem lastNode_concat {x : List Char} : ∀ {i : ℕ} {p : Int},
    lastNode i p (s ++ [x]) = ((i + size s : ℕ) : Int) := by
  induction s with
  | nil => exact rfl
  | cons y s ih =>
    intro i p
    rw [cons_append, lastNode, ih, size_cons, Nat.add_assoc]

variable {nodes : ℕ → Node}

theorem laid_append {s t : List (List Char)} : ∀ {i : ℕ} {p : Int},
    Laid nodes i p (s ++ t) ↔ Laid nodes i p s ∧ Laid nodes (i + size s) (lastNode i p s) t := by
  induction s with
  | nil =>
    intro i p
    exact ⟨fun h => ⟨trivial, h⟩, fun h => h.2⟩
  | cons x s ih =>
    intro i p
    rw [cons_append, Laid, Laid, ih, size_cons, lastNode, Nat.add_assoc]
    exact and_assoc.symm

variable {nodes' : ℕ → Node}

/-- Nodes that hold other symbols do not matter. -/
theorem Laid.congr : ∀ {i : ℕ} {p : Int},
    (∀ j, i ≤ j → j < i + size s → nodes' j = nodes j) → Laid nodes i p s → Laid nodes' i p s := by
  induction s with
  | nil => exact fun _ _ => trivial
  | cons x s ih =>
    rintro i p heq ⟨⟨hnode, hne, hempty⟩, hrest⟩
    rw [size_cons] at heq
    have hpos := length_pos_iff.mpr hne
    refine ⟨⟨?_, hne, fun j hj hj' => ?_⟩, ih (fun j hj hj' => heq j (by omega) (by omega)) hrest⟩
    · rw [heq i le_rfl (by omega)]
      exact hnode
    · rw [heq j (by omega) (by omega)]
      exact hempty j hj hj'

theorem Laid.node {pre post : List (List Char)} {x : List Char} {i : ℕ} {p : Int}
    (h : Laid nodes i p (pre ++ x :: post)) :
    nodes (i + size pre) = ⟨lastNode i p pre, i + size pre + x.length, x⟩ ∧ x ≠ [] := by
  obtain ⟨_, ⟨hnode, hne, _⟩, _⟩ := laid_append.mp h
  exact ⟨hnode, hne⟩

/-- A node that is not empty holds a symbol. -/
theorem Laid.exists_symbol : ∀ {i : ℕ} {p : Int}, Laid nodes i p s →
    ∀ {j : ℕ}, i ≤ j → j < i + size s → (nodes j).runes ≠ [] →
      ∃ pre x post, s = pre ++ x :: post ∧ j = i + size pre := by
  induction s with
  | nil =>
    intro i p _ j hj hj' _
    exact absurd hj' (by rw [size_nil]; omega)
  | cons x s ih =>
    rintro i p ⟨⟨_, _, hempty⟩, hrest⟩ j hj hj' hlive
    rw [size_cons] at hj'
    by_cases hij : i = j
    · exact ⟨[], x, s, rfl, by rw [size_nil, hij]; rfl⟩
    · by_cases hlt : j < i + x.length
      · exact absurd (hempty j (by omega) hlt) hlive
      · obtain ⟨pre, y, post, rfl, hpos⟩ := ih hrest (by omega) (by omega) hlive
        exact ⟨x :: pre, y, post, rfl, by rw [hpos, size_cons]; omega⟩

/-- The symbols are the nodes that are not empty. -/
theorem Laid.filter : ∀ {i : ℕ} {p : Int}, Laid nodes i p s →
    ((List.range' i (size s)).map fun j => (nodes j).runes).filter (fun g => decide (g ≠ [])) = s := by
  induction s with
  | nil => exact fun _ => rfl
  | cons x s ih =>
    rintro i p ⟨⟨hnode, hne, hempty⟩, hrest⟩
    obtain ⟨n, hn⟩ := Nat.exists_eq_succ_of_ne_zero (length_pos_iff.mpr hne).ne'
    have hhead : ((List.range' (i + 1) n).map fun j => (nodes j).runes).filter
        (fun g => decide (g ≠ [])) = [] := by
      refine filter_eq_nil_iff.mpr fun g hg => ?_
      obtain ⟨j, hj, rfl⟩ := mem_map.mp hg
      obtain ⟨hle, hlt⟩ := mem_range'_1.mp hj
      rw [hempty j (by omega) (by omega)]
      exact fun h => of_decide_eq_true h rfl
    have hsplit : List.range' i (size (x :: s)) =
        i :: (List.range' (i + 1) n ++ List.range' (i + x.length) (size s)) := by
      rw [size_cons, hn, Nat.succ_add, range'_succ, Nat.succ_eq_add_one, ← Nat.add_assoc,
        Nat.add_right_comm, range'_append_1]
    rw [hsplit, map_cons, filter_cons, if_pos (by rw [hnode]; exact decide_eq_true hne),
      map_append, filter_append, hhead, ih hrest, hnode]
    rfl

/-- The runes of a text are its first symbols. -/
theorem laid_initNodes (rs : List Char) : ∀ n i, i + n = rs.length →
    Laid (initNodes rs) i ((i : Int) - 1) ((rs.drop i).map fun c => [c]) := by
  intro n
  induction n with
  | zero =>
    intro i hi
    rw [drop_of_length_le (by omega)]
    trivial
  | succ n ih =>
    intro i hi
    have hlt : i < rs.length := by omega
    rw [drop_eq_getElem_cons hlt, map_cons]
    refine ⟨⟨?_, cons_ne_nil _ _, fun j hj hj' => ?_⟩, ?_⟩
    · rw [initNodes, getElem?_eq_getElem hlt]
      rfl
    · rw [length_singleton] at hj'
      omega
    · have hnext := ih (i + 1) (by omega)
      rwa [Int.natCast_add, Int.natCast_one, Int.add_sub_cancel] at hnext

/-! ## §2  One merge -/

section Merge

variable {len a b : ℕ}

theorem mergeAt_left (hab : a ≠ b) (hn : (nodes b).n ≠ a) : mergeAt len nodes a b a =
    ⟨(nodes a).p, (nodes b).n, (nodes a).runes ++ (nodes b).runes⟩ := by
  unfold mergeAt
  split
  · rw [update_of_ne hn.symm, update_of_ne hab, update_self]
  · rw [update_of_ne hab, update_self]

theorem mergeAt_next (hlt : (nodes b).n < len) (ha : (nodes b).n ≠ a) (hb : (nodes b).n ≠ b) :
    mergeAt len nodes a b (nodes b).n = { nodes (nodes b).n with p := a } := by
  unfold mergeAt
  rw [if_pos hlt, update_self, update_of_ne hb, update_of_ne ha]

theorem mergeAt_other {j : ℕ} (ha : j ≠ a) (hb : j ≠ b) (hn : j ≠ (nodes b).n) :
    mergeAt len nodes a b j = nodes j := by
  unfold mergeAt
  split
  · rw [update_of_ne hn, update_of_ne hb, update_of_ne ha]
  · rw [update_of_ne hb, update_of_ne ha]

variable {x y : List Char}

/-- Merging two nodes joins the symbols in them. -/
theorem Laid.merge {pre post : List (List Char)}
    (h : Laid nodes 0 (-1) (pre ++ x :: y :: post)) (hlen : size (pre ++ x :: y :: post) = len) :
    Laid (mergeAt len nodes (size pre) (size pre + x.length)) 0 (-1) (pre ++ (x ++ y) :: post) := by
  obtain ⟨hpre, ⟨hx, hxne, hxempty⟩, ⟨hy, hyne, hyempty⟩, hpost⟩ := laid_append.mp h
  rw [Nat.zero_add] at hx hxempty hy hyempty hpost
  have hxpos := length_pos_iff.mpr hxne
  have hypos := length_pos_iff.mpr hyne
  have hn : (nodes (size pre + x.length)).n = size pre + x.length + y.length := by rw [hy]
  refine laid_append.mpr ⟨hpre.congr fun j _ hj => ?_, ⟨⟨?_, ?_, ?_⟩, ?_⟩⟩
  · exact mergeAt_other (by omega) (by omega) (by omega)
  · rw [Nat.zero_add, mergeAt_left (by omega) (by omega), hx, hy, length_append, Nat.add_assoc]
  · exact fun hnil => hxne (append_eq_nil_iff.mp hnil).1
  · intro j hj hj'
    rw [Nat.zero_add] at hj hj'
    rw [length_append] at hj'
    rcases Nat.lt_trichotomy j (size pre + x.length) with hlt | rfl | hgt
    · rw [mergeAt_runes_other (by omega) (by omega)]
      exact hxempty j hj hlt
    · exact mergeAt_runes_right
    · rw [mergeAt_runes_other (by omega) (by omega)]
      exact hyempty j hgt (by omega)
  · rw [Nat.zero_add, length_append, ← Nat.add_assoc]
    cases post with
    | nil => trivial
    | cons z post =>
      -- what follows is linked to the left node
      obtain ⟨⟨hz, hzne, hzempty⟩, hrest⟩ := hpost
      have hzpos := length_pos_iff.mpr hzne
      have hlt : (nodes (size pre + x.length)).n < len := by
        rw [← hlen, size_append, size_cons, size_cons, size_cons, hn]
        omega
      refine ⟨⟨?_, hzne, fun j hj hj' => ?_⟩, hrest.congr fun j hj _ => ?_⟩
      · rw [← hn, mergeAt_next hlt (by omega) (by omega), hn, hz]
      · rw [mergeAt_other (by omega) (by omega) (by omega)]
        exact hzempty j hj hj'
      · exact mergeAt_other (by omega) (by omega) (by omega)

end Merge

/-! ## §3  What the heap holds -/

/-- The pairs are ranked by the heap: a pair is fresh when it is made, and no
longer when its right node has grown; its rank is part of its key. With `left`,
the key also says which of two pairs stands further to the left. -/
structure Ranked {ε κ ρ : Type} [LinearOrder κ] [LinearOrder ρ] (rules : MergeRules ε)
    (key : ε → κ) (rank : List Char → List Char → Option ρ) (left : Prop) : Prop where
  fresh : ∀ i j l r e, rules.pairwise i j l r = some e → rules.fresh e l r = true
  stale : ∀ i j l r r' e, rules.pairwise i j l r = some e → rules.fresh e l r' = true →
    r <+: r' → r = r'
  rank : ∃ rankOf : ε → ρ,
    (∀ i j x y, (rules.pairwise i j (encode x) (encode y)).map rankOf = rank x y) ∧
    ∀ e e', key e ≤ key e' →
      rankOf e < rankOf e' ∨ rankOf e = rankOf e' ∧ (left → rules.a e ≤ rules.a e')

variable {ε κ ρ : Type} [LinearOrder κ] [LinearOrder ρ] {key : ε → κ} {rules : MergeRules ε}
  {heap : Heap key} {len : ℕ}

def Grown (nodes : ℕ → Node) (i : ℕ) (x : List Char) : Prop :=
  (nodes i).runes = [] ∨ x <+: (nodes i).runes

def Made (rules : MergeRules ε) (len : ℕ) (nodes : ℕ → Node) (e : ε) : Prop :=
  ∃ l r, rules.pairwise (rules.a e) (rules.b e) (encode l) (encode r) = some e ∧
    rules.b e = rules.a e + l.length ∧ l ≠ [] ∧ rules.b e < len ∧
    Grown nodes (rules.a e) l ∧ Grown nodes (rules.b e) r

/-- What the heap holds while the symbols are `s`: pairs that have been made, and
all pairs of neighbours in `s`. -/
structure Queued (rules : MergeRules ε) (len : ℕ) (nodes : ℕ → Node) (s : List (List Char))
    (queue : List ε) : Prop where
  made : ∀ e ∈ queue, Made rules len nodes e
  all : ∀ pre x y post e, s = pre ++ x :: y :: post →
    rules.pairwise (size pre) (size pre + x.length) (encode x) (encode y) = some e → e ∈ queue

theorem pairAt_natCast {a b : ℕ} (hb : b < len) : pairAt rules len nodes (a : ℕ) b =
    rules.pairwise a b (encode (nodes a).runes) (encode (nodes b).runes) := by
  unfold pairAt
  rw [if_neg (by omega), Int.toNat_natCast]

/-- Two neighbours in the list make what is in the heap for them. -/
theorem made_of_laid {pre post : List (List Char)}
    (h : Laid nodes 0 (-1) (pre ++ x :: y :: post)) (hlen : size (pre ++ x :: y :: post) = len)
    {e : ε} (he : rules.pairwise (size pre) (size pre + x.length) (encode x) (encode y) = some e) :
    Made rules len nodes e := by
  obtain ⟨hx, hxne⟩ := h.node
  have h' : Laid nodes 0 (-1) ((pre ++ [x]) ++ y :: post) := by
    rw [append_assoc]
    exact h
  obtain ⟨hy, hyne⟩ := h'.node
  have hypos := length_pos_iff.mpr hyne
  rw [Nat.zero_add] at hx hy
  rw [size_append, size_cons, size_nil, Nat.add_zero] at hy
  have ha := rules.pairwise_a _ _ _ _ _ he
  have hb := rules.pairwise_b _ _ _ _ _ he
  refine ⟨x, y, by rw [ha, hb]; exact he, by rw [ha, hb], hxne, ?_, Or.inr ?_, Or.inr ?_⟩
  · rw [hb, ← hlen, size_append, size_cons, size_cons]
    omega
  · rw [ha, hx]
  · rw [hb, hy]

/-- The pair of a symbol and the one before it. -/
theorem pairAt_left {pre post : List (List Char)} {z : List Char}
    (h : Laid nodes 0 (-1) (pre ++ z :: post)) (hlen : size (pre ++ z :: post) = len) {e : ε} :
    pairAt rules len nodes (lastNode 0 (-1) pre) (size pre) = some e ↔
      ∃ pre' x, pre = pre' ++ [x] ∧ rules.pairwise (size pre') (size pre' + x.length) (encode x)
        (encode z) = some e := by
  obtain ⟨hz, hzne⟩ := h.node
  rw [Nat.zero_add] at hz
  have hzpos := length_pos_iff.mpr hzne
  rw [size_append, size_cons] at hlen
  rcases eq_nil_or_concat pre with rfl | ⟨pre', x, rfl⟩
  · constructor
    · intro hpair
      cases hpair
    · rintro ⟨pre', x, hnil, _⟩
      exact absurd hnil.symm (append_ne_nil_of_right_ne_nil _ (cons_ne_nil _ _))
  · rw [concat_eq_append] at h hz hlen ⊢
    have hlast : lastNode 0 (-1) (pre' ++ [x]) = (size pre' : Int) := by
      rw [lastNode_concat, Nat.zero_add]
    rw [append_assoc] at h
    obtain ⟨hx, _⟩ := h.node
    rw [Nat.zero_add] at hx
    rw [hlast, pairAt_natCast (by omega), hx, hz, size_append, size_cons, size_nil, Nat.add_zero]
    constructor
    · exact fun hpair => ⟨pre', x, rfl, hpair⟩
    · rintro ⟨pre₂, x₂, heq, hpair⟩
      obtain ⟨rfl, hx₂⟩ := append_inj' heq rfl
      rw [(List.cons.inj hx₂).1]
      exact hpair

/-- The pair of a symbol and the one after it. -/
theorem pairAt_right {pre post : List (List Char)} {z : List Char}
    (h : Laid nodes 0 (-1) (pre ++ z :: post)) (hlen : size (pre ++ z :: post) = len) {e : ε} :
    pairAt rules len nodes (size pre : ℕ) (size pre + z.length) = some e ↔
      ∃ y post', post = y :: post' ∧ rules.pairwise (size pre) (size pre + z.length) (encode z)
        (encode y) = some e := by
  obtain ⟨hz, _⟩ := h.node
  rw [Nat.zero_add] at hz
  rw [size_append, size_cons] at hlen
  cases post with
  | nil =>
    rw [size_nil] at hlen
    constructor
    · intro hpair
      unfold pairAt at hpair
      rw [if_pos (Or.inr (by omega))] at hpair
      cases hpair
    · rintro ⟨y, post', hnil, _⟩
      cases hnil
  | cons y post =>
    have h' : Laid nodes 0 (-1) ((pre ++ [z]) ++ y :: post) := by
      rw [append_assoc]
      exact h
    obtain ⟨hy, hyne⟩ := h'.node
    have hypos := length_pos_iff.mpr hyne
    rw [Nat.zero_add, size_append, size_cons, size_nil, Nat.add_zero] at hy
    rw [size_cons] at hlen
    rw [pairAt_natCast (by omega), hz, hy]
    constructor
    · exact fun hpair => ⟨y, post, rfl, hpair⟩
    · rintro ⟨y', post', heq, hpair⟩
      rw [(List.cons.inj heq).1]
      exact hpair

/-! ## §4  One round -/

def Passes (rules : MergeRules ε) (nodes : ℕ → Node) (e : ε) : Prop :=
  (nodes (rules.a e)).runes ≠ [] ∧ (nodes (rules.b e)).runes ≠ [] ∧
    rules.fresh e (encode (nodes (rules.a e)).runes) (encode (nodes (rules.b e)).runes) = true

theorem Laid.ne_nil : ∀ {i : ℕ} {p : Int}, Laid nodes i p s →
    ∀ x ∈ s, x ≠ [] := by
  induction s with
  | nil => exact fun _ x hx => absurd hx not_mem_nil
  | cons y s ih =>
    rintro i p ⟨⟨_, hne, _⟩, hrest⟩ x hx
    rcases mem_cons.mp hx with rfl | hx
    · exact hne
    · exact ih hrest x hx

theorem eq_nil_of_size (hne : ∀ x ∈ s, x ≠ []) (h : size s = 0) : s = [] := by
  cases s with
  | nil => rfl
  | cons x s =>
    rw [size_cons] at h
    exact absurd (length_eq_zero_iff.mp (by omega)) (hne x mem_cons_self)

/-- Two neighbours that can be merged pass the check. -/
theorem passes_of_pair {rank : List Char → List Char → Option ρ} {left : Prop}
    (hranked : Ranked rules key rank left) {pre post : List (List Char)}
    (h : Laid nodes 0 (-1) (pre ++ x :: y :: post)) {e : ε}
    (he : rules.pairwise (size pre) (size pre + x.length) (encode x) (encode y) = some e) :
    Passes rules nodes e := by
  obtain ⟨hx, hxne⟩ := h.node
  have h' : Laid nodes 0 (-1) ((pre ++ [x]) ++ y :: post) := by
    rw [append_assoc]
    exact h
  obtain ⟨hy, hyne⟩ := h'.node
  rw [Nat.zero_add] at hx hy
  rw [size_append, size_cons, size_nil, Nat.add_zero] at hy
  unfold Passes
  rw [rules.pairwise_a _ _ _ _ _ he, rules.pairwise_b _ _ _ _ _ he, hx, hy]
  exact ⟨hxne, hyne, hranked.fresh _ _ _ _ _ he⟩

/-- **What passes the check stands for two neighbours**: the left node cannot have
grown without taking the right one, and a right one that has grown is noticed. -/
theorem pair_of_passes {rank : List Char → List Char → Option ρ} {left : Prop}
    (hranked : Ranked rules key rank left) (h : Laid nodes 0 (-1) s)
    (hlen : size s = len) {e : ε} (hmade : Made rules len nodes e) (hpass : Passes rules nodes e) :
    ∃ pre x y post, s = pre ++ x :: y :: post ∧
      rules.pairwise (size pre) (size pre + x.length) (encode x) (encode y) = some e := by
  obtain ⟨l, r, hpair, hb, hl, hblt, hgl, hgr⟩ := hmade
  obtain ⟨ha_ne, hb_ne, hfresh⟩ := hpass
  have hlpos := length_pos_iff.mpr hl
  obtain ⟨pre, x, post, rfl, hpre⟩ := h.exists_symbol (Nat.zero_le _) (by omega) ha_ne
  obtain ⟨pre', y, post', heq, hpre'⟩ := h.exists_symbol (Nat.zero_le _) (by omega) hb_ne
  have hx := h.node.1
  have h' := h
  rw [heq] at h'
  have hy := h'.node.1
  rw [Nat.zero_add] at hpre hpre' hx hy
  unfold Grown at hgl hgr
  rw [hpre, hx] at hgl hfresh
  rw [hpre', hy] at hgr hfresh
  replace hgl : l <+: x := hgl.resolve_left h.node.2
  replace hgr : r <+: y := hgr.resolve_left h'.node.2
  have hle := hgl.length_le
  -- the right symbol starts where the left one ends
  have hnext : pre' = pre ++ [x] ∧ post = y :: post' ∧ l = x := by
    rcases append_eq_append_iff.mp heq with ⟨mid, rfl, hmid⟩ | ⟨mid, rfl, _⟩
    · rw [size_append] at hpre'
      cases mid with
      | nil =>
        rw [size_nil] at hpre'
        omega
      | cons z mid =>
        obtain ⟨rfl, htail⟩ := List.cons.inj hmid
        rw [size_cons] at hpre'
        have hmid : mid = [] := by
          refine eq_nil_of_size (fun w hw => h.ne_nil w ?_) (by omega)
          rw [htail]
          exact mem_append_right _ (mem_cons_of_mem _ (mem_append_left _ hw))
        subst hmid
        exact ⟨rfl, htail, hgl.eq_of_length (by omega)⟩
    · rw [size_append] at hpre
      omega
  obtain ⟨rfl, rfl, rfl⟩ := hnext
  have hry : encode r = encode y :=
    hranked.stale _ _ _ _ _ _ hpair hfresh (by
      obtain ⟨t, rfl⟩ := hgr
      rw [encode_append]
      exact prefix_append _ _)
  refine ⟨pre, l, y, post', rfl, ?_⟩
  rw [hry, hb, hpre] at hpair
  exact hpair

variable {rank : List Char → List Char → Option ρ} {left : Prop} {queue rest : List ε}

theorem Queued.drop (hranked : Ranked rules key rank left)
    (h : Laid nodes 0 (-1) s) {e : ε} (hq : Queued rules len nodes s queue)
    (hpop : heap.pop queue = some (e, rest)) (hfail : ¬Passes rules nodes e) :
    Queued rules len nodes s rest := by
  refine ⟨fun e' he' => hq.made e' ((heap.mem hpop).2 e' he'), fun pre x y post e' heq he' => ?_⟩
  subst heq
  have hmem := (heap.perm _ _ _ hpop).mem_iff.mp (hq.all pre x y post e' rfl he')
  rcases mem_cons.mp hmem with rfl | hmem
  · exact absurd (passes_of_pair hranked h he') hfail
  · exact hmem

/-- What nodes hold is not lost by a merge, but for the right one. -/
theorem Grown.merge {a b i : ℕ} {x : List Char} (hab : a ≠ b) (ha : (nodes a).runes ≠ [])
    (h : Grown nodes i x) : Grown (mergeAt len nodes a b) i x := by
  unfold Grown at h ⊢
  by_cases hib : i = b
  · rw [hib]
    exact Or.inl mergeAt_runes_right
  by_cases hia : i = a
  · rw [hia] at h ⊢
    rw [mergeAt_runes_left hab]
    exact Or.inr ((h.resolve_left ha).trans (prefix_append _ _))
  · rw [mergeAt_runes_other hia hib]
    exact h

/-- The heap after a merge: the pairs of the new symbol are put into it, the
others are there. -/
theorem Queued.merge {pre post : List (List Char)} {e : ε}
    (h : Laid nodes 0 (-1) (pre ++ x :: y :: post)) (hlen : size (pre ++ x :: y :: post) = len)
    (hq : Queued rules len nodes (pre ++ x :: y :: post) queue)
    (hpop : heap.pop queue = some (e, rest)) (ha : rules.a e = size pre)
    (hnodes' : nodes' = mergeAt len nodes (size pre) (size pre + x.length)) :
    Queued rules len nodes' (pre ++ (x ++ y) :: post) (rest ++
      (pairAt rules len nodes' (nodes' (size pre)).p (size pre)).toList ++
      (pairAt rules len nodes' (size pre : ℕ) (nodes' (size pre)).n).toList) := by
  obtain ⟨hx, hxne⟩ := h.node
  rw [Nat.zero_add] at hx
  have hxpos := length_pos_iff.mpr hxne
  have h' : Laid nodes' 0 (-1) (pre ++ (x ++ y) :: post) := by
    rw [hnodes']
    exact h.merge hlen
  have hlen' : size (pre ++ (x ++ y) :: post) = len := by
    rw [← hlen, size_append, size_append, size_cons, size_cons, size_cons, length_append]
    omega
  have hnode := h'.node.1
  rw [Nat.zero_add] at hnode
  rw [hnode]
  constructor
  · intro e' he'
    rcases mem_append.mp he' with he' | he'
    · rcases mem_append.mp he' with he' | he'
      · obtain ⟨l, r, hpair, hb, hl, hlt, hgl, hgr⟩ := hq.made e' ((heap.mem hpop).2 e' he')
        have hlive : (nodes (size pre)).runes ≠ [] := by rw [hx]; exact hxne
        have hab : size pre ≠ size pre + x.length := by omega
        rw [hnodes']
        exact ⟨l, r, hpair, hb, hl, hlt, hgl.merge hab hlive, hgr.merge hab hlive⟩
      · obtain ⟨pre', w, rfl, hpair⟩ := (pairAt_left h' hlen').mp (Option.mem_toList.mp he')
        rw [append_assoc] at h' hlen'
        exact made_of_laid h' hlen' hpair
    · obtain ⟨z, post', rfl, hpair⟩ := (pairAt_right h' hlen').mp (Option.mem_toList.mp he')
      exact made_of_laid h' hlen' hpair
  · intro pre' x' y' post' e' heq he'
    have hrest : e' ∈ queue → rules.a e' ≠ rules.a e → e' ∈ rest := by
      intro hmem hne
      rcases mem_cons.mp ((heap.perm _ _ _ hpop).mem_iff.mp hmem) with rfl | hmem
      · exact absurd rfl hne
      · exact hmem
    have ha' := rules.pairwise_a _ _ _ _ _ he'
    rcases cons_cons_of_append heq with ⟨mid, rfl, rfl⟩ | ⟨rfl, rfl, rfl⟩ | ⟨rfl, rfl, rfl⟩ |
      ⟨mid, rfl, rfl⟩
    · -- the pair stands before the symbols that are merged
      refine mem_append_left _ (mem_append_left _ (hrest ?_ ?_))
      · exact hq.all pre' x' y' (mid ++ x :: y :: post) e' (by rw [append_assoc]; rfl) he'
      · have hx'pos := length_pos_iff.mpr (h'.ne_nil x' (by simp))
        rw [ha', ha, size_append, size_cons]
        omega
    · exact mem_append_left _ (mem_append_right _ (Option.mem_toList.mpr
        ((pairAt_left h' hlen').mpr ⟨pre', x', rfl, he'⟩)))
    · exact mem_append_right _ (Option.mem_toList.mpr
        ((pairAt_right h' hlen').mpr ⟨y', post', rfl, he'⟩))
    -- the pair stands after them
    refine mem_append_left _ (mem_append_left _ (hrest ?_ ?_))
    · have hsize : size (pre ++ (x ++ y) :: mid) = size (pre ++ x :: y :: mid) := by
        rw [size_append, size_append, size_cons, size_cons, size_cons, length_append, Nat.add_assoc]
      rw [hsize] at he'
      exact hq.all (pre ++ x :: y :: mid) x' y' post' e' (by rw [append_assoc]; rfl) he'
    · rw [ha', ha, size_append, size_cons, length_append]
      omega

/-- What is popped and passes the check is a pair of the lowest rank. -/
theorem Queued.lowest (hranked : Ranked rules key rank left) {pre post : List (List Char)}
    (h : Laid nodes 0 (-1) (pre ++ x :: y :: post)) {e : ε}
    (hq : Queued rules len nodes (pre ++ x :: y :: post) queue)
    (hpop : heap.pop queue = some (e, rest))
    (he : rules.pairwise (size pre) (size pre + x.length) (encode x) (encode y) = some e) :
    Step rank (· ++ ·) left (pre ++ x :: y :: post) (pre ++ (x ++ y) :: post) := by
  obtain ⟨rankOf, hrank, hkey⟩ := hranked.rank
  have hr : rank x y = some (rankOf e) := by
    rw [← hrank (size pre) (size pre + x.length), he]
    rfl
  refine Step.join ⟨rfl, hr⟩ fun pre' x' y' post' k' hr' => ?_
  obtain ⟨e', he', hk'⟩ := Option.map_eq_some_iff.mp
    ((hrank (size pre') (size pre' + x'.length) x' y').trans hr'.rank)
  have hle : key e ≤ key e' := by
    have hmem := (heap.perm _ _ _ hpop).mem_iff.mp (hq.all pre' x' y' post' e' hr'.eq he')
    rcases mem_cons.mp hmem with rfl | hmem
    · exact le_rfl
    · exact heap.least _ _ _ hpop e' hmem
  rw [← hk']
  rcases hkey e e' hle with hlt | ⟨heq, hpos⟩
  · exact Or.inl hlt
  refine Or.inr ⟨heq, fun hleft => ?_⟩
  have ha := hpos hleft
  rw [rules.pairwise_a _ _ _ _ _ he, rules.pairwise_a _ _ _ _ _ he'] at ha
  -- fewer runes stand before the pair, so fewer symbols
  by_contra hcon
  rcases append_eq_append_iff.mp hr'.eq with ⟨mid, rfl, _⟩ | ⟨mid, rfl, _⟩
  · rw [length_append] at hcon
    omega
  rw [length_append] at hcon
  cases mid with
  | nil => exact hcon (by rw [length_nil]; omega)
  | cons w mid =>
    have hwpos := length_pos_iff.mpr (h.ne_nil w (by simp))
    rw [size_append, size_cons] at ha
    omega

/-! ## §5  The run -/

theorem mergeLoop_nil {fuel : ℕ} : mergeLoop rules heap len fuel nodes [] = some nodes := by
  rw [mergeLoop, heap.pop_nil]

theorem mergeLoop_drop {fuel : ℕ} {e : ε}
    (hpop : heap.pop queue = some (e, rest)) (hfail : ¬Passes rules nodes e) :
    mergeLoop rules heap len (fuel + 1) nodes queue = mergeLoop rules heap len fuel nodes rest := by
  rw [mergeLoop, hpop]
  refine if_pos ?_
  by_contra hcon
  push Not at hcon
  exact hfail ⟨hcon.1, hcon.2.1, Bool.eq_true_of_not_eq_false hcon.2.2⟩

theorem mergeLoop_merge {fuel : ℕ} {e : ε}
    (hpop : heap.pop queue = some (e, rest)) (hpass : Passes rules nodes e)
    (hnodes' : nodes' = mergeAt len nodes (rules.a e) (rules.b e)) :
    mergeLoop rules heap len (fuel + 1) nodes queue = mergeLoop rules heap len fuel nodes' (rest ++
      (pairAt rules len nodes' (nodes' (rules.a e)).p (rules.a e)).toList ++
      (pairAt rules len nodes' (rules.a e : ℕ) (nodes' (rules.a e)).n).toList) := by
  obtain ⟨hleft, hright, hfresh⟩ := hpass
  rw [mergeLoop, hpop, hnodes']
  refine if_neg ?_
  rintro (h | h | h)
  · exact hleft h
  · exact hright h
  · rw [hfresh] at h
    cases h

/-- The nodes hold the symbols, and the heap their pairs. -/
structure Holds (rules : MergeRules ε) (len : ℕ) (nodes : ℕ → Node) (s : List (List Char))
    (queue : List ε) : Prop where
  laid : Laid nodes 0 (-1) s
  length : size s = len
  queued : Queued rules len nodes s queue

theorem Holds.done (hranked : Ranked rules key rank left)
    (h : Holds rules len nodes s []) : Done rank s := by
  rintro pre x y post k ⟨heq, hk⟩
  obtain ⟨rankOf, hrank, _⟩ := hranked.rank
  obtain ⟨e, he, _⟩ := Option.map_eq_some_iff.mp
    ((hrank (size pre) (size pre + x.length) x y).trans hk)
  exact not_mem_nil (h.queued.all pre x y post e heq he)

/-- **One round that merges**: two neighbours of the lowest rank become one
symbol. -/
theorem Holds.round (hranked : Ranked rules key rank left)
    {e : ε} (h : Holds rules len nodes s queue)
    (hpop : heap.pop queue = some (e, rest)) (hpass : Passes rules nodes e)
    (hnodes' : nodes' = mergeAt len nodes (rules.a e) (rules.b e)) :
    ∃ pre x y post, s = pre ++ x :: y :: post ∧
      rules.pairwise (size pre) (size pre + x.length) (encode x) (encode y) = some e ∧
      Step rank (· ++ ·) left s (pre ++ (x ++ y) :: post) ∧
      Holds rules len nodes' (pre ++ (x ++ y) :: post) (rest ++
        (pairAt rules len nodes' (nodes' (rules.a e)).p (rules.a e)).toList ++
        (pairAt rules len nodes' (rules.a e : ℕ) (nodes' (rules.a e)).n).toList) := by
  obtain ⟨pre, x, y, post, rfl, he⟩ := pair_of_passes hranked h.laid h.length
    (h.queued.made e (heap.mem hpop).1) hpass
  have ha := rules.pairwise_a _ _ _ _ _ he
  have hb := rules.pairwise_b _ _ _ _ _ he
  rw [ha, hb] at hnodes'
  refine ⟨pre, x, y, post, rfl, he, h.queued.lowest hranked h.laid hpop he, ?_, ?_, ?_⟩
  · rw [hnodes']
    exact h.laid.merge h.length
  · have hsize := h.length
    rw [size_append, size_cons, size_cons] at hsize
    rw [size_append, size_cons, length_append, ← hsize]
    omega
  · rw [ha]
    exact h.queued.merge h.laid h.length hpop ha hnodes'

/-- **The run of the loop** ends in an outcome of merging pairs of the lowest
rank. -/
theorem Holds.run (hranked : Ranked rules key rank left) : ∀ fuel nodes queue s nodes',
    Holds rules len nodes s queue → mergeLoop rules heap len fuel nodes queue = some nodes' →
      ∃ s', Laid nodes' 0 (-1) s' ∧ size s' = len ∧ Outcome rank (· ++ ·) left s s' := by
  intro fuel
  induction fuel with
  | zero =>
    intro nodes queue s nodes' h hrun
    cases queue with
    | nil =>
      rw [mergeLoop_nil] at hrun
      cases hrun
      exact ⟨s, h.laid, h.length, Relation.ReflTransGen.refl, h.done hranked⟩
    | cons e queue =>
      obtain ⟨e', rest, hpop⟩ := heap.exists_of_ne_nil (e :: queue) (cons_ne_nil _ _)
      rw [mergeLoop, hpop] at hrun
      cases hrun
  | succ fuel ih =>
    intro nodes queue s nodes' h hrun
    cases queue with
    | nil =>
      rw [mergeLoop_nil] at hrun
      cases hrun
      exact ⟨s, h.laid, h.length, Relation.ReflTransGen.refl, h.done hranked⟩
    | cons e queue =>
      obtain ⟨e', rest, hpop⟩ := heap.exists_of_ne_nil (e :: queue) (cons_ne_nil _ _)
      by_cases hpass : Passes rules nodes e'
      · obtain ⟨pre, x, y, post, _, _, hstep, h'⟩ := h.round hranked hpop hpass rfl
        rw [mergeLoop_merge hpop hpass rfl] at hrun
        obtain ⟨s', hlaid, hsize, hrest, hdone⟩ := ih _ _ _ _ h' hrun
        exact ⟨s', hlaid, hsize, Relation.ReflTransGen.head hstep hrest, hdone⟩
      · rw [mergeLoop_drop hpop hpass] at hrun
        exact ih _ _ _ _ ⟨h.laid, h.length, h.queued.drop hranked h.laid hpop hpass⟩ hrun

/-- The runes of a text, and the pairs that are queued first. -/
theorem holds_init (rules : MergeRules ε) (rs : List Char) :
    Holds rules rs.length (initNodes rs) (rs.map fun c => [c])
      ((List.range (rs.length - 1)).filterMap fun i : ℕ =>
        pairAt rules rs.length (initNodes rs) i (i + 1)) := by
  have hsize : ∀ cs : List Char, size (cs.map fun c => [c]) = cs.length := by
    intro cs
    induction cs with
    | nil => rfl
    | cons c cs ih => rw [map_cons, size_cons, ih, length_singleton, length_cons, Nat.add_comm]
  have hlaid : Laid (initNodes rs) 0 (-1) (rs.map fun c => [c]) :=
    laid_initNodes rs rs.length 0 (Nat.zero_add _)
  have hone : ∀ x ∈ rs.map (fun c => [c]), x.length = 1 := by
    intro x hx
    obtain ⟨c, _, rfl⟩ := mem_map.mp hx
    rfl
  -- the pair at a place of the text
  have hpair : ∀ pre x post, (rs.map fun c => [c]) = pre ++ x :: post → ∀ e,
      pairAt rules rs.length (initNodes rs) (size pre : ℕ) (size pre + 1) = some e ↔
        ∃ y post', post = y :: post' ∧ rules.pairwise (size pre) (size pre + x.length) (encode x)
          (encode y) = some e := by
    intro pre x post heq e
    have hx : x.length = 1 := hone x (by rw [heq]; simp)
    have hright := @pairAt_right (initNodes rs) ε rules rs.length pre post x (heq ▸ hlaid)
      (by rw [← heq]; exact hsize rs) e
    rw [hx] at hright ⊢
    exact hright
  refine ⟨hlaid, hsize rs, fun e he => ?_, fun pre x y post e heq he => ?_⟩
  · obtain ⟨i, hi, he⟩ := mem_filterMap.mp he
    have hlt : i < rs.length := by
      have := mem_range.mp hi
      omega
    obtain ⟨pre, x, post, hsplit, rfl⟩ : ∃ pre x post,
        (rs.map fun c => [c]) = pre ++ x :: post ∧ size pre = i := by
      refine ⟨(rs.take i).map fun c => [c], [rs[i]], (rs.drop (i + 1)).map fun c => [c], ?_, ?_⟩
      · conv_lhs => rw [← take_append_drop i rs, drop_eq_getElem_cons hlt]
        rw [map_append, map_cons]
      · rw [hsize, length_take, Nat.min_eq_left hlt.le]
    obtain ⟨y, post', rfl, he'⟩ := (hpair pre x post hsplit e).mp he
    exact made_of_laid (hsplit ▸ hlaid) (by rw [← hsplit]; exact hsize rs) he'
  · refine mem_filterMap.mpr ⟨size pre, mem_range.mpr ?_, (hpair pre x _ heq e).mpr
      ⟨y, post, rfl, he⟩⟩
    have hx := hone x (by rw [heq]; simp)
    have hy := hone y (by rw [heq]; simp)
    have := hsize rs
    rw [heq, size_append, size_cons, size_cons] at this
    omega

/-- **Merging the runes of a text** ends in an outcome of merging pairs of the
lowest rank. -/
theorem mergeRunes_outcome (hranked : Ranked rules key rank left) {rs : List Char}
    {groups : List (List Char)} (h : mergeRunes rules heap rs = some groups) :
    Outcome rank (· ++ ·) left (rs.map fun c => [c]) (groups.filter fun g => decide (g ≠ [])) := by
  obtain ⟨nodes', hrun, rfl⟩ := Option.map_eq_some_iff.mp h
  obtain ⟨s', hlaid, hsize, hout⟩ := (holds_init rules rs).run hranked _ _ _ _ _ hrun
  have hfilter := hlaid.filter
  rw [hsize, ← range_eq_range'] at hfilter
  rw [hfilter]
  exact hout

end Ollama.Tokenizer
