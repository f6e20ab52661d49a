import Ollama.Convert.Experts

/-!
# The order of merged experts

The data of a merged tensor is in the order in which `parseSafetensors` lists its experts: file
by file, and in a file by their names.
-/

namespace Ollama.Convert

open Lib.Patterns List

/-! ## §1  What is listed -/

def toTensor (rs : Replacements) (p : Name × Metadata) : Tensor :=
  { name := replace rs p.1, dtype := p.2.dtype, shape := p.2.shape, data := p.2.data }

def tensorOf (rs : Replacements) (p : Name × Metadata) : Option Tensor :=
  if p.2.dtype = "" then none else some (toTensor rs p)

variable {rs : Replacements} {p : Name × Metadata}

theorem tensorOf_of_ne (h : p.2.dtype ≠ "") :
    tensorOf rs p = some (toTensor rs p) := if_neg h

/-- Shapes are there and names are not repeated. -/
structure WellFormed (rs : Replacements) (f : File) : Prop where
  keys : (f.map Prod.fst).Nodup
  shaped : ∀ p ∈ f, p.2.dtype ≠ "" → p.2.shape ≠ []
  names : ((f.filterMap (tensorOf rs)).map Tensor.name).Nodup

variable {f : File}

theorem parseKeys_eq {names : List Name} (hshaped : ∀ p ∈ f, p.2.dtype ≠ "" → p.2.shape ≠ [])
    (hnames : ((f.filterMap (tensorOf rs)).map Tensor.name).Nodup)
    (hnew : ∀ t ∈ f.filterMap (tensorOf rs), t.name ∉ names) :
    parseKeys rs names f = .ok (f.filterMap (tensorOf rs)) := by
  induction f generalizing names with
  | nil => rfl
  | cons p f ih =>
    obtain ⟨key, value⟩ := p
    have hrest := fun q hq => hshaped q (mem_cons_of_mem _ hq)
    rw [parseKeys]
    by_cases hdtype : value.dtype = ""
    · have hnone : tensorOf rs (key, value) = none := if_pos hdtype
      rw [filterMap_cons_none hnone] at hnames hnew ⊢
      rw [if_pos hdtype]
      exact ih hrest hnames hnew
    have hsome := @tensorOf_of_ne rs (key, value) hdtype
    rw [filterMap_cons_some hsome] at hnames hnew ⊢
    rw [map_cons, nodup_cons] at hnames
    -- the name is new for the rest too
    have hnew' : ∀ t ∈ f.filterMap (tensorOf rs), t.name ∉ replace rs key :: names := by
      intro t ht
      rw [mem_cons, not_or]
      refine ⟨fun heq => hnames.1 ?_, hnew t (mem_cons_of_mem _ ht)⟩
      exact mem_map.mpr ⟨t, ht, heq⟩
    have hfirst : replace rs key ∉ names := hnew _ mem_cons_self
    rw [if_neg hdtype, if_neg (hshaped _ mem_cons_self hdtype)]
    rw [if_neg hfirst, ih hrest hnames.2 hnew']
    rfl

theorem sortKeys_perm (f : File) : (sortKeys f).Perm f := perm_insertionSort _ f

theorem mem_sortKeys : p ∈ sortKeys f ↔ p ∈ f :=
  (sortKeys_perm f).mem_iff

/-- The tensors come file by file, in a file by their keys. -/
theorem parseSafetensors_eq {files : List File}
    (h : ∀ f ∈ files, WellFormed rs f) : parseSafetensors rs files =
      .ok (files.flatMap fun f => (sortKeys f).filterMap (tensorOf rs)) := by
  have hfile : ∀ f ∈ files, parseKeys rs [] (sortKeys f) =
      .ok ((sortKeys f).filterMap (tensorOf rs)) := by
    intro f hf
    obtain ⟨-, hshaped, hnames⟩ := h f hf
    refine parseKeys_eq (fun p hp => hshaped p (mem_sortKeys.mp hp)) ?_ fun _ _ => not_mem_nil
    exact (((sortKeys_perm f).filterMap _).map _).nodup_iff.mpr hnames
  have hmap : (files.mapM fun f => parseKeys rs [] (sortKeys f)) =
      .ok (files.map fun f => (sortKeys f).filterMap (tensorOf rs)) := by
    clear h
    induction files with
    | nil => rfl
    | cons f files ih =>
      rw [mapM_cons, hfile f mem_cons_self, ih fun g hg => hfile g (mem_cons_of_mem _ hg)]
      rfl
  unfold parseSafetensors
  rw [hmap, flatMap_def]
  rfl

/-! ## §2  The experts of a file -/

/-- The number of the expert of layer `l` that has this key for the weight. -/
def expertOf (a : Arch) (E l : ℕ) (w : Weight) (key : Name) : Option ℕ :=
  (List.range E).find? fun e => decide (key = a.key l e w)

variable {a : Arch} {w : Weight}

theorem expertOf_eq_some {E l e : ℕ} {key : Name} :
    expertOf a E l w key = some e ↔ e < E ∧ key = a.key l e w := by
  have hfound : ∀ {x}, expertOf a E l w key = some x → x < E ∧ key = a.key l x w := by
    intro x h
    have hkey := find?_some h
    exact ⟨mem_range.mp (mem_of_find?_eq_some h), of_decide_eq_true hkey⟩
  constructor
  · exact hfound
  rintro ⟨he, hkey⟩
  cases hfind : expertOf a E l w key with
  | none =>
    have hnone := find?_eq_none.mp hfind e (mem_range.mpr he)
    exact absurd (decide_eq_true hkey) hnone
  | some x =>
    rw [Arch.key_inj ((hfound hfind).2.symm.trans hkey)]

def indices (a : Arch) (E l : ℕ) (w : Weight) (f : File) : List ℕ :=
  (sortKeys f).filterMap fun p => expertOf a E l w p.1

def Has (a : Arch) (l : ℕ) (w : Weight) (f : File) (e : ℕ) : Prop := a.key l e w ∈ f.map Prod.fst

theorem mem_indices {E l e : ℕ} : e ∈ indices a E l w f ↔ e < E ∧ Has a l w f e := by
  rw [indices, mem_filterMap, Has, mem_map]
  constructor
  · rintro ⟨p, hp, hsome⟩
    obtain ⟨he, hkey⟩ := expertOf_eq_some.mp hsome
    exact ⟨he, p, mem_sortKeys.mp hp, hkey⟩
  · rintro ⟨he, p, hp, hkey⟩
    exact ⟨p, mem_sortKeys.mpr hp, expertOf_eq_some.mpr ⟨he, hkey⟩⟩

theorem sortKeys_pairwise (hf : (f.map Prod.fst).Nodup) :
    (sortKeys f).Pairwise fun p q => p.1 < q.1 := by
  have hle : (sortKeys f).Pairwise fun p q => p.1 ≤ q.1 :=
    haveI : Std.Total fun p q : Name × Metadata => p.1 ≤ q.1 := ⟨fun p q => le_total p.1 q.1⟩
    haveI : IsTrans (Name × Metadata) fun p q => p.1 ≤ q.1 := ⟨fun _ _ _ => le_trans⟩
    pairwise_insertionSort _ f
  have hne : (sortKeys f).Pairwise fun p q => p.1 ≠ q.1 := by
    rw [← pairwise_map]
    exact ((sortKeys_perm f).map Prod.fst).nodup_iff.mpr hf
  exact (hle.and hne).imp fun h => lt_of_le_of_ne h.1 h.2

theorem indices_pairwise {E l : ℕ}
    (hf : (f.map Prod.fst).Nodup) : (indices a E l w f).Pairwise fun x y => dec x < dec y := by
  rw [indices, pairwise_filterMap]
  refine (sortKeys_pairwise hf).imp ?_
  intro p q hlt x hx y hy
  have hp := (expertOf_eq_some.mp hx).2
  have hq := (expertOf_eq_some.mp hy).2
  rw [hp, hq] at hlt
  exact Arch.key_lt_iff.mp hlt

/-! ## §3  What is merged -/

def held (a : Arch) (files : List File) (key : Name) : List Tensor :=
  (files.flatten.filter fun p => decide (p.1 = key)).map (toTensor a.replacements)

/-- The files hold the weights of `E` experts of every layer that is merged, each once, and
whatever else no pattern matches. -/
structure Holds (c : Config) (E : ℕ) (files : List File) : Prop where
  wellFormed : ∀ f ∈ files, WellFormed c.arch.replacements f
  once : ∀ l ∈ c.merged, ∀ e < E, ∀ w, (held c.arch files (c.arch.key l e w)).length = 1
  typed : ∀ l ∈ c.merged, ∀ e < E, ∀ w, ∀ t ∈ held c.arch files (c.arch.key l e w), t.dtype ≠ ""
  others : ∀ p ∈ files.flatten, (∃ l ∈ c.merged, ∃ e < E, ∃ w, p.1 = c.arch.key l e w) ∨
    ∀ m ∈ c.merges, pathMatch m.pattern (replace c.arch.replacements p.1) = false

/-- What `parseSafetensors` lists. -/
def tensorsOf (c : Config) (files : List File) : List Tensor :=
  files.flatMap fun f => (sortKeys f).filterMap (tensorOf c.arch.replacements)

def listed (c : Config) (E : ℕ) (files : List File) (l : ℕ) (w : Weight) : List ℕ :=
  (files.map (indices c.arch E l w)).flatten

def group (c : Config) (E : ℕ) (files : List File) (l : ℕ) (w : Weight) : List Tensor :=
  (listed c E files l w).flatMap fun e => held c.arch files (c.arch.key l e w)

namespace Holds

variable {c : Config} {E : ℕ} {files : List File}

theorem held_of_mem (h : Holds c E files) {l e : ℕ} {w : Weight} (hl : l ∈ c.merged) (he : e < E)
    (hp : p ∈ files.flatten) (hkey : p.1 = c.arch.key l e w) :
    held c.arch files (c.arch.key l e w) = [toTensor c.arch.replacements p] ∧ p.2.dtype ≠ "" := by
  have hmem : toTensor c.arch.replacements p ∈ held c.arch files (c.arch.key l e w) :=
    mem_map.mpr ⟨p, mem_filter.mpr ⟨hp, decide_eq_true hkey⟩, rfl⟩
  obtain ⟨t, ht⟩ := length_eq_one_iff.mp (h.once l hl e he w)
  refine ⟨?_, h.typed l hl e he w _ hmem⟩
  rw [ht] at hmem ⊢
  rw [mem_singleton.mp hmem]

theorem held_singleton (h : Holds c E files) {l e : ℕ} {w : Weight} (hl : l ∈ c.merged)
    (he : e < E) : ∃ t, held c.arch files (c.arch.key l e w) = [t] ∧
      t.name = c.arch.ggufName l e w := by
  obtain ⟨t, ht⟩ := length_eq_one_iff.mp (h.once l hl e he w)
  refine ⟨t, ht, ?_⟩
  have hmem : t ∈ held c.arch files (c.arch.key l e w) := ht ▸ mem_singleton_self t
  obtain ⟨p, hp, rfl⟩ := mem_map.mp hmem
  have hkey := of_decide_eq_true (mem_filter.mp hp).2
  rw [toTensor, hkey, replace_key]

theorem sorts (h : Holds c E files) : ∀ t ∈ tensorsOf c files, c.Sorts t := by
  intro t ht
  rw [tensorsOf, mem_flatMap] at ht
  obtain ⟨f, hf, ht⟩ := ht
  obtain ⟨p, hp, hsome⟩ := mem_filterMap.mp ht
  have hmem : p ∈ files.flatten := mem_flatten.mpr ⟨f, hf, mem_sortKeys.mp hp⟩
  have hname : t.name = replace c.arch.replacements p.1 := by
    rw [tensorOf] at hsome
    split at hsome
    · cases hsome
    · cases hsome
      rfl
  rcases h.others p hmem with ⟨l, -, e, -, w, hkey⟩ | hother
  · exact Or.inl ⟨l, e, w, by rw [hname, hkey, replace_key]⟩
  · refine Or.inr fun m hm => ?_
    rw [Merge.matches, hname]
    exact hother m hm

/-- Each of them is listed once. -/
theorem listed_perm (h : Holds c E files) {l : ℕ} (hl : l ∈ c.merged) (w : Weight) :
    (listed c E files l w).Perm (List.range E) := by
  have hall : (listed c E files l w).Perm
      (files.flatten.filterMap fun p => expertOf c.arch E l w p.1) := by
    rw [listed, filterMap_flatten]
    refine List.Perm.flatten_congr ?_
    rw [forall₂_map_left_iff, forall₂_map_right_iff]
    exact forall₂_same.mpr fun f _ => (sortKeys_perm f).filterMap _
  refine hall.trans (perm_iff_count.mpr fun e => ?_)
  rw [count_filterMap, count_range]
  split
  · rename_i he
    have honce := h.once l hl e he w
    rw [held, length_map, ← countP_eq_length_filter] at honce
    rw [← honce]
    refine countP_congr fun p _ => ?_
    rw [beq_iff_eq, expertOf_eq_some, decide_eq_true_iff]
    exact and_iff_right he
  · rename_i he
    refine countP_eq_zero.mpr fun p _ => ?_
    rw [beq_iff_eq, expertOf_eq_some]
    exact fun hand => he hand.1

/-- **What a merge takes**: the experts of its layer and weight, as the files list them. -/
theorem filter_matches (h : Holds c E files) {l : ℕ} (hl : l ∈ c.merged) (w : Weight) :
    (tensorsOf c files).filter (c.arch.mergeOf l (w.text, c.arch.exps w)).matches =
      group c E files l w := by
  have hends := c.arch.exps_mem_ends w
  -- pair by pair of a file
  have hpair : ∀ p ∈ files.flatten, ((tensorOf c.arch.replacements p).filter
        (c.arch.mergeOf l (w.text, c.arch.exps w)).matches).toList =
      (expertOf c.arch E l w p.1).toList.flatMap fun e =>
        held c.arch files (c.arch.key l e w) := by
    intro p hp
    cases hexpert : expertOf c.arch E l w p.1 with
    | some e =>
      obtain ⟨he, hkey⟩ := expertOf_eq_some.mp hexpert
      obtain ⟨hheld, htyped⟩ := h.held_of_mem hl he hp hkey
      have hname : (toTensor c.arch.replacements p).name = c.arch.ggufName l e w := by
        rw [toTensor, hkey, replace_key]
      rw [tensorOf_of_ne htyped, Option.filter_some_pos
        ((Arch.mergeOf_matches hends hname).mpr ⟨rfl, rfl⟩)]
      exact ((flatMap_singleton _ e).trans hheld).symm
    | none =>
      have hno : (c.arch.mergeOf l (w.text, c.arch.exps w)).matches
          (toTensor c.arch.replacements p) = false := by
        rcases h.others p hp with ⟨l', hl', e, he, v, hkey⟩ | hother
        · have hname : (toTensor c.arch.replacements p).name = c.arch.ggufName l' e v := by
            rw [toTensor, hkey, replace_key]
          rw [← Bool.not_eq_true, Arch.mergeOf_matches hends hname]
          rintro ⟨rfl, hend⟩
          have hv : w = v := Weight.text_inj hend
          rw [expertOf_eq_some.mpr ⟨he, hv ▸ hkey⟩] at hexpert
          cases hexpert
        · exact hother _ (Config.mem_merges.mpr ⟨l, hl, _, hends, rfl⟩)
      rw [tensorOf]
      split
      · rfl
      · rw [Option.filter_some_neg (Bool.not_eq_true _ ▸ hno)]
        rfl
  rw [tensorsOf, filter_flatMap, group, listed, ← flatMap_def, flatMap_assoc]
  refine flatMap_congr fun f hf => ?_
  rw [filter_filterMap, filterMap_eq_flatMap_toList, indices,
    filterMap_eq_flatMap_toList, flatMap_assoc]
  refine flatMap_congr fun p hp => hpair p ?_
  exact mem_flatten.mpr ⟨f, hf, mem_sortKeys.mp hp⟩

end Holds

/-! ## §4  The order -/

def expsName (c : Config) (l : ℕ) (w : Weight) : Name := "blk.".toList ++ dec l ++ c.arch.exps w

def experts (c : Config) (E : ℕ) (files : List File) (l : ℕ) (w : Weight) : List Tensor :=
  (List.range E).flatMap fun e => held c.arch files (c.arch.key l e w)

/-- Merged experts are in numeric order: there is a merged tensor for each weight of each layer
that is merged, its data is that of the experts in increasing order, its first dimension is
their number, and every tensor is used once. -/
structure NumericOrder (c : Config) (E : ℕ) (files : List File)
    (out : List Output × List Output) : Prop where
  names : out.1.map Output.name = c.merged.flatMap fun l => weights.map (expsName c l)
  order : ∀ o ∈ out.1, ∃ l ∈ c.merged, ∃ w, o.name = expsName c l w ∧
    o.writerTo = experts c E files l w ∧
    o.written = (experts c E files l w).flatMap Tensor.data
  first : ∀ o ∈ out.1, o.shape.head? = some E
  once : ((out.1 ++ out.2).flatMap Output.writerTo).Perm (tensorsOf c files)

/-- The experts of an earlier file come before those of a later one, and in a file their
numerals are in the order of texts. -/
structure InOrder (c : Config) (E : ℕ) (files : List File) (l : ℕ) (w : Weight) : Prop where
  across : files.Pairwise fun f g => ∀ x < E, ∀ y < E,
    Has c.arch l w f x → Has c.arch l w g y → x < y
  within : ∀ f ∈ files, ∀ x < E, ∀ y < E, Has c.arch l w f x → Has c.arch l w f y → x < y →
    dec x < dec y

theorem Merge.mem_output {kind : Tensor → ℕ} {m : Merge} {ts : List Tensor} {o : Output}
    (h : o ∈ m.output kind ts) :
    o.name = m.name ∧ o.writerTo = ts ∧ o.shape.head? = some ts.length := by
  cases ts with
  | nil => cases h
  | cons t ts =>
    rw [mem_singleton.mp h]
    exact ⟨rfl, rfl, rfl⟩

theorem Merge.map_output {kind : Tensor → ℕ} {m : Merge} {ts : List Tensor} (h : ts ≠ []) :
    (m.output kind ts).map Output.name = [m.name] := by
  cases ts with
  | nil => exact absurd rfl h
  | cons t ts => rfl

theorem Arch.layer_of_ggufName {l l' x y : ℕ} {w v : Weight}
    (h : a.ggufName l x w = a.ggufName l' y v) : l = l' ∧ w = v := by
  have hmatch : pathMatch (a.pattern l w.text) (a.ggufName l x w) = true :=
    (Arch.pathMatch_ggufName ⟨w, Or.inl rfl⟩).mpr ⟨rfl, rfl⟩
  rw [h, Arch.pathMatch_ggufName ⟨w, Or.inl rfl⟩] at hmatch
  exact ⟨hmatch.1, Weight.text_inj hmatch.2⟩

namespace Holds

variable {c : Config} {E : ℕ} {files : List File}

variable {l : ℕ}

section

variable (h : Holds c E files)
include h

theorem map_name (hl : l ∈ c.merged) (w : Weight) {es : List ℕ}
    (hes : ∀ e ∈ es, e < E) :
    (es.flatMap fun e => held c.arch files (c.arch.key l e w)).map Tensor.name =
      es.map fun e => c.arch.ggufName l e w := by
  rw [map_flatMap, map_eq_flatMap]
  refine flatMap_congr fun e he => ?_
  obtain ⟨t, ht, hname⟩ := h.held_singleton hl (hes e he)
  rw [ht, map_singleton, hname]

theorem lt_of_mem_listed (hl : l ∈ c.merged) {w : Weight} {e : ℕ}
    (he : e ∈ listed c E files l w) : e < E :=
  mem_range.mp ((h.listed_perm hl w).mem_iff.mp he)

theorem length_group (hl : l ∈ c.merged) (w : Weight) :
    (group c E files l w).length = E := by
  have hmap := h.map_name hl w fun e (he : e ∈ listed c E files l w) => h.lt_of_mem_listed hl he
  have hlen := congrArg List.length hmap
  rw [length_map, length_map, (h.listed_perm hl w).length_eq, length_range] at hlen
  exact hlen

theorem outputs (kind : Tensor → ℕ) :
    (c.tensors kind (tensorsOf c files)).1 = c.merged.flatMap fun l => weights.flatMap fun w =>
      (c.arch.mergeOf l (w.text, c.arch.exps w)).output kind (group c E files l w) := by
  refine (mergeTensors_eq (Config.merges_disjoint h.sorts)).trans ?_
  rw [Config.merges, flatMap_assoc]
  refine flatMap_congr fun l hl => ?_
  rw [Arch.layerMerges_eq, flatMap_map, Arch.flatMap_ends]
  · exact flatMap_congr fun w _ => congrArg _ (h.filter_matches hl w)
  -- no tensor is a bias
  intro w hw
  have hnone : (tensorsOf c files).filter (c.arch.mergeOf l (w.bias, w.expsBias)).matches = [] := by
    refine filter_eq_nil_iff.mpr fun t ht => ?_
    rcases h.sorts t ht with ⟨l', e, v, hname⟩ | hother
    · rw [Arch.mergeOf_matches hw hname]
      exact fun hand => absurd hand.2 (Weight.bias_ne_text w v)
    · rw [hother _ (Config.mem_merges.mpr ⟨l, hl, _, hw, rfl⟩)]
      exact Bool.false_ne_true
  rw [hnone]
  rfl

theorem mem_outputs {kind : Tensor → ℕ} {o : Output} :
    o ∈ (c.tensors kind (tensorsOf c files)).1 ↔ ∃ l ∈ c.merged, ∃ w,
      o ∈ (c.arch.mergeOf l (w.text, c.arch.exps w)).output kind (group c E files l w) := by
  rw [h.outputs, mem_flatMap]
  refine exists_congr fun l => and_congr_right fun _ => ?_
  rw [mem_flatMap]
  exact exists_congr fun w => and_iff_right (mem_weights w)

theorem group_ne_nil (hE : 1 ≤ E) (hl : l ∈ c.merged) (w : Weight) :
    group c E files l w ≠ [] := by
  intro hnil
  have hlen := h.length_group hl w
  rw [hnil, length_nil] at hlen
  exact absurd hE (by rw [← hlen]; exact Nat.not_succ_le_zero 0)

theorem names (hE : 1 ≤ E) (kind : Tensor → ℕ) :
    (c.tensors kind (tensorsOf c files)).1.map Output.name =
      c.merged.flatMap fun l => weights.map (expsName c l) := by
  rw [h.outputs, map_flatMap]
  refine flatMap_congr fun l hl => ?_
  rw [map_flatMap, map_eq_flatMap]
  refine flatMap_congr fun w _ => ?_
  rw [Merge.map_output (h.group_ne_nil hE hl w)]
  rfl

end

theorem once_used (c : Config) (kind : Tensor → ℕ) (ts : List Tensor) :
    (((c.tensors kind ts).1 ++ (c.tensors kind ts).2).flatMap Output.writerTo).Perm ts := by
  have hothers : ∀ {remaining : List Tensor} {g : Tensor → Output},
      (∀ t, (g t).writerTo = [t]) → (remaining.map g).flatMap Output.writerTo = remaining := by
    intro remaining g hg
    rw [flatMap_map, flatMap_congr fun t _ => hg t]
    exact flatMap_singleton' remaining
  rw [flatMap_append, Config.tensors]
  rw [hothers fun _ => rfl]
  exact mergeTensors_perm kind ts c.merges

/-- **The order of the merged** is that of the list. -/
theorem numericOrder_iff_listed (h : Holds c E files) (hE : 1 ≤ E) (kind : Tensor → ℕ) :
    NumericOrder c E files (c.tensors kind (tensorsOf c files)) ↔
      ∀ l ∈ c.merged, ∀ w, listed c E files l w = List.range E := by
  constructor
  · intro horder l hl w
    -- some merged tensor is of this weight, and its tensors tell which
    obtain ⟨t, ts, hgroup⟩ := exists_cons_of_ne_nil (h.group_ne_nil hE hl w)
    obtain ⟨o, ho⟩ : ∃ o, o ∈ (c.arch.mergeOf l (w.text, c.arch.exps w)).output kind
        (group c E files l w) := by
      rw [hgroup]
      exact ⟨_, mem_singleton_self _⟩
    obtain ⟨l', hl', v, -, hexperts, -⟩ := horder.order o (h.mem_outputs.mpr ⟨l, hl, w, ho⟩)
    rw [(Merge.mem_output ho).2.1] at hexperts
    have hnames := congrArg (List.map Tensor.name) hexperts
    rw [group, h.map_name hl w fun e he => h.lt_of_mem_listed hl he, experts,
      h.map_name hl' v fun e he => mem_range.mp he] at hnames
    obtain ⟨rfl, rfl⟩ : l = l' ∧ w = v := by
      have hmem : c.arch.ggufName l' 0 v ∈
          (listed c E files l w).map fun e => c.arch.ggufName l e w := by
        rw [hnames]
        exact mem_map.mpr ⟨0, mem_range.mpr hE, rfl⟩
      obtain ⟨e, -, heq⟩ := mem_map.mp hmem
      exact Arch.layer_of_ggufName heq
    exact map_injective_iff.mpr (fun _ _ => Arch.ggufName_inj) hnames
  · intro hlisted
    have hgroup : ∀ l ∈ c.merged, ∀ w, group c E files l w = experts c E files l w := by
      intro l hl w
      rw [group, hlisted l hl w, experts]
    refine ⟨h.names hE kind, ?_, ?_, once_used c kind _⟩
    · intro o ho
      obtain ⟨l, hl, w, ho⟩ := h.mem_outputs.mp ho
      obtain ⟨hname, hwriter, -⟩ := Merge.mem_output ho
      rw [hgroup l hl w] at hwriter
      exact ⟨l, hl, w, hname, hwriter, by rw [Output.written, hwriter]⟩
    · intro o ho
      obtain ⟨l, hl, w, ho⟩ := h.mem_outputs.mp ho
      rw [(Merge.mem_output ho).2.2, h.length_group hl w]

theorem listed_eq_range_iff (h : Holds c E files) (hl : l ∈ c.merged) (w : Weight) :
    listed c E files l w = List.range E ↔ InOrder c E files l w := by
  have hsorted : ∀ g ∈ files.map (indices c.arch E l w), g.Pairwise fun x y => dec x < dec y := by
    refine forall_mem_map.mpr fun f hf => ?_
    exact indices_pairwise (h.wellFormed f hf).keys
  rw [listed, flatten_eq_range_iff hsorted (h.listed_perm hl w), pairwise_map, forall_mem_map]
  constructor
  · rintro ⟨hacross, hwithin⟩
    constructor
    · refine hacross.imp fun hfg x hx y hy hxf hyg => ?_
      exact hfg x (mem_indices.mpr ⟨hx, hxf⟩) y (mem_indices.mpr ⟨hy, hyg⟩)
    · intro f hf x hx y hy hxf hyf
      exact hwithin f hf x (mem_indices.mpr ⟨hx, hxf⟩) y (mem_indices.mpr ⟨hy, hyf⟩)
  · rintro ⟨hacross, hwithin⟩
    constructor
    · refine hacross.imp fun hfg x hx y hy => ?_
      obtain ⟨hxE, hxf⟩ := mem_indices.mp hx
      obtain ⟨hyE, hyg⟩ := mem_indices.mp hy
      exact hfg x hxE y hyE hxf hyg
    · intro f hf x hx y hy
      obtain ⟨hxE, hxf⟩ := mem_indices.mp hx
      obtain ⟨hyE, hyf⟩ := mem_indices.mp hy
      exact hwithin f hf x hxE y hyE hxf hyf

end Holds

/-! ## §5  One file -/

def oneFile (c : Config) (E : ℕ) (m : ℕ → ℕ → Weight → Metadata) : File :=
  ((c.merged ×ˢ List.range E) ×ˢ weights).map fun i =>
    (c.arch.key i.1.1 i.1.2 i.2, m i.1.1 i.1.2 i.2)

section OneFile

variable {c : Config} {E : ℕ} {m : ℕ → ℕ → Weight → Metadata}

theorem mem_oneFile : p ∈ oneFile c E m ↔
    ∃ l ∈ c.merged, ∃ e < E, ∃ w, p = (c.arch.key l e w, m l e w) := by
  rw [oneFile, mem_map]
  constructor
  · rintro ⟨⟨⟨l, e⟩, w⟩, hi, rfl⟩
    rw [mem_product, mem_product] at hi
    exact ⟨l, hi.1.1, e, mem_range.mp hi.1.2, w, rfl⟩
  · rintro ⟨l, hl, e, he, w, rfl⟩
    refine ⟨⟨⟨l, e⟩, w⟩, ?_, rfl⟩
    rw [mem_product, mem_product]
    exact ⟨⟨hl, mem_range.mpr he⟩, mem_weights w⟩

/-- Keys of experts are told apart, by their names after the replacements as well. -/
theorem nodup_oneFile_map {g : Name → Name} (hg : ∀ {l e w l' e' w'},
      g (c.arch.key l e w) = g (c.arch.key l' e' w') → c.arch.ggufName l e w =
        c.arch.ggufName l' e' w') :
    ((oneFile c E m).map fun p => g p.1).Nodup := by
  have hproduct : ((c.merged ×ˢ List.range E) ×ˢ weights).Nodup :=
    (c.merged_nodup.product nodup_range).product (by decide)
  rw [oneFile, map_map]
  refine hproduct.map_on ?_
  rintro ⟨⟨l, e⟩, w⟩ - ⟨⟨l', e'⟩, w'⟩ - heq
  have hname : c.arch.ggufName l e w = c.arch.ggufName l' e' w' := hg heq
  obtain ⟨rfl, rfl⟩ := Arch.layer_of_ggufName hname
  rw [Arch.ggufName_inj hname]

theorem nodup_oneFile : ((oneFile c E m).map Prod.fst).Nodup := by
  refine @nodup_oneFile_map c E m id fun {l e w l' e' w'} heq => ?_
  rw [← replace_key, ← replace_key]
  exact congrArg _ heq

theorem oneFile_wellFormed (hm : ∀ l e w, (m l e w).dtype ≠ "" ∧ (m l e w).shape ≠ []) :
    WellFormed c.arch.replacements (oneFile c E m) := by
  have htensor : ∀ p ∈ oneFile c E m, tensorOf c.arch.replacements p =
      some (toTensor c.arch.replacements p) := by
    intro p hp
    obtain ⟨l, -, e, -, w, rfl⟩ := mem_oneFile.mp hp
    exact tensorOf_of_ne (hm l e w).1
  refine ⟨nodup_oneFile, ?_, ?_⟩
  · intro p hp _
    obtain ⟨l, -, e, -, w, rfl⟩ := mem_oneFile.mp hp
    exact (hm l e w).2
  · rw [filterMap_congr htensor, filterMap_eq_map', map_map]
    refine @nodup_oneFile_map c E m (replace c.arch.replacements) fun {l e w l' e' w'} heq => ?_
    rwa [replace_key, replace_key] at heq

theorem oneFile_holds (hm : ∀ l e w, (m l e w).dtype ≠ "" ∧ (m l e w).shape ≠ []) :
    Holds c E [oneFile c E m] := by
  refine ⟨forall_mem_singleton.mpr (oneFile_wellFormed hm), ?_, ?_, ?_⟩
  · intro l hl e he w
    have hcount : ((oneFile c E m).map Prod.fst).count (c.arch.key l e w) = 1 :=
      count_eq_one_of_mem nodup_oneFile
        (mem_map.mpr ⟨_, mem_oneFile.mpr ⟨l, hl, e, he, w, rfl⟩, rfl⟩)
    rw [List.count, countP_map] at hcount
    rw [held, length_map, flatten_singleton, ← countP_eq_length_filter, ← hcount]
    refine countP_congr fun p _ => ?_
    rw [decide_eq_true_iff]
    exact beq_iff_eq.symm
  · intro l _ e _ w t ht
    obtain ⟨p, hp, rfl⟩ := mem_map.mp ht
    have hp' := mem_of_mem_filter hp
    rw [flatten_singleton] at hp'
    obtain ⟨l', -, e', -, v, rfl⟩ := mem_oneFile.mp hp'
    exact (hm l' e' v).1
  · intro p hp
    rw [flatten_singleton] at hp
    obtain ⟨l, hl, e, he, w, rfl⟩ := mem_oneFile.mp hp
    exact Or.inl ⟨l, hl, e, he, w, rfl⟩

theorem has_oneFile {l e : ℕ} (hl : l ∈ c.merged) (he : e < E) (w : Weight) :
    Has c.arch l w (oneFile c E m) e :=
  mem_map.mpr ⟨_, mem_oneFile.mpr ⟨l, hl, e, he, w, rfl⟩, rfl⟩

/-- **Ten experts** are in order in one file, and no more. -/
theorem oneFile_inOrder_iff {l : ℕ} (hl : l ∈ c.merged) (w : Weight) :
    InOrder c E [oneFile c E m] l w ↔ E ≤ 10 := by
  constructor
  · intro horder
    by_contra hE
    rw [not_le] at hE
    have hlt := horder.within _ (mem_singleton_self _) 2 (by omega) 10 hE
      (has_oneFile hl (by omega) w) (has_oneFile hl hE w) (by decide)
    exact absurd hlt (by decide)
  · intro hE
    have hdigits : ∀ x < 10, ∀ y < 10, x < y → dec x < dec y := by decide +kernel
    refine ⟨pairwise_singleton _ _, fun f _ x hx y hy _ _ => ?_⟩
    exact hdigits x (hx.trans_le hE) y (hy.trans_le hE)

end OneFile

/-! ## §6  When the order is numeric -/

/-- **Merged experts are in numeric order** exactly when those of an earlier file come before
those of a later one, and the experts of one file are in the order of their numerals as texts. -/
theorem tensors_numericOrder_iff {c : Config} {E : ℕ} (hE : 1 ≤ E) {files : List File}
    (h : Holds c E files) (kind : Tensor → ℕ) :
    ∃ ts, parseSafetensors c.arch.replacements files = .ok ts ∧
      (NumericOrder c E files (c.tensors kind ts) ↔
        ∀ l ∈ c.merged, ∀ w, InOrder c E files l w) := by
  refine ⟨tensorsOf c files, parseSafetensors_eq h.wellFormed, ?_⟩
  rw [h.numericOrder_iff_listed hE kind]
  exact forall₂_congr fun l hl => forall_congr' fun w => h.listed_eq_range_iff hl w

def numbered (_ e : ℕ) (_ : Weight) : Metadata := ⟨"F32", [1], [UInt8.ofNat e]⟩

theorem numbered_typed (l e : ℕ) (w : Weight) :
    (numbered l e w).dtype ≠ "" ∧ (numbered l e w).shape ≠ [] :=
  ⟨(by decide : "F32" ≠ ""), cons_ne_nil 1 []⟩

theorem two_experts_in_order :
    let c : Config := ⟨.mixtral, 1, 0⟩
    ∃ ts, parseSafetensors c.arch.replacements [oneFile c 2 numbered] = .ok ts ∧
      (NumericOrder c 2 [oneFile c 2 numbered] (c.tensors (fun _ => 0) ts) ↔
        ∀ l ∈ c.merged, ∀ w, InOrder c 2 [oneFile c 2 numbered] l w) :=
  tensors_numericOrder_iff (by decide) (oneFile_holds numbered_typed) fun _ => 0

/-- Of eleven experts in one file, the one of number 10 comes before that of number 2. -/
theorem eleven_experts_out_of_order :
    ¬ ∀ (c : Config) (E : ℕ) (files : List File) (kind : Tensor → ℕ), 1 ≤ E → Holds c E files →
      ∀ ts, parseSafetensors c.arch.replacements files = .ok ts →
        NumericOrder c E files (c.tensors kind ts) := by
  intro hall
  have h : Holds ⟨.lfm2, 1, 0⟩ 11 [oneFile ⟨.lfm2, 1, 0⟩ 11 numbered] :=
    oneFile_holds numbered_typed
  have hnumeric := hall _ 11 _ (fun _ => 0) (by decide) h _ (parseSafetensors_eq h.wellFormed)
  have hlayer : 0 ∈ Config.merged ⟨.lfm2, 1, 0⟩ := by decide
  have hlisted := (h.numericOrder_iff_listed (by decide) _).mp hnumeric 0 hlayer .w1
  have hle := (oneFile_inOrder_iff hlayer .w1).mp ((h.listed_eq_range_iff hlayer .w1).mp hlisted)
  exact absurd hle (by decide)

end Ollama.Convert
