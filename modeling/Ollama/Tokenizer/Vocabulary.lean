import Mathlib
import Ollama.Tokenizer.Split
import Ollama.Lib.Occurrence

/-!
# Vocabularies and special tokens

`model/vocabulary.go` over Go strings as lists of bytes, and the loop with which
both tokenizers cut the special tokens out of a text.
-/

namespace Ollama.Tokenizer

open Lib Lib.Utf8 List

/-! ## §1  The vocabulary -/

def tokenTypeNormal : Int := 1
def tokenTypeUnknown : Int := 2
def tokenTypeControl : Int := 3
def tokenTypeUserDefined : Int := 4
def tokenTypeUnused : Int := 5
def tokenTypeByte : Int := 6

/-- `Vocabulary`. The strings of a model file are UTF-8. -/
structure Vocabulary (σ : Type) where
  values : List Str
  types : List Int
  scores : List σ
  merges : List Str
  bos : List ℕ := []
  eos : List ℕ := []
  addBOS : Bool := false
  addEOS : Bool := false
  utf8 : ∀ v ∈ values, Valid v
  types_length : types.length = values.length

def lastIndex (strs : List Str) (s : Str) : Option ℕ :=
  strs.zipIdx.foldl (fun found p => if p.1 = s then some p.2 else found) none

namespace Vocabulary

variable {σ : Type} (v : Vocabulary σ)

/-- `Vocabulary.Encode`; `none` is -1. -/
def encode (s : Str) : Option ℕ := lastIndex v.values s

/-- `Vocabulary.Decode`, on the indices of the vocabulary. -/
def decode (id : ℕ) : Str := v.values[id]?.getD []

/-- `Vocabulary.SpecialVocabulary` -/
def specialVocabulary : List Str :=
  ((v.values.zip v.types).filter fun p =>
    p.2 = tokenTypeControl ∨ p.2 = tokenTypeUserDefined).map Prod.fst

/-- `Vocabulary.Merge`: the rank of a pair; `none` is -1. -/
def merge (left right : Str) : Option ℕ := lastIndex v.merges (left ++ [0x20] ++ right)

/-- `Vocabulary.addSpecials`; `none` is a panic on an empty list, whose first
and last element are read. -/
def addSpecials (ids : List ℕ) : Option (List ℕ) := do
  let ids ←
    if v.addBOS ∧ v.bos ≠ [] then
      if ids = [] then none else some (v.bos.head?.toList ++ ids)
    else some ids
  if v.addEOS ∧ v.eos ≠ [] then
    if ids = [] then none else some (ids ++ v.eos.head?.toList)
  else some ids

end Vocabulary

theorem foldl_lastIndex (s : Str) (l : List (Str × ℕ)) :
    ∀ found, l.foldl (fun found p => if p.1 = s then some p.2 else found) found = found ∨
      ∃ p ∈ l, p.1 = s ∧
        l.foldl (fun found p => if p.1 = s then some p.2 else found) found = some p.2 := by
  induction l with
  | nil => exact fun _ => Or.inl rfl
  | cons p l ih =>
    intro found
    rw [foldl_cons]
    rcases ih (if p.1 = s then some p.2 else found) with h | ⟨p', hp', h⟩
    · rw [h]
      split
      · rename_i heq
        exact Or.inr ⟨p, mem_cons_self, heq, rfl⟩
      · exact Or.inl rfl
    · exact Or.inr ⟨p', mem_cons_of_mem _ hp', h⟩

theorem foldl_lastIndex_ne_none (s : Str) (l : List (Str × ℕ)) :
    ∀ found, (found ≠ none ∨ ∃ p ∈ l, p.1 = s) →
      l.foldl (fun found p => if p.1 = s then some p.2 else found) found ≠ none := by
  induction l with
  | nil =>
    rintro found (h | ⟨p, hp, _⟩)
    · exact h
    · cases hp
  | cons p l ih =>
    intro found h
    rw [foldl_cons]
    refine ih _ ?_
    by_cases heq : p.1 = s
    · rw [if_pos heq]
      exact Or.inl (Option.some_ne_none _)
    rw [if_neg heq]
    rcases h with h | ⟨p', hp', h⟩
    · exact Or.inl h
    · rcases mem_cons.mp hp' with rfl | hmem
      · exact absurd h heq
      · exact Or.inr ⟨p', hmem, h⟩

theorem lastIndex_eq_some {strs : List Str} {s : Str} {i : ℕ} (h : lastIndex strs s = some i) :
    strs[i]? = some s := by
  unfold lastIndex at h
  rcases foldl_lastIndex s strs.zipIdx none with hn | ⟨p, hp, rfl, hs⟩
  · rw [hn] at h
    cases h
  · rw [hs] at h
    cases h
    exact mem_zipIdx_iff_getElem?.mp hp

theorem lastIndex_ne_none {strs : List Str} {s : Str} (h : s ∈ strs) : lastIndex strs s ≠ none := by
  obtain ⟨i, hi⟩ := mem_iff_getElem?.mp h
  exact foldl_lastIndex_ne_none s _ none (Or.inr ⟨(s, i), mem_zipIdx_iff_getElem?.mpr hi, rfl⟩)

namespace Vocabulary

variable {σ : Type} {v : Vocabulary σ}

theorem decode_of_encode {s : Str} {id : ℕ} (h : v.encode s = some id) : v.decode id = s := by
  unfold decode
  rw [lastIndex_eq_some h]
  rfl

theorem exists_encode {s : Str} (h : s ∈ v.values) : ∃ id, v.encode s = some id :=
  Option.ne_none_iff_exists'.mp (lastIndex_ne_none h)

theorem mem_of_special {s : Str} (h : s ∈ v.specialVocabulary) : s ∈ v.values := by
  obtain ⟨p, hp, rfl⟩ := mem_map.mp h
  exact (of_mem_zip (mem_filter.mp hp).1).1

end Vocabulary

/-! ## §2  Cutting out special tokens -/

structure Fragment where
  value : Str
  ids : List ℕ := []
deriving DecidableEq

/-- The loop over the fragments for one special token. It goes on with the text
after a token that is found; the text before it holds no further one. `none`
when the steps run out, which an empty special token leads to. -/
def cutLoop (special : Str) (id : ℕ) : ℕ → List Fragment → Option (List Fragment)
  | _, [] => some []
  | 0, _ :: _ => none
  | n + 1, frag :: rest =>
      if frag.ids ≠ [] then (cutLoop special id n rest).map (frag :: ·)
      else
        match index frag.value special with
        | none => (cutLoop special id n rest).map (frag :: ·)
        | some i =>
            let before := if 0 < i then [⟨frag.value.take i, []⟩] else []
            let after := frag.value.drop (i + special.length)
            let todo := if after ≠ [] then ⟨after, []⟩ :: rest else rest
            (cutLoop special id n todo).map fun r => before ++ ⟨special, [id]⟩ :: r

def steps (frags : List Fragment) : ℕ := (frags.map fun f => f.value.length + 1).sum

def cutSpecial {σ : Type} (v : Vocabulary σ) (frags : List Fragment) (special : Str) :
    Option (List Fragment) :=
  match v.encode special with
  | none => none
  | some id => cutLoop special id (steps frags) frags

def cutSpecials {σ : Type} (v : Vocabulary σ) (s : Str) : Option (List Fragment) :=
  v.specialVocabulary.foldlM (cutSpecial v) [⟨s, []⟩]

/-! ## §3  What the cut leaves -/

def textOf (frags : List Fragment) : Str := frags.flatMap Fragment.value

@[simp] theorem textOf_cons (f : Fragment) (fs : List Fragment) :
    textOf (f :: fs) = f.value ++ textOf fs := rfl

theorem textOf_append (fs gs : List Fragment) : textOf (fs ++ gs) = textOf fs ++ textOf gs :=
  flatMap_append

structure Fragment.Ok {σ : Type} (v : Vocabulary σ) (f : Fragment) : Prop where
  valid : Valid f.value
  special : f.ids ≠ [] → f.value ∈ v.specialVocabulary ∧
    ∃ id, f.ids = [id] ∧ v.encode f.value = some id

/-- The loop ends and keeps the text. -/
theorem cutLoop_spec {σ : Type} {v : Vocabulary σ} {special : Str} {id : ℕ} (hne : special ≠ [])
    (hvalid : Valid special) (hmem : special ∈ v.specialVocabulary)
    (hid : v.encode special = some id) :
    ∀ n frags, steps frags ≤ n → (∀ f ∈ frags, f.Ok v) →
      ∃ r, cutLoop special id n frags = some r ∧ textOf r = textOf frags ∧ ∀ f ∈ r, f.Ok v := by
  intro n
  induction n with
  | zero =>
    intro frags hn hok
    cases frags with
    | nil => exact ⟨[], rfl, rfl, fun f hf => (by cases hf)⟩
    | cons f rest =>
      exfalso
      rw [steps, map_cons, sum_cons] at hn
      omega
  | succ n ih =>
    intro frags hn hok
    cases frags with
    | nil => exact ⟨[], rfl, rfl, fun f hf => (by cases hf)⟩
    | cons frag rest =>
      rw [steps, map_cons, sum_cons] at hn
      have hfrag := hok frag mem_cons_self
      have hrest : ∀ f ∈ rest, f.Ok v := fun f hf => hok f (mem_cons_of_mem _ hf)
      -- the fragment stays as it is
      have hkeep : ∃ r, (cutLoop special id n rest).map (frag :: ·) = some r ∧
          textOf r = textOf (frag :: rest) ∧ ∀ f ∈ r, f.Ok v := by
        obtain ⟨r, hr, htext, hr'⟩ := ih rest (by unfold steps; omega) hrest
        refine ⟨frag :: r, by rw [hr]; rfl, by rw [textOf_cons, textOf_cons, htext], ?_⟩
        exact fun f hf => (mem_cons.mp hf).elim (fun h => h ▸ hfrag) (hr' f)
      unfold cutLoop
      split
      · exact hkeep
      cases hi : index frag.value special with
      | none => exact hkeep
      | some i =>
        obtain ⟨hocc, _⟩ := (index_eq_some hne).mp hi
        have hu := hocc.eq_append
        have hend := hocc.add_le hne
        have hpos := length_pos_iff.mpr hne
        have hlen : (frag.value.drop (i + special.length)).length < frag.value.length := by
          rw [length_drop]
          omega
        simp only
        generalize frag.value.drop (i + special.length) = u at hu hlen ⊢
        have hall := hfrag.valid
        rw [hu] at hall
        have hbefore := hall.before hvalid hne
        have hu' : Valid u := hvalid.rest (hbefore.rest hall)
        obtain ⟨r, hr, htext, hr'⟩ := ih (if u ≠ [] then ⟨u, []⟩ :: rest else rest) (by
          split
          · rw [steps, map_cons, sum_cons]
            simp only
            omega
          · unfold steps
            omega) (by
          split
          · intro f hf
            rcases mem_cons.mp hf with rfl | hf
            · exact ⟨hu', fun h => absurd rfl h⟩
            · exact hrest f hf
          · exact hrest)
        have htodo : textOf (if u ≠ [] then ⟨u, []⟩ :: rest else rest) = u ++ textOf rest := by
          split
          · rfl
          · rename_i h
            rw [not_not.mp h, nil_append]
        have hhead : textOf (if 0 < i then [⟨frag.value.take i, []⟩] else []) =
            frag.value.take i := by
          split
          · exact append_nil _
          · rw [show i = 0 by omega, take_zero]
            rfl
        refine ⟨_, by rw [hr]; rfl, ?_, ?_⟩
        · rw [textOf_append, hhead, textOf_cons, htext, htodo, textOf_cons]
          conv_rhs => rw [hu]
          simp only [append_assoc]
        intro f hf
        rcases mem_append.mp hf with hf | hf
        · split at hf
          · rw [mem_singleton.mp hf]
            exact ⟨hbefore, fun h => absurd rfl h⟩
          · cases hf
        · rcases mem_cons.mp hf with rfl | hf
          · exact ⟨hvalid, fun _ => ⟨hmem, id, rfl, hid⟩⟩
          · exact hr' f hf

/-- **Special tokens are cut out of the text**: the fragments are the text, each
is valid, and those with ids are special tokens. -/
theorem cutSpecials_spec {σ : Type} {v : Vocabulary σ}
    (hspecial : ∀ t ∈ v.specialVocabulary, t ≠ []) {s : Str} (hs : Valid s) :
    ∃ frags, cutSpecials v s = some frags ∧ textOf frags = s ∧ ∀ f ∈ frags, f.Ok v := by
  have h : ∀ (specials : List Str), (∀ t ∈ specials, t ∈ v.specialVocabulary) →
      ∀ frags, (∀ f ∈ frags, f.Ok v) →
        ∃ r, specials.foldlM (cutSpecial v) frags = some r ∧ textOf r = textOf frags ∧
          ∀ f ∈ r, f.Ok v := by
    intro specials
    induction specials with
    | nil => exact fun _ frags hok => ⟨frags, rfl, rfl, hok⟩
    | cons special specials ih =>
      intro hmem frags hok
      have hm := hmem special mem_cons_self
      obtain ⟨id, hid⟩ := Vocabulary.exists_encode (Vocabulary.mem_of_special hm)
      obtain ⟨r, hr, htext, hr'⟩ := cutLoop_spec (hspecial special hm)
        (v.utf8 special (Vocabulary.mem_of_special hm)) hm hid (steps frags) frags le_rfl hok
      obtain ⟨r', hr'', htext', hok'⟩ :=
        ih (fun t ht => hmem t (mem_cons_of_mem _ ht)) r hr'
      refine ⟨r', ?_, htext'.trans htext, hok'⟩
      rw [foldlM_cons, cutSpecial, hid]
      simp only [hr]
      exact hr''
  obtain ⟨r, hr, htext, hok⟩ := h v.specialVocabulary (fun _ ht => ht) [⟨s, []⟩] (by
    intro f hf
    rw [mem_singleton.mp hf]
    exact ⟨hs, fun h => absurd rfl h⟩)
  exact ⟨r, hr, htext.trans (append_nil s), hok⟩

end Ollama.Tokenizer
