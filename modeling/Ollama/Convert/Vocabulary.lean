import Mathlib.Data.List.Dedup
import Mathlib.Data.List.Perm.Subperm
import Mathlib.Data.List.Sort

/-!
# Converted vocabularies: model of `convert/tokenizer.go` and `convert/tokenizer_spm.go`

`parseVocabulary` with its two loaders, the special tokens that `parseTokenizer` records and the
padding of `ConvertModel`. Files are given as decoded; a map is the list of its entries, in any
order. `float32` is the conversion of an integer.
-/

namespace Ollama.Convert.Vocabulary

open List

-- membership in a list of texts is decided by their equality
local instance lawfulText : LawfulBEq (List Char) := List.instLawfulBEq

abbrev Text := List Char

/-! ## §1  Files -/

inductive Opened (α : Type) where
  | missing
  | failed
  | ok (a : α)

inductive Outcome (α : Type) where
  | ok (a : α)
  | error
  | panics

/-- An element of `additional_special_tokens`: an object, one whose fields have other types, or
something else. -/
inductive SpecialToken where
  | object (content : Text)
  | mistyped
  | other

inductive PieceType where
  | normal | unknown | control | userDefined | unused | byte
deriving DecidableEq

structure Piece (σ : Type) where
  piece : Text
  score : σ
  type : PieceType

structure Token where
  id : ℤ
  content : Text
  special : Bool := false
  userDefined : Bool := false

/-- `tokenizer.json` -/
structure Tokenizer where
  addedTokens : List Token
  vocab : List (Text × ℤ)

structure Files (σ : Type) where
  /-- `special_tokens_map.json`; no tokens when the value is not a list -/
  specialTokensMap : Opened (List SpecialToken)
  /-- `tokenizer.model`; `none` when it is there and cannot be read -/
  model : Opened (Option (List (Piece σ)))
  addedTokens : Opened (List (Text × ℤ))
  tokenizer : Opened Tokenizer
  /-- `tokenizer_config.json`: the content for a type of special token, empty when there is no
  entry and `none` when the entry is neither a string nor an object with one -/
  config : Opened (Text → Option Text)

/-- `Vocabulary` -/
structure Vocab (σ : Type) where
  tokens : List Text := []
  scores : List σ := []
  types : List ℕ := []

variable {σ : Type} (float32 : ℤ → σ)

def Vocab.append (v : Vocab σ) (token : Text) (score : σ) (type : ℕ) : Vocab σ :=
  ⟨v.tokens ++ [token], v.scores ++ [score], v.types ++ [type]⟩

def tokenTypeNormal : ℕ := 1
def tokenTypeControl : ℕ := 3
def tokenTypeUserDefined : ℕ := 4

def PieceType.int32 : PieceType → ℕ
  | .normal => 1
  | .unknown => 2
  | .control => 3
  | .userDefined => 4
  | .unused => 5
  | .byte => 6

/-! ## §2  The loaders -/

/-- The elements are asserted to be objects one after another. -/
def parseAdditionalSpecialTokens : List SpecialToken → Outcome (List Text)
  | [] => .ok []
  | .object content :: rest =>
      match parseAdditionalSpecialTokens rest with
      | .ok ast => .ok (content :: ast)
      | .error => .error
      | .panics => .panics
  | .mistyped :: _ => .error
  | .other :: _ => .panics

def pieceType (ast : List Text) (piece : Piece σ) : ℕ :=
  match piece.type with
  | .unknown | .control | .unused | .byte => piece.type.int32
  | _ =>
      if piece.piece ∈ ["<end_of_turn>".toList, "<start_of_turn>".toList] ∨ piece.piece ∈ ast then
        tokenTypeControl
      else tokenTypeNormal

/-- The loop over `added_tokens.json`. An index that is negative is out of range. -/
def addTokens : List (Text × ℤ) → Vocab σ → Outcome (Vocab σ)
  | [], v => .ok v
  | (content, id) :: ts, v =>
      if id < v.tokens.length then
        if id < 0 then .panics
        else if v.tokens[id.toNat]? = some content then addTokens ts v
        else .error
      else if id ≠ v.tokens.length then .error
      else addTokens ts (v.append content (float32 (-1000)) tokenTypeUserDefined)

def sortById (atm : List (Text × ℤ)) : List (Text × ℤ) := atm.insertionSort fun a b => a.2 ≤ b.2

def parseSentencePiece (files : Files σ) (model : Option (List (Piece σ))) : Outcome (Vocab σ) :=
  let ast : Outcome (List Text) :=
    match files.specialTokensMap with
    | .ok st => parseAdditionalSpecialTokens st
    | .failed => .error
    | .missing => .ok []
  match ast, model with
  | .ok ast, some pieces =>
      let v : Vocab σ := ⟨pieces.map Piece.piece, pieces.map Piece.score, pieces.map (pieceType ast)⟩
      match files.addedTokens with
      | .missing => .ok v
      | .failed => .error
      | .ok atm => addTokens float32 (sortById atm) v
  | .ok _, none => .error
  | .error, _ => .error
  | .panics, _ => .panics

/-- The tokens in the order in which they are put into the map. -/
def Tokenizer.all (t : Tokenizer) : List Token :=
  t.vocab.map (fun kv => { id := kv.2, content := kv.1 }) ++
    t.addedTokens.map fun token => { token with userDefined := true }

/-- `slices.Sorted(maps.Keys(tokens))` -/
def Tokenizer.keys (t : Tokenizer) : List ℤ :=
  (t.all.map Token.id).dedup.insertionSort (· ≤ ·)

def Tokenizer.lookup (t : Tokenizer) (id : ℤ) : Option Token := t.all.reverse.find? (·.id = id)

def Token.type (token : Token) : ℕ :=
  if token.special then tokenTypeControl
  else if token.userDefined then tokenTypeUserDefined
  else tokenTypeNormal

def parseVocabularyFromTokenizer (t : Tokenizer) : Vocab σ :=
  (t.keys.filterMap t.lookup).foldl
    (fun v token => v.append token.content (float32 token.id) token.type) {}

def parseVocabulary (files : Files σ) : Outcome (Vocab σ) :=
  match files.model, files.tokenizer with
  | .ok model, _ => parseSentencePiece float32 files model
  | .failed, _ => .error
  | .missing, .ok t => .ok (parseVocabularyFromTokenizer float32 t)
  | .missing, _ => .error

structure SpecialVocabulary where
  type : Text
  id : ℤ
  content : Text

/-- The special tokens that `parseTokenizer` records: the ids are those of `tokenizer.json`, the
last token with a content counting. -/
def specialVocabulary (files : Files σ) (types : List Text) : List SpecialVocabulary :=
  match files.tokenizer, files.config with
  | .ok t, .ok config => types.filterMap fun st =>
      (config st).bind fun content =>
        (t.addedTokens.reverse.find? (·.content = content)).map fun token => ⟨st, token.id, content⟩
  | _, _ => []

/-- The padding of `ConvertModel`. -/
def pad (vocabSize : ℕ) (v : Vocab σ) : Vocab σ :=
  (range (vocabSize - v.tokens.length)).foldl (fun v i =>
    v.append ("[PAD".toList ++ (toString i).toList ++ "]".toList) (float32 (-1))
      tokenTypeUserDefined) v

/-! ## §3  Vocabularies -/

def Vocab.At (v : Vocab σ) (id : ℤ) (content : Text) : Prop :=
  0 ≤ id ∧ v.tokens[id.toNat]? = some content

structure Vocab.SameLength (v : Vocab σ) : Prop where
  scores : v.scores.length = v.tokens.length
  types : v.types.length = v.tokens.length

variable {float32} {v : Vocab σ}

theorem Vocab.SameLength.append (h : v.SameLength) (token : Text) (score : σ) (type : ℕ) :
    (v.append token score type).SameLength := by
  constructor <;> simp [Vocab.append, h.scores, h.types]

structure Vocab.Extends (w v : Vocab σ) : Prop where
  tokens : v.tokens <+: w.tokens
  scores : v.scores <+: w.scores
  types : v.types <+: w.types

theorem Vocab.Extends.refl (v : Vocab σ) : v.Extends v :=
  ⟨prefix_rfl, prefix_rfl, prefix_rfl⟩

theorem Vocab.extends_append (v : Vocab σ) (token : Text) (score : σ) (type : ℕ) :
    (v.append token score type).Extends v :=
  ⟨prefix_append _ _, prefix_append _ _, prefix_append _ _⟩

theorem Vocab.Extends.trans {w x : Vocab σ} (h : w.Extends v) (h' : x.Extends w) : x.Extends v :=
  ⟨h.tokens.trans h'.tokens, h.scores.trans h'.scores, h.types.trans h'.types⟩

/-- Tokens that are appended one after another. -/
theorem foldl_append {α : Type} (content : α → Text) (score : α → σ) (type : α → ℕ)
    (xs : List α) (h : v.SameLength) :
    let w := xs.foldl (fun v x => v.append (content x) (score x) (type x)) v
    w.tokens = v.tokens ++ xs.map content ∧ w.SameLength ∧ w.Extends v := by
  induction xs generalizing v with
  | nil => exact ⟨(append_nil _).symm, h, .refl v⟩
  | cons x xs ih =>
    obtain ⟨htokens, hlen, hext⟩ := ih (h.append (content x) (score x) (type x))
    refine ⟨?_, hlen, (v.extends_append _ _ _).trans hext⟩
    rw [foldl_cons, htokens]
    simp [Vocab.append]

/-- **Padding only appends.** -/
theorem pad_extends (n : ℕ) (h : v.SameLength) :
    (pad float32 n v).SameLength ∧ (pad float32 n v).Extends v :=
  (foldl_append _ _ _ _ h).2

/-! ## §4  `tokenizer.json` -/

/-- The tokens of the input, of which the added ones override the vocabulary. -/
def Tokenizer.inputs (t : Tokenizer) : List (ℤ × Text) :=
  (t.vocab.filter fun kv => t.addedTokens.all (·.id ≠ kv.2)).map (fun kv => (kv.2, kv.1)) ++
    t.addedTokens.map fun token => (token.id, token.content)

structure Tokenizer.Regular (t : Tokenizer) : Prop where
  contiguous : ∀ token ∈ t.all, 0 ≤ token.id ∧ token.id < (t.all.map Token.id).dedup.length
  functional : ∀ a ∈ t.inputs, ∀ b ∈ t.inputs, a.1 = b.1 → a.2 = b.2

variable {t : Tokenizer}

theorem Tokenizer.mem_keys {id : ℤ} : id ∈ t.keys ↔ ∃ token ∈ t.all, token.id = id := by
  simp [Tokenizer.keys]

theorem Tokenizer.length_keys : t.keys.length = (t.all.map Token.id).dedup.length :=
  length_insertionSort _ _

/-- Contiguous keys are in their places. -/
theorem Tokenizer.keys_eq (h : ∀ token ∈ t.all, 0 ≤ token.id ∧
    token.id < (t.all.map Token.id).dedup.length) :
    t.keys = (range t.keys.length).map ((↑) : ℕ → ℤ) := by
  have hnodup : t.keys.Nodup := (perm_insertionSort _ _).nodup_iff.mpr (nodup_dedup _)
  have hsub : t.keys ⊆ (range t.keys.length).map ((↑) : ℕ → ℤ) := by
    intro id hid
    obtain ⟨token, htoken, rfl⟩ := mem_keys.mp hid
    obtain ⟨hpos, hlt⟩ := h token htoken
    rw [← length_keys] at hlt
    exact mem_map.mpr ⟨token.id.toNat, mem_range.mpr (by omega), by omega⟩
  refine Perm.eq_of_pairwise' (r := (· ≤ ·)) (pairwise_insertionSort _ _) ?_
    ((subperm_of_subset hnodup hsub).perm_of_length_le (by simp))
  exact pairwise_map.mpr (pairwise_lt_range.imp fun hlt => by omega)

/-- What is found at an id is a token of the input. -/
theorem Tokenizer.mem_inputs_of_lookup {id : ℤ} {token : Token} (h : t.lookup id = some token) :
    (id, token.content) ∈ t.inputs := by
  rw [lookup, all, reverse_append, find?_append, ← map_reverse, ← map_reverse, find?_map,
    find?_map, Option.or_eq_some_iff, Option.map_eq_some_iff, Option.map_eq_some_iff] at h
  rcases h with ⟨a, ha, rfl⟩ | ⟨hnone, kv, hkv, rfl⟩
  · have hid : a.id = id := by simpa using find?_some ha
    exact mem_append_right _ (mem_map.mpr ⟨a, mem_reverse.mp (mem_of_find?_eq_some ha), by rw [hid]⟩)
  · have hid : kv.2 = id := by simpa using find?_some hkv
    refine mem_append_left _ (mem_map.mpr
      ⟨kv, mem_filter.mpr ⟨mem_reverse.mp (mem_of_find?_eq_some hkv), ?_⟩, by rw [hid]⟩)
    simpa [hid] using hnone

/-- An id of the input is found. -/
theorem Tokenizer.lookup_isSome {token : Token} (h : token ∈ t.all) :
    ∃ found, t.lookup token.id = some found :=
  Option.isSome_iff_exists.mp (find?_isSome.mpr ⟨token, mem_reverse.mpr h, by simp⟩)

theorem Tokenizer.exists_of_mem_inputs {p : ℤ × Text} (h : p ∈ t.inputs) :
    ∃ token ∈ t.all, token.id = p.1 := by
  rcases mem_append.mp h with h | h
  · obtain ⟨kv, hkv, rfl⟩ := mem_map.mp h
    exact ⟨_, mem_append_left _ (mem_map.mpr ⟨kv, (mem_filter.mp hkv).1, rfl⟩), rfl⟩
  · obtain ⟨a, ha, rfl⟩ := mem_map.mp h
    exact ⟨_, mem_append_right _ (mem_map.mpr ⟨a, ha, rfl⟩), rfl⟩

variable (float32) in
theorem parseVocabularyFromTokenizer_spec (t : Tokenizer) :
    (parseVocabularyFromTokenizer float32 t).tokens =
        t.keys.map (fun id => (t.lookup id).elim [] Token.content) ∧
      (parseVocabularyFromTokenizer float32 t).SameLength := by
  obtain ⟨htokens, hlen, -⟩ := foldl_append Token.content (fun token => float32 token.id)
    Token.type (t.keys.filterMap t.lookup) (v := {}) ⟨rfl, rfl⟩
  refine ⟨htokens.trans ?_, hlen⟩
  rw [nil_append, map_filterMap, ← filterMap_eq_map]
  refine filterMap_congr fun id hid => ?_
  obtain ⟨token, htoken, rfl⟩ := Tokenizer.mem_keys.mp hid
  obtain ⟨found, hfound⟩ := Tokenizer.lookup_isSome htoken
  simp [hfound]

variable (float32) in
/-- **The tokens are at their ids exactly when the ids are without gaps.** -/
theorem keeps_inputs_iff : (∀ p ∈ t.inputs,
    (parseVocabularyFromTokenizer float32 t).At p.1 p.2) ↔ t.Regular := by
  obtain ⟨htokens, -⟩ := parseVocabularyFromTokenizer_spec float32 t
  constructor
  · intro h
    refine ⟨fun token htoken => ?_, fun a ha b hb hab => ?_⟩
    · obtain ⟨found, hfound⟩ := Tokenizer.lookup_isSome htoken
      obtain ⟨hpos, hat⟩ := h _ (Tokenizer.mem_inputs_of_lookup hfound)
      have hlt := (List.getElem?_eq_some_iff.mp hat).1
      rw [htokens, length_map, Tokenizer.length_keys] at hlt
      exact ⟨hpos, by omega⟩
    · have hat := (h a ha).2
      rw [hab, (h b hb).2] at hat
      exact (Option.some.inj hat).symm
  · intro h p hp
    obtain ⟨token, htoken, hid⟩ := Tokenizer.exists_of_mem_inputs hp
    obtain ⟨hpos, hlt⟩ := h.contiguous token htoken
    obtain ⟨found, hfound⟩ := Tokenizer.lookup_isSome htoken
    have hkey : t.keys[p.1.toNat]? = some p.1 := by
      rw [Tokenizer.keys_eq h.contiguous, getElem?_map, getElem?_range]
      · simp [← hid, hpos]
      · rw [Tokenizer.length_keys]
        omega
    refine ⟨hid ▸ hpos, ?_⟩
    have hcontent : found.content = p.2 :=
      h.functional _ (Tokenizer.mem_inputs_of_lookup hfound) p hp hid
    rw [htokens, getElem?_map, hkey, ← hid, Option.map_some, hfound, Option.elim_some, hcontent]

/-! ## §5  `added_tokens.json` -/

variable {tokens : List Text} {ts : List (Text × ℤ)}

/-- The added tokens repeat the pieces or follow them without a gap, one for each id. -/
def Fits (tokens : List Text) (ts : List (Text × ℤ)) : Prop :=
  ∀ p ∈ ts, (p.2 < tokens.length → tokens[p.2.toNat]? = some p.1) ∧
    (tokens.length < p.2 → ∃ q ∈ ts, q.2 = p.2 - 1) ∧ ∀ q ∈ ts, q.2 = p.2 → q.1 = p.1

theorem addTokens_ok {w : Vocab σ} (hts : ∀ p ∈ ts, 0 ≤ p.2) (hv : v.SameLength)
    (h : addTokens float32 ts v = .ok w) :
    w.SameLength ∧ w.Extends v ∧ ∀ id content, w.At id content ↔
      v.At id content ∨ (content, id) ∈ ts := by
  induction ts generalizing v with
  | nil =>
    obtain rfl : v = w := by simpa [addTokens] using h
    simp [hv, Vocab.Extends.refl]
  | cons p ts ih =>
    obtain ⟨content, id⟩ := p
    have hid : 0 ≤ id := hts (content, id) mem_cons_self
    have hts' : ∀ p ∈ ts, 0 ≤ p.2 := fun p hp => hts p (mem_cons_of_mem _ hp)
    rw [addTokens] at h
    split at h
    · next hlt =>
      rw [if_neg (by omega)] at h
      split at h
      · next hsame =>
        obtain ⟨hlen, hext, hat⟩ := ih hts' hv h
        refine ⟨hlen, hext, fun i c => ?_⟩
        have hrepeated : (c, i) = (content, id) → v.At i c := by
          rintro ⟨⟩
          exact ⟨hid, hsame⟩
        rw [hat, mem_cons]
        tauto
      · cases h
    · next hge =>
      split at h
      · cases h
      obtain ⟨hlen, hext, hat⟩ := ih hts' (hv.append _ _ _) h
      refine ⟨hlen, (v.extends_append _ _ _).trans hext, fun i c => ?_⟩
      have happend : (v.append content (float32 (-1000)) tokenTypeUserDefined).At i c ↔
          v.At i c ∨ (c, i) = (content, id) := by
        simp only [Vocab.At, Vocab.append, getElem?_append, Prod.mk.injEq]
        split
        · exact ⟨.inl, fun h => h.resolve_right fun h => by omega⟩
        have hnone : v.tokens[i.toNat]? = none := getElem?_eq_none (by omega)
        constructor
        · rintro ⟨hi0, hc⟩
          have hlast := (List.getElem?_eq_some_iff.mp hc).1
          rw [length_singleton] at hlast
          rw [show i.toNat - v.tokens.length = 0 by omega] at hc
          exact .inr ⟨(Option.some.inj hc).symm, by omega⟩
        · rintro (⟨_, hc⟩ | ⟨rfl, rfl⟩)
          · simp [hnone] at hc
          · exact ⟨hid, by rw [show i.toNat - v.tokens.length = 0 by omega]; rfl⟩
      rw [hat, happend, mem_cons, or_assoc]

variable (float32) in
/-- Tokens that fit are added. -/
theorem addTokens_of_fits (hsorted : ts.Pairwise (·.2 ≤ ·.2)) (hts : ∀ p ∈ ts, 0 ≤ p.2)
    (h : Fits v.tokens ts) : ∃ w, addTokens float32 ts v = .ok w := by
  induction ts generalizing v with
  | nil => exact ⟨v, rfl⟩
  | cons p ts ih =>
    obtain ⟨content, id⟩ := p
    have hid : 0 ≤ id := hts (content, id) mem_cons_self
    obtain ⟨hhead, hsorted'⟩ := pairwise_cons.mp hsorted
    have hts' : ∀ p ∈ ts, 0 ≤ p.2 := fun p hp => hts p (mem_cons_of_mem _ hp)
    obtain ⟨hrepeat, hgap, hone⟩ := h (content, id) mem_cons_self
    -- the predecessor of an id beyond the next one is among the later tokens
    have hrest : ∀ p ∈ ts, id + 1 < p.2 → v.tokens.length < p.2 → ∃ q ∈ ts, q.2 = p.2 - 1 := by
      intro p hp hbeyond hlt
      obtain ⟨q, hq, hqp⟩ := (h p (mem_cons_of_mem _ hp)).2.1 hlt
      rcases mem_cons.mp hq with rfl | hq
      · omega
      · exact ⟨q, hq, hqp⟩
    have honly : ∀ p ∈ ts, ∀ q ∈ ts, q.2 = p.2 → q.1 = p.1 := fun p hp q hq =>
      (h p (mem_cons_of_mem _ hp)).2.2 q (mem_cons_of_mem _ hq)
    rw [addTokens]
    by_cases hlt : id < v.tokens.length
    · rw [if_pos hlt, if_neg (by omega), if_pos (hrepeat hlt)]
      exact ih hsorted' hts' fun p hp => ⟨(h p (mem_cons_of_mem _ hp)).1,
        fun hlen => hrest p hp (by omega) hlen, honly p hp⟩
    have heq : id = v.tokens.length := by
      by_contra hne
      obtain ⟨q, hq, hqp⟩ := hgap (by dsimp; omega)
      rcases mem_cons.mp hq with rfl | hq
      · omega
      · have hle : id ≤ q.2 := hhead q hq
        omega
    rw [if_neg hlt, if_neg (by simpa using heq)]
    refine ih hsorted' hts' fun p hp => ?_
    have hle : id ≤ p.2 := hhead p hp
    simp only [Vocab.append, length_append, length_singleton]
    refine ⟨fun hlen => ?_, fun hlen => hrest p hp (by omega) (by omega), honly p hp⟩
    have hp2 : p.2 = id := by omega
    have hp1 : p.1 = content := hone p (mem_cons_of_mem _ hp) hp2
    rw [hp1, hp2, heq, Int.toNat_natCast, getElem?_append_right le_rfl, Nat.sub_self]
    rfl

/-- Tokens that are added fit. -/
theorem fits_of_addTokens {w : Vocab σ} (hts : ∀ p ∈ ts, 0 ≤ p.2) (hv : v.SameLength)
    (h : addTokens float32 ts v = .ok w) : Fits v.tokens ts := by
  obtain ⟨-, hext, hat⟩ := addTokens_ok hts hv h
  intro p hp
  have hpat : w.At p.2 p.1 := (hat _ _).mpr (.inr hp)
  refine ⟨fun hlt => ?_, fun hlt => ?_, fun q hq hqp => ?_⟩
  · obtain ⟨rest, hrest⟩ := hext.tokens
    have hp0 := hts p hp
    rw [← hpat.2, ← hrest, getElem?_append_left (by omega)]
  · have hlast := (List.getElem?_eq_some_iff.mp hpat.2).1
    obtain ⟨c, hc⟩ : ∃ c, w.tokens[(p.2 - 1).toNat]? = some c :=
      ⟨_, getElem?_eq_getElem (by omega)⟩
    rcases (hat (p.2 - 1) c).mp ⟨by omega, hc⟩ with hold | hmem
    · have := (List.getElem?_eq_some_iff.mp hold.2).1
      omega
    · exact ⟨_, hmem, rfl⟩
  · have hqat : w.At q.2 q.1 := (hat _ _).mpr (.inr hq)
    rw [hqp] at hqat
    exact Option.some.inj (hqat.2.symm.trans hpat.2)

variable (float32 v) in
/-- A negative id is an index out of range. -/
theorem addTokens_panics_iff (hsorted : ts.Pairwise (·.2 ≤ ·.2)) :
    addTokens float32 ts v = .panics ↔ ∃ p ∈ ts, p.2 < 0 := by
  induction ts generalizing v with
  | nil => simp [addTokens]
  | cons p ts ih =>
    obtain ⟨content, id⟩ := p
    obtain ⟨hhead, hsorted'⟩ := pairwise_cons.mp hsorted
    rw [addTokens]
    by_cases hid : id < 0
    · rw [if_pos (by omega), if_pos hid]
      exact ⟨fun _ => ⟨_, mem_cons_self, hid⟩, fun _ => rfl⟩
    have hnone : ¬ ∃ p ∈ ts, p.2 < 0 := by
      rintro ⟨p, hp, hneg⟩
      have hle : id ≤ p.2 := hhead p hp
      omega
    have hnone' : ¬ ∃ p ∈ (content, id) :: ts, p.2 < 0 := by
      rintro ⟨p, hp, hneg⟩
      rcases mem_cons.mp hp with rfl | hp
      · exact hid hneg
      · exact hnone ⟨p, hp, hneg⟩
    rw [if_neg hid]
    simp only [hnone', iff_false]
    split
    · split
      · rwa [ih _ hsorted']
      · exact nofun
    · split
      · exact nofun
      · rwa [ih _ hsorted']

/-! ## §6  Every tokenizer -/

def Castable : List SpecialToken → Prop
  | [] => True
  | .object _ :: rest => Castable rest
  | .mistyped :: _ => True
  | .other :: _ => False

def Files.Reads (files : Files σ) (pieces : List (Piece σ)) (atm : List (Text × ℤ)) : Prop :=
  files.model = .ok (some pieces) ∧
    (files.specialTokensMap = .missing ∨ ∃ st, files.specialTokensMap = .ok st ∧ .mistyped ∉ st) ∧
    (files.addedTokens = .ok atm ∨ files.addedTokens = .missing ∧ atm = [])

/-- The tokens of the input with their ids. -/
def Files.inputs (files : Files σ) : List (ℤ × Text) :=
  match files.model, files.tokenizer, files.addedTokens with
  | .missing, .ok t, _ => t.inputs
  | .ok (some pieces), _, .ok atm =>
      pieces.zipIdx.map (fun p => ((p.2 : ℤ), p.1.piece)) ++ atm.map Prod.swap
  | .ok (some pieces), _, _ => pieces.zipIdx.map fun p => ((p.2 : ℤ), p.1.piece)
  | _, _, _ => []

/-- An error, or a vocabulary with the tokens of the input and the recorded ones at their ids,
also after the padding. -/
def Keeps (float32 : ℤ → σ) (files : Files σ) (types : List Text) : Prop :=
  parseVocabulary float32 files = .error ∨
    ∃ v, parseVocabulary float32 files = .ok v ∧ v.SameLength ∧ (∀ p ∈ files.inputs, v.At p.1 p.2) ∧
      (∀ sv ∈ specialVocabulary files types, v.At sv.id sv.content) ∧
      ∀ vocabSize, (pad float32 vocabSize v).SameLength ∧ (pad float32 vocabSize v).Extends v

/-- The vocabularies that are converted with their ids. -/
structure Files.Sound (files : Files σ) (types : List Text) : Prop where
  regular : ∀ t, files.model = .missing → files.tokenizer = .ok t → t.Regular
  castable : ∀ model st, files.model = .ok model → files.specialTokensMap = .ok st → Castable st
  indices : ∀ pieces atm, files.Reads pieces atm → ∀ p ∈ atm, 0 ≤ p.2
  recorded : ∀ pieces atm, files.Reads pieces atm → Fits (pieces.map Piece.piece) atm →
    ∀ sv ∈ specialVocabulary files types, (sv.content, sv.id) ∈ atm ∨
      0 ≤ sv.id ∧ (pieces.map Piece.piece)[sv.id.toNat]? = some sv.content

theorem parseAdditionalSpecialTokens_panics_iff {st : List SpecialToken} :
    parseAdditionalSpecialTokens st = .panics ↔ ¬ Castable st := by
  induction st with
  | nil => simp [parseAdditionalSpecialTokens, Castable]
  | cons token st ih =>
    cases token with
    | object content =>
      rw [Castable, ← ih, parseAdditionalSpecialTokens]
      split <;> simp_all
    | mistyped => simp [parseAdditionalSpecialTokens, Castable]
    | other => simp [parseAdditionalSpecialTokens, Castable]

/-- Elements that can be asserted are all read unless one is mistyped. -/
theorem parseAdditionalSpecialTokens_of_castable {st : List SpecialToken} (h : Castable st) :
    (.mistyped ∈ st → parseAdditionalSpecialTokens st = .error) ∧
      (.mistyped ∉ st → ∃ ast, parseAdditionalSpecialTokens st = .ok ast) := by
  induction st with
  | nil => simp [parseAdditionalSpecialTokens]
  | cons token st ih =>
    cases token with
    | object content =>
      obtain ⟨herror, hok⟩ := ih h
      constructor
      · intro hmem
        rw [parseAdditionalSpecialTokens, herror (by simpa using hmem)]
      · intro hmem
        obtain ⟨ast, hast⟩ := hok (by simpa using hmem)
        rw [parseAdditionalSpecialTokens, hast]
        exact ⟨_, rfl⟩
    | mistyped => simp [parseAdditionalSpecialTokens]
    | other => exact h.elim

variable {files : Files σ} {types : List Text} {pieces : List (Piece σ)} {atm : List (Text × ℤ)}

theorem mem_sortById {p : Text × ℤ} : p ∈ sortById atm ↔ p ∈ atm :=
  mem_insertionSort _

theorem sortById_pairwise (atm : List (Text × ℤ)) : (sortById atm).Pairwise (·.2 ≤ ·.2) := by
  exact pairwise_insertionSort _ _

theorem fits_sortById {tokens : List Text} : Fits tokens (sortById atm) ↔ Fits tokens atm := by
  simp only [Fits, mem_sortById]

variable (float32) in
/-- The loader on a model that it reads. -/
theorem parseSentencePiece_of_reads (h : files.Reads pieces atm)
    (hcast : ∀ st, files.specialTokensMap = .ok st → Castable st) :
    ∃ v : Vocab σ, v.SameLength ∧ v.tokens = pieces.map Piece.piece ∧
      parseVocabulary float32 files = addTokens float32 (sortById atm) v := by
  obtain ⟨hmodel, hspecial, hadded⟩ := h
  obtain ⟨ast, hast⟩ : ∃ ast, (match files.specialTokensMap with
      | .ok st => parseAdditionalSpecialTokens st
      | .failed => .error
      | .missing => .ok []) = Outcome.ok ast := by
    rcases hspecial with hmissing | ⟨st, hst, hmem⟩
    · exact ⟨[], by rw [hmissing]⟩
    · rw [hst]
      exact (parseAdditionalSpecialTokens_of_castable (hcast st hst)).2 hmem
  refine ⟨⟨pieces.map Piece.piece, pieces.map Piece.score, pieces.map (pieceType ast)⟩,
    ⟨by simp, by simp⟩, rfl, ?_⟩
  simp only [parseVocabulary, hmodel, parseSentencePiece, hast]
  rcases hadded with hok | ⟨hmissing, rfl⟩
  · rw [hok]
  · rw [hmissing]
    rfl

/-- What the loader does not read is refused. -/
theorem parseSentencePiece_of_not_reads {model : Option (List (Piece σ))}
    (hmodel : files.model = .ok model)
    (hcast : ∀ st, files.specialTokensMap = .ok st → Castable st)
    (h : ¬ ∃ pieces atm, files.Reads pieces atm) :
    parseVocabulary float32 files = .error := by
  simp only [parseVocabulary, hmodel, parseSentencePiece]
  cases model with
  | none =>
    cases hst : files.specialTokensMap with
    | ok st =>
      dsimp only
      by_cases hmem : .mistyped ∈ st
      · rw [(parseAdditionalSpecialTokens_of_castable (hcast st hst)).1 hmem]
      · obtain ⟨ast, hast⟩ := (parseAdditionalSpecialTokens_of_castable (hcast st hst)).2 hmem
        rw [hast]
    | _ => rfl
  | some pieces =>
    cases hst : files.specialTokensMap with
    | failed => rfl
    | missing =>
      cases hadded : files.addedTokens with
      | failed => rfl
      | missing => exact absurd ⟨pieces, [], hmodel, .inl hst, .inr ⟨hadded, rfl⟩⟩ h
      | ok atm => exact absurd ⟨pieces, atm, hmodel, .inl hst, .inl hadded⟩ h
    | ok st =>
      dsimp only
      by_cases hmem : .mistyped ∈ st
      · rw [(parseAdditionalSpecialTokens_of_castable (hcast st hst)).1 hmem]
      obtain ⟨ast, hast⟩ := (parseAdditionalSpecialTokens_of_castable (hcast st hst)).2 hmem
      rw [hast]
      cases hadded : files.addedTokens with
      | failed => rfl
      | missing =>
        exact absurd ⟨pieces, [], hmodel, .inr ⟨st, hst, hmem⟩, .inr ⟨hadded, rfl⟩⟩ h
      | ok atm => exact absurd ⟨pieces, atm, hmodel, .inr ⟨st, hst, hmem⟩, .inl hadded⟩ h

theorem mem_inputs_of_reads (h : files.Reads pieces atm) {p : ℤ × Text} :
    p ∈ files.inputs ↔ (0 ≤ p.1 ∧ (pieces.map Piece.piece)[p.1.toNat]? = some p.2) ∨
      (p.2, p.1) ∈ atm := by
  obtain ⟨hmodel, -, hadded⟩ := h
  have hpieces : p ∈ pieces.zipIdx.map (fun p => ((p.2 : ℤ), p.1.piece)) ↔
      0 ≤ p.1 ∧ (pieces.map Piece.piece)[p.1.toNat]? = some p.2 := by
    rw [getElem?_map, Option.map_eq_some_iff]
    constructor
    · intro hp
      obtain ⟨⟨piece, i⟩, hi, rfl⟩ := mem_map.mp hp
      exact ⟨Int.natCast_nonneg i, piece, mem_zipIdx_iff_getElem?.mp hi, rfl⟩
    · rintro ⟨hpos, piece, hi, hpiece⟩
      refine mem_map.mpr ⟨(piece, p.1.toNat), mem_zipIdx_iff_getElem?.mpr hi, ?_⟩
      rw [Int.toNat_of_nonneg hpos, hpiece]
  rcases hadded with hok | ⟨hmissing, rfl⟩
  · simp only [Files.inputs, hmodel, hok, mem_append, hpieces]
    exact or_congr_right (mem_map_of_injective Prod.swap_injective (a := p.swap))
  · simp only [Files.inputs, hmodel, hmissing, hpieces, not_mem_nil, or_false]

/-- **A model with added tokens keeps its ids** exactly when no id is negative and, if the added
tokens fit, the recorded tokens are among its tokens. -/
theorem keeps_of_reads (h : files.Reads pieces atm)
    (hcast : ∀ st, files.specialTokensMap = .ok st → Castable st) :
    Keeps float32 files types ↔ (∀ p ∈ atm, 0 ≤ p.2) ∧ (Fits (pieces.map Piece.piece) atm →
        ∀ sv ∈ specialVocabulary files types, (sv.content, sv.id) ∈ atm ∨
          0 ≤ sv.id ∧ (pieces.map Piece.piece)[sv.id.toNat]? = some sv.content) := by
  obtain ⟨v, hlen, htokens, hparse⟩ := parseSentencePiece_of_reads float32 h hcast
  have hpanics := addTokens_panics_iff float32 v (sortById_pairwise atm)
  simp only [mem_sortById] at hpanics
  by_cases hneg : ∃ p ∈ atm, p.2 < 0
  · rw [Keeps, hparse, hpanics.mpr hneg]
    refine ⟨fun hkeeps => ?_, fun hpos => ?_⟩
    · rcases hkeeps with herror | ⟨w, hw, -⟩
      · cases herror
      · cases hw
    · obtain ⟨p, hp, hlt⟩ := hneg
      exact absurd (hpos.1 p hp) (by omega)
  · have hpos : ∀ p ∈ atm, 0 ≤ p.2 := fun p hp => by
      by_contra hlt
      exact hneg ⟨p, hp, by omega⟩
    have hpos' : ∀ p ∈ sortById atm, 0 ≤ p.2 := fun p hp => hpos p (mem_sortById.mp hp)
    cases hadd : addTokens float32 (sortById atm) v with
    | panics => exact absurd (hpanics.mp hadd) hneg
    | error =>
      refine iff_of_true (.inl (hparse.trans hadd)) ⟨hpos, fun hfits => ?_⟩
      obtain ⟨w, hw⟩ := addTokens_of_fits float32 (sortById_pairwise atm) hpos'
        (v := v) (fits_sortById.mpr (htokens ▸ hfits))
      cases hadd.symm.trans hw
    | ok w =>
      obtain ⟨hwlen, -, hat⟩ := addTokens_ok hpos' hlen hadd
      have hfits := fits_sortById.mp (fits_of_addTokens hpos' hlen hadd)
      simp only [Vocab.At, mem_sortById, htokens] at hat hfits
      constructor
      · rintro (herror | ⟨w', hw', -, -, hrecorded, -⟩)
        · cases hadd.symm.trans (hparse.symm.trans herror)
        · obtain rfl : w = w' := Outcome.ok.inj (hadd.symm.trans (hparse.symm.trans hw'))
          exact ⟨hpos, fun _ sv hsv => ((hat _ _).mp (hrecorded sv hsv)).symm⟩
      · rintro ⟨-, hrecorded⟩
        exact .inr ⟨w, hparse.trans hadd, hwlen,
          fun p hp => (hat _ _).mpr ((mem_inputs_of_reads h).mp hp),
          fun sv hsv => (hat _ _).mpr (hrecorded hfits sv hsv).symm, fun n => pad_extends n hwlen⟩

/-- A loader of `tokenizer.json` keeps exactly the ids without gaps. -/
theorem keeps_of_tokenizer (hmodel : files.model = .missing) (htok : files.tokenizer = .ok t) :
    Keeps float32 files types ↔ t.Regular := by
  have hparse : parseVocabulary float32 files = .ok (parseVocabularyFromTokenizer float32 t) := by
    simp [parseVocabulary, hmodel, htok]
  have hinputs : files.inputs = t.inputs := by simp only [Files.inputs, hmodel, htok]
  have hlen := (parseVocabularyFromTokenizer_spec float32 t).2
  rw [Keeps, hparse, hinputs, ← keeps_inputs_iff float32]
  constructor
  · rintro (herror | ⟨v, ⟨⟩, -, hat, -⟩)
    · cases herror
    · exact hat
  intro hat
  refine .inr ⟨_, rfl, hlen, hat, fun sv hsv => ?_, fun n => pad_extends n hlen⟩
  rw [specialVocabulary, htok] at hsv
  split at hsv
  · next heq _ =>
    obtain rfl := Opened.ok.inj heq
    obtain ⟨st, -, hst⟩ := mem_filterMap.mp hsv
    obtain ⟨content, -, hfound⟩ := Option.bind_eq_some_iff.mp hst
    obtain ⟨token, htoken, rfl⟩ := Option.map_eq_some_iff.mp hfound
    have hcontent : token.content = content := by simpa using find?_some htoken
    rw [← hcontent]
    exact hat _ (mem_append_right _
      (mem_map.mpr ⟨token, mem_reverse.mp (mem_of_find?_eq_some htoken), rfl⟩))
  · cases hsv

/-- **A converted vocabulary has its tokens at their ids** exactly when, for `tokenizer.json`, the
ids are those below their number with one token each, and otherwise no element of the special
tokens is asserted to be what it is not, no added id is negative and the recorded tokens are
among the pieces and the added tokens, unless these do not fit. -/
theorem parseVocabulary_keeps_iff (float32 : ℤ → σ) (files : Files σ) (types : List Text) :
    Keeps float32 files types ↔ files.Sound types := by
  cases hmodel : files.model with
  | missing =>
    have hsound : files.Sound types ↔ ∀ t, files.tokenizer = .ok t → t.Regular := by
      refine ⟨fun h t => h.regular t hmodel, fun h => ⟨fun t _ => h t, fun _ _ hok => ?_,
        fun _ _ hreads => ?_, fun _ _ hreads => ?_⟩⟩
      · cases hmodel.symm.trans hok
      · cases hmodel.symm.trans hreads.1
      · cases hmodel.symm.trans hreads.1
    rw [hsound]
    cases htok : files.tokenizer with
    | ok t => simp [keeps_of_tokenizer hmodel htok]
    | _ => exact iff_of_true (.inl (by simp [parseVocabulary, hmodel, htok])) fun t ht => nomatch ht
  | failed =>
    refine iff_of_true (.inl (by simp [parseVocabulary, hmodel]))
      ⟨fun _ hmissing => ?_, fun _ _ hok => ?_, fun _ _ hreads => ?_, fun _ _ hreads => ?_⟩
    · cases hmodel.symm.trans hmissing
    · cases hmodel.symm.trans hok
    · cases hmodel.symm.trans hreads.1
    · cases hmodel.symm.trans hreads.1
  | ok model =>
    by_cases hcast : ∀ st, files.specialTokensMap = .ok st → Castable st
    · have hregular : ∀ t, files.model = .missing → files.tokenizer = .ok t → t.Regular :=
        fun t hmissing => nomatch hmodel.symm.trans hmissing
      by_cases hreads : ∃ pieces atm, files.Reads pieces atm
      · obtain ⟨pieces, atm, hreads⟩ := hreads
        have honly : ∀ pieces' atm', files.Reads pieces' atm' → pieces' = pieces ∧ atm' = atm := by
          intro pieces' atm' hreads'
          refine ⟨Option.some.inj (Opened.ok.inj (hreads'.1.symm.trans hreads.1)), ?_⟩
          rcases hreads.2.2 with hok | ⟨hmissing, rfl⟩ <;>
            rcases hreads'.2.2 with hok' | ⟨hmissing', rfl⟩
          · exact Opened.ok.inj (hok'.symm.trans hok)
          · cases hok.symm.trans hmissing'
          · cases hmissing.symm.trans hok'
          · rfl
        rw [keeps_of_reads hreads hcast]
        constructor
        · rintro ⟨hpos, hrecorded⟩
          refine ⟨hregular, fun _ st _ => hcast st, fun pieces' atm' h => ?_,
            fun pieces' atm' h => ?_⟩ <;> obtain ⟨rfl, rfl⟩ := honly _ _ h
          · exact hpos
          · exact hrecorded
        · exact fun h => ⟨h.indices _ _ hreads, h.recorded _ _ hreads⟩
      · exact iff_of_true (.inl (parseSentencePiece_of_not_reads hmodel hcast hreads))
          ⟨hregular, fun _ st _ => hcast st, fun _ _ h => absurd ⟨_, _, h⟩ hreads,
            fun _ _ h => absurd ⟨_, _, h⟩ hreads⟩
    · obtain ⟨st, hst, hcast⟩ : ∃ st, files.specialTokensMap = .ok st ∧ ¬ Castable st := by
        simpa using hcast
      have hparse : parseVocabulary float32 files = .panics := by
        simp [parseVocabulary, hmodel, parseSentencePiece, hst,
          parseAdditionalSpecialTokens_panics_iff.mpr hcast]
      refine iff_of_false (fun hkeeps => ?_) fun h => hcast (h.castable _ _ hmodel hst)
      rcases hkeeps with herror | ⟨v, hv, -⟩
      · cases hparse.symm.trans herror
      · cases hparse.symm.trans hv

/-- With the ids 0 and 2, the token of id 2 is at index 1. -/
theorem gap_shifts : ¬ Keeps (σ := ℤ) (fun id => id)
    { specialTokensMap := .missing, model := .missing, addedTokens := .missing,
      tokenizer := .ok { addedTokens := [], vocab := [("a".toList, 0), ("b".toList, 2)] },
      config := .missing } [] := by
  rw [keeps_of_tokenizer rfl rfl]
  intro h
  have hb := (h.contiguous _ (mem_append_left _ (mem_cons_of_mem _ mem_cons_self))).2
  exact absurd hb (by decide)

end Ollama.Convert.Vocabulary
