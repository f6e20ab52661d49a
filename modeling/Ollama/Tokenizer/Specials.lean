import Ollama.Tokenizer.SentencePiece
import Ollama.Tokenizer.WordPiece

/-!
# Special tokens around a text

What `Encode` adds at the beginning and at the end of the ids, in the three tokenizers of `model`.
-/

namespace Ollama.Tokenizer

open Lib Lib.Utf8 Parsers List

/-! ## §1  Specials -/

section Specials

variable {σ : Type} (v : Vocabulary σ)

/-- The ids between the first BOS id and the first EOS id, where the vocabulary adds them. -/
def Vocabulary.withSpecials {ι : Type} [NatCast ι] (ids : List ι) : List ι :=
  (if v.addBOS then v.bos.head?.toList.map Nat.cast else []) ++ ids ++
    if v.addEOS then v.eos.head?.toList.map Nat.cast else []

/-- The encoding with special tokens is that without, between BOS and EOS. -/
def Specials {ι : Type} [NatCast ι] (encode : Bool → Option (List ι)) : Prop :=
  ∃ ids, encode false = some ids ∧ (ids ≠ [] → encode true = some (v.withSpecials ids))

/-- Nothing is encoded to nothing. -/
def Empties {ι : Type} (encode : Bool → Option (List ι)) : Prop :=
  encode false = some [] → encode true = some []

variable {v}

theorem addSpecials_eq {ids : List ℕ} (hne : ids ≠ []) :
    v.addSpecials ids = some (v.withSpecials ids) := by
  unfold Vocabulary.addSpecials Vocabulary.withSpecials
  have hmap : ∀ o : Option ℕ, o.toList.map Nat.cast = o.toList := by
    intro o
    cases o <;> rfl
  rw [hmap, hmap]
  cases v.addBOS <;> cases v.addEOS <;> cases v.bos <;> cases v.eos <;> simp [hne]

theorem addSpecialIds_eq {ids : List Int} (hne : ids ≠ []) :
    v.addSpecialIds ids = some (v.withSpecials ids) := by
  unfold Vocabulary.addSpecialIds Vocabulary.withSpecials
  cases v.addBOS <;> cases v.addEOS <;> cases v.bos <;> cases v.eos <;> simp [hne]

end Specials

/-! ## §2  Every text is encoded -/

section Returns

variable {σ : Type}

/-- The loop over the fragments ends, whatever the text. -/
theorem cutLoop_returns {special : Str} (id : ℕ) (hne : special ≠ []) (n : ℕ)
    {frags : List Fragment} (hn : steps frags ≤ n) : ∃ r, cutLoop special id n frags = some r := by
  induction n generalizing frags with
  | zero =>
    cases frags with
    | nil => exact ⟨[], rfl⟩
    | cons frag rest =>
      rw [steps, map_cons, sum_cons] at hn
      omega
  | succ n ih =>
    cases frags with
    | nil => exact ⟨[], rfl⟩
    | cons frag rest =>
      rw [steps, map_cons, sum_cons] at hn
      obtain ⟨r, hr⟩ := @ih rest (by unfold steps; omega)
      unfold cutLoop
      split
      · exact ⟨frag :: r, by rw [hr]; rfl⟩
      cases hi : index frag.value special with
      | none => exact ⟨frag :: r, by rw [hr]; rfl⟩
      | some i =>
        obtain ⟨hocc, -⟩ := (index_eq_some hne).mp hi
        have hend := hocc.add_le hne
        have hpos := length_pos_iff.mpr hne
        have hlen : (frag.value.drop (i + special.length)).length < frag.value.length := by
          rw [length_drop]
          omega
        dsimp only
        generalize frag.value.drop (i + special.length) = u at hlen ⊢
        obtain ⟨r', hr'⟩ := @ih (if u ≠ [] then ⟨u, []⟩ :: rest else rest) (by
          split
          · rw [steps, map_cons, sum_cons]
            dsimp only
            omega
          · unfold steps
            omega)
        rw [hr']
        exact ⟨_, rfl⟩

theorem foldlM_cutSpecial_returns {v : Vocabulary σ} {specials : List Str}
    (hspecial : ∀ t ∈ specials, t ≠ [] ∧ t ∈ v.values) (frags : List Fragment) :
    ∃ r, specials.foldlM (cutSpecial v) frags = some r := by
  induction specials generalizing frags with
  | nil => exact ⟨frags, rfl⟩
  | cons special specials ih =>
    obtain ⟨hne, hmem⟩ := hspecial special mem_cons_self
    obtain ⟨id, hid⟩ := Vocabulary.exists_encode hmem
    obtain ⟨r, hr⟩ := cutLoop_returns id hne (steps frags) le_rfl
    have hcut : cutSpecial v frags special = some r := by
      rw [cutSpecial, hid]
      exact hr
    rw [foldlM_cons, hcut]
    exact ih (fun t ht => hspecial t (mem_cons_of_mem _ ht)) r

theorem cutSpecials_returns {v : Vocabulary σ} (hspecial : ∀ t ∈ v.specialVocabulary, t ≠ [])
    (s : Str) : ∃ frags, cutSpecials v s = some frags :=
  foldlM_cutSpecial_returns (fun t ht => ⟨hspecial t ht, Vocabulary.mem_of_special ht⟩) _

theorem mapM_returns {α β : Type} {f : α → Option β} (h : ∀ x, ∃ y, f x = some y) (xs : List α) :
    ∃ ys, xs.mapM f = some ys := by
  induction xs with
  | nil => exact ⟨[], rfl⟩
  | cons x xs ih =>
    obtain ⟨y, hy⟩ := h x
    obtain ⟨ys, hys⟩ := ih
    exact ⟨y :: ys, by rw [mapM_cons, hy, hys]; rfl⟩

theorem mergeRunes_returns {ε κ : Type} [LinearOrder κ] {key : ε → κ} (rules : MergeRules ε)
    (heap : Heap key) (rs : List Char) : ∃ groups, mergeRunes rules heap rs = some groups := by
  obtain ⟨groups, hrun, -⟩ :=
    @mergeRunes_spec _ _ _ _ rules heap (fun _ => True) (fun _ _ _ _ => trivial) rs
  exact ⟨groups, hrun⟩

end Returns

/-! ## §3  The tokenizers -/

section Tokenizers

variable {σ : Type}

theorem BytePairEncoding.specials {bpe : BytePairEncoding σ} (heap : Heap RankedPair.rank)
    (hspecial : ∀ t ∈ bpe.vocab.specialVocabulary, t ≠ []) (s : Str) :
    Specials bpe.vocab (bpe.encode heap s) := by
  obtain ⟨frags, hcut⟩ := cutSpecials_returns hspecial s
  have hpiece : ∀ piece, ∃ ids, bpe.encodePiece heap piece = some ids := by
    intro piece
    obtain ⟨groups, hrun⟩ := mergeRunes_returns bpe.rules heap (runes (bpe.normalize piece))
    unfold encodePiece
    dsimp only
    split
    · exact ⟨_, rfl⟩
    · exact ⟨_, by rw [hrun]; rfl⟩
  have hfrag : ∀ frag, ∃ ids, bpe.encodeFragment heap frag = some ids := by
    intro frag
    obtain ⟨ids, hids⟩ := mapM_returns hpiece (split bpe.regexps frag.value)
    unfold encodeFragment
    split
    · exact ⟨_, rfl⟩
    · exact ⟨_, by rw [hids]; rfl⟩
  obtain ⟨ids, hids⟩ := mapM_returns hfrag frags
  have hencode : ∀ addSpecial, bpe.encode heap s addSpecial =
      if addSpecial then bpe.vocab.addSpecials ids.flatten else some ids.flatten := by
    intro addSpecial
    unfold encode
    rw [hcut, Option.bind_eq_bind, Option.bind_some, hids]
    rfl
  refine ⟨ids.flatten, hencode false, fun hne => ?_⟩
  rw [hencode true]
  exact addSpecials_eq hne

theorem SentencePiece.encode_eq [LinearOrder σ] {spm : SentencePiece σ}
    (heap : Heap (@Candidate.key σ)) (hspecial : ∀ t ∈ spm.vocab.specialVocabulary, t ≠ [])
    (s : Str) : ∃ ids, ∀ addSpecial, spm.encode heap s addSpecial =
      if addSpecial ∧ ids ≠ [] then spm.vocab.addSpecials ids else some ids := by
  obtain ⟨frags, hcut⟩ := cutSpecials_returns hspecial s
  have hfrag : ∀ frag, ∃ ids, spm.encodeFragment heap frag = some ids := by
    intro frag
    obtain ⟨groups, hrun⟩ := mergeRunes_returns spm.rules heap (runes (replaceSpaces frag.value))
    unfold encodeFragment
    dsimp only
    split
    · exact ⟨_, rfl⟩
    · split
      · exact ⟨_, rfl⟩
      · exact ⟨_, by rw [hrun]; rfl⟩
  obtain ⟨ids, hids⟩ := mapM_returns hfrag frags
  refine ⟨ids.flatten, fun addSpecial => ?_⟩
  unfold encode
  rw [hcut, Option.bind_eq_bind, Option.bind_some, hids]
  rfl

theorem SentencePiece.specials [LinearOrder σ] {spm : SentencePiece σ}
    (heap : Heap (@Candidate.key σ)) (hspecial : ∀ t ∈ spm.vocab.specialVocabulary, t ≠ [])
    (s : Str) : Specials spm.vocab (spm.encode heap s) ∧ Empties (spm.encode heap s) := by
  obtain ⟨ids, hencode⟩ := spm.encode_eq heap hspecial s
  have hfalse : spm.encode heap s false = some ids := by
    rw [hencode, if_neg fun h => Bool.noConfusion h.1]
  constructor
  · refine ⟨ids, hfalse, fun hne => ?_⟩
    rw [hencode, if_pos ⟨rfl, hne⟩]
    exact addSpecials_eq hne
  · intro hempty
    rw [hfalse] at hempty
    obtain rfl := Option.some.inj hempty
    rw [hencode, if_neg fun h => h.2 rfl]

theorem WordPiece.specials (wpm : WordPiece σ) (toLower : Str → Str) (isPunct : Char → Bool)
    (s : Str) : Specials wpm.vocab (wpm.encode toLower isPunct s) ∧
      Empties (wpm.encode toLower isPunct s) := by
  have hencode : ∃ ids, ∀ addSpecial, wpm.encode toLower isPunct s addSpecial =
      if addSpecial ∧ ids ≠ [] then wpm.vocab.addSpecialIds ids else some ids :=
    ⟨_, fun _ => rfl⟩
  obtain ⟨ids, hencode⟩ := hencode
  have hfalse : wpm.encode toLower isPunct s false = some ids := by
    rw [hencode, if_neg fun h => Bool.noConfusion h.1]
  constructor
  · refine ⟨ids, hfalse, fun hne => ?_⟩
    rw [hencode, if_pos ⟨rfl, hne⟩]
    exact addSpecialIds_eq hne
  · intro hempty
    rw [hfalse] at hempty
    obtain rfl := Option.some.inj hempty
    rw [hencode, if_neg fun h => h.2 rfl]

variable {τ υ : Type} [LinearOrder τ]

/-- **Special tokens in the three tokenizers**: every text is encoded, and ids that are not empty
come between BOS and EOS; no ids stay no ids where the code looks for them. -/
theorem encode_specials {bpe : BytePairEncoding σ} {spm : SentencePiece τ} (wpm : WordPiece υ)
    (hbpe : ∀ t ∈ bpe.vocab.specialVocabulary, t ≠ [])
    (hspm : ∀ t ∈ spm.vocab.specialVocabulary, t ≠ []) (pairs : Heap RankedPair.rank)
    (candidates : Heap (@Candidate.key τ)) (toLower : Str → Str) (isPunct : Char → Bool)
    (s : Str) :
    Specials bpe.vocab (bpe.encode pairs s) ∧
      (Specials spm.vocab (spm.encode candidates s) ∧ Empties (spm.encode candidates s)) ∧
      (Specials wpm.vocab (wpm.encode toLower isPunct s) ∧
        Empties (wpm.encode toLower isPunct s)) :=
  ⟨bpe.specials pairs hbpe s, spm.specials candidates hspm s, wpm.specials toLower isPunct s⟩

/-- The text "ab<s>" with special tokens. -/
theorem encode_specials_sample :
    let s := Utf8.encode ['a', 'b', '<', 's', '>']
    let v := BytePairEncoding.sample.vocab
    let w := SentencePiece.sample.vocab
    Specials v (BytePairEncoding.sample.encode (Heap.list _) s) ∧
      (Specials w (SentencePiece.sample.encode (Heap.list _) s) ∧
        Empties (SentencePiece.sample.encode (Heap.list _) s)) ∧
      (Specials v ((⟨v⟩ : WordPiece ℕ).encode id quotes s) ∧
        Empties ((⟨v⟩ : WordPiece ℕ).encode id quotes s)) :=
  encode_specials ⟨BytePairEncoding.sample.vocab⟩ (by decide +kernel) (by decide +kernel) _ _ id
    quotes _

/-- The byte tokens, with "<" as the BOS token that is added. -/
def bosSample : SentencePiece ℕ :=
  ⟨{ SentencePiece.sampleVocabulary with addBOS := true, bos := [0x3c] }, by decide +kernel⟩

/-- No BOS before nothing. -/
theorem encode_empty_bos : (∀ t ∈ bosSample.vocab.specialVocabulary, t ≠ []) ∧
      bosSample.encode (Heap.list _) [] false = some [] ∧
      bosSample.encode (Heap.list _) [] true ≠ some (bosSample.vocab.withSpecials []) := by
  decide +kernel

end Tokenizers

end Ollama.Tokenizer
