import Ollama.Parsers.Bytes
import Ollama.Tokenizer.Vocabulary

/-!
# Word pieces

`model/wordpiece.go`: a text is split into words, and a word into the longest pieces of the
vocabulary. What is punctuation and the lower case of a text (`unicode.IsPunct`,
`strings.ToLower`) are parameters.
-/

namespace Ollama.Tokenizer

open Lib Lib.Utf8 Parsers Parsers.Bytes List

/-! ## §1  Words -/

/-- The runes that `words` puts between spaces. -/
def isCJK (r : Char) : Bool :=
  (0x4e00 ≤ r.toNat && r.toNat ≤ 0x9fff) || (0x3400 ≤ r.toNat && r.toNat ≤ 0x4dbf) ||
    (0x20000 ≤ r.toNat && r.toNat ≤ 0x2a6df) || (0x2a700 ≤ r.toNat && r.toNat ≤ 0x2b73f) ||
    (0x2b740 ≤ r.toNat && r.toNat ≤ 0x2b81f) || (0x2b820 ≤ r.toNat && r.toNat ≤ 0x2ceaf) ||
    (0xf900 ≤ r.toNat && r.toNat ≤ 0xfaff) || (0x2f800 ≤ r.toNat && r.toNat ≤ 0x2fa1f)

def spaced (r : Char) : List Char := if isCJK r then [' ', r, ' '] else [r]

def indexRunes (f : Char → Bool) : List (Char × Str) → Option ℕ
  | [] => none
  | r :: rs => if f r.1 then some 0 else (indexRunes f rs).map (r.2.length + ·)

/-- `strings.IndexFunc`; `none` is -1. -/
def indexFunc (f : Char → Bool) (s : Str) : Option ℕ := indexRunes f (runeBytes s)

def cutEnd (isPunct : Char → Bool) (w : Str) : ℕ :=
  match indexFunc isPunct w with
  | none => w.length
  | some 0 => 1
  | some i => i

def splitPunct (isPunct : Char → Bool) : ℕ → Str → List Str
  | 0, _ => []
  | _ + 1, [] => []
  | n + 1, w => w.take (cutEnd isPunct w) :: splitPunct isPunct n (w.drop (cutEnd isPunct w))

def words (isPunct : Char → Bool) (s : Str) : List Str :=
  (fields (encode ((runeBytes s).flatMap fun r => spaced r.1))).flatMap fun w =>
    splitPunct isPunct w.length w

/-! ## §2  `Encode` -/

structure WordPiece (σ : Type) where
  vocab : Vocabulary σ

/-- `ggmlPrefix`, the bytes of U+2581. -/
def ggmlPrefix : Str := [0xe2, 0x96, 0x81]

/-- `Vocabulary.addSpecials` on ids that may be -1. -/
def Vocabulary.addSpecialIds {σ : Type} (v : Vocabulary σ) (ids : List Int) :
    Option (List Int) := do
  let ids ←
    if v.addBOS ∧ v.bos ≠ [] then
      if ids = [] then none else some (v.bos.head?.toList.map Int.ofNat ++ ids)
    else some ids
  if v.addEOS ∧ v.eos ≠ [] then
    if ids = [] then none else some (ids ++ v.eos.head?.toList.map Int.ofNat)
  else some ids

namespace WordPiece

variable {σ : Type} (wpm : WordPiece σ) (toLower : Str → Str) (isPunct : Char → Bool)

/-- The loop over `end`: the longest piece, and where it ends. -/
def longestPiece (word : Str) (start : ℕ) : ℕ → Option (ℕ × ℕ)
  | 0 => none
  | k + 1 =>
      let subword := (word.drop start).take (k + 1)
      let subword := if start = 0 then ggmlPrefix ++ subword else subword
      match wpm.vocab.encode (toLower subword) with
      | some piece => some (piece, start + (k + 1))
      | none => longestPiece word start k

/-- The loop over `start` on a word; `none` for a word with a part that is no piece. -/
def piecesFrom (word : Str) : ℕ → ℕ → Option (List ℕ)
  | 0, _ => some []
  | n + 1, start =>
      if start < word.length then
        match wpm.longestPiece toLower word start (word.length - start) with
        | none => none
        | some (piece, end_) => (piecesFrom word n end_).map (piece :: ·)
      else some []

/-- The ids of a word; -1 where the vocabulary has no `[UNK]`. -/
def encodeWord (unk : Int) (word : Str) : List Int :=
  match wpm.piecesFrom toLower word word.length 0 with
  | some (piece :: pieces) => (piece :: pieces).map Int.ofNat
  | _ => [unk]

/-- `Encode`; `none` when the code does not return. -/
def encode (s : Str) (addSpecial : Bool) : Option (List Int) :=
  let unk : Int := (wpm.vocab.encode (lit "[UNK]")).elim (-1) Int.ofNat
  let ids := (words isPunct s).flatMap (wpm.encodeWord toLower unk)
  if addSpecial ∧ ids ≠ [] then wpm.vocab.addSpecialIds ids else some ids

end WordPiece

/-! ## §3  The words of a field -/

variable {isPunct : Char → Bool}

def NarrowPunct (isPunct : Char → Bool) (cs : List Char) : Prop :=
  ∀ c ∈ cs, isPunct c = true → c.utf8Size = 1

/-- Punctuation on its own, or none. -/
def Word (isPunct : Char → Bool) (w : List Char) : Prop :=
  w ≠ [] ∧ ((∃ c, w = [c] ∧ isPunct c = true) ∨ ∀ c ∈ w, isPunct c = false)

theorem indexFunc_plain {cs : List Char} (h : ∀ c ∈ cs, isPunct c = false) :
    indexFunc isPunct (encode cs) = none := by
  unfold indexFunc
  rw [runeBytes_encode]
  induction cs with
  | nil => rfl
  | cons c cs ih =>
    rw [map_cons, indexRunes, ih fun d hd => h d (mem_cons_of_mem _ hd)]
    exact if_neg (Bool.eq_false_iff.mp (h c mem_cons_self))

variable {c : Char}

theorem indexFunc_punct {w cs : List Char} (hw : ∀ d ∈ w, isPunct d = false)
    (hc : isPunct c = true) :
    indexFunc isPunct (encode (w ++ c :: cs)) = some (encode w).length := by
  unfold indexFunc
  rw [runeBytes_encode]
  induction w with
  | nil => exact if_pos hc
  | cons d w ih =>
    rw [cons_append, map_cons, indexRunes,
      ih fun x hx => hw x (mem_cons_of_mem _ hx), encode_cons, length_append]
    exact if_neg (Bool.eq_false_iff.mp (hw d mem_cons_self))

theorem length_encode_pos {w : List Char} (hw : w ≠ []) : 0 < (encode w).length :=
  length_pos_iff.mpr (encode_ne_nil hw)

/-- The loop takes a text without punctuation at once. -/
theorem splitPunct_plain {w : List Char} (hw : ∀ c ∈ w, isPunct c = false) (hne : w ≠ []) (n : ℕ) :
    splitPunct isPunct (n + 1) (encode w) = [encode w] := by
  have hcut : cutEnd isPunct (encode w) = (encode w).length := by
    unfold cutEnd
    rw [indexFunc_plain hw]
  have hpos := encode_ne_nil hne
  rw [splitPunct.eq_def]
  cases hs : encode w with
  | nil => exact absurd hs hpos
  | cons b s =>
    rw [hs] at hcut
    dsimp only
    rw [hcut, take_length, drop_length]
    cases n <;> rfl

/-- The loop takes the text before punctuation. -/
theorem splitPunct_before {w cs : List Char} (hw : ∀ d ∈ w, isPunct d = false)
    (hne : w ≠ []) (hc : isPunct c = true) (n : ℕ) :
    splitPunct isPunct (n + 1) (encode (w ++ c :: cs)) =
      encode w :: splitPunct isPunct n (encode (c :: cs)) := by
  have hcut : cutEnd isPunct (encode (w ++ c :: cs)) = (encode w).length := by
    have hpos := length_encode_pos hne
    unfold cutEnd
    rw [indexFunc_punct hw hc]
    split
    · next h => cases h
    · next h => exact absurd (Option.some.inj h) (Nat.ne_of_gt hpos)
    · next h => exact (Option.some.inj h).symm
  have htake : (encode (w ++ c :: cs)).take (encode w).length = encode w := by
    rw [encode_append, take_left]
  have hdrop : (encode (w ++ c :: cs)).drop (encode w).length = encode (c :: cs) := by
    rw [encode_append, drop_left]
  have hpos : encode (w ++ c :: cs) ≠ [] := encode_ne_nil (append_ne_nil_of_left_ne_nil hne _)
  rw [splitPunct.eq_def]
  cases hs : encode (w ++ c :: cs) with
  | nil => exact absurd hs hpos
  | cons b s =>
    rw [hs] at hcut htake hdrop
    dsimp only
    rw [hcut, htake, hdrop]

/-- The loop takes the first byte of punctuation. -/
theorem splitPunct_punct {cs : List Char} (hc : isPunct c = true) (n : ℕ) :
    splitPunct isPunct (n + 1) (encode (c :: cs)) =
      (encode (c :: cs)).take 1 :: splitPunct isPunct n ((encode (c :: cs)).drop 1) := by
  have hcut : cutEnd isPunct (encode (c :: cs)) = 1 := by
    unfold cutEnd
    rw [show encode (c :: cs) = encode ([] ++ c :: cs) from rfl,
      indexFunc_punct (forall_mem_nil _) hc]
    rfl
  have hpos : encode (c :: cs) ≠ [] := encode_ne_nil (cons_ne_nil _ _)
  rw [splitPunct.eq_def]
  cases hs : encode (c :: cs) with
  | nil => exact absurd hs hpos
  | cons b s =>
    rw [hs] at hcut
    dsimp only
    rw [hcut]

/-- A text is text without punctuation, and what is from the first punctuation on. -/
theorem exists_punct (isPunct : Char → Bool) (cs : List Char) : (∀ c ∈ cs, isPunct c = false) ∨
      ∃ w c ds, cs = w ++ c :: ds ∧ (∀ d ∈ w, isPunct d = false) ∧ isPunct c = true := by
  induction cs with
  | nil => exact .inl (forall_mem_nil _)
  | cons c cs ih =>
    cases hc : isPunct c with
    | true => exact .inr ⟨[], c, cs, rfl, forall_mem_nil _, hc⟩
    | false =>
      rcases ih with h | ⟨w, d, ds, rfl, hw, hd⟩
      · exact .inl (forall_mem_cons.mpr ⟨hc, h⟩)
      · exact .inr ⟨c :: w, d, ds, rfl, forall_mem_cons.mpr ⟨hc, hw⟩, hd⟩

theorem encode_one {cs : List Char} (hc : c.utf8Size = 1) :
    (encode (c :: cs)).take 1 = encode [c] ∧ (encode (c :: cs)).drop 1 = encode cs := by
  have hlen : (String.utf8EncodeChar c).length = 1 := by rw [String.length_utf8EncodeChar, hc]
  constructor
  · rw [encode_cons, take_left' hlen, encode_cons, encode_nil, append_nil]
  · rw [encode_cons, drop_left' hlen]

/-- A field whose punctuation is narrow is cut into words. -/
theorem splitPunct_narrow (n : ℕ) {cs : List Char} (hn : (encode cs).length ≤ n)
    (hcs : NarrowPunct isPunct cs) :
    ∃ ws : List (List Char), splitPunct isPunct n (encode cs) = ws.map encode ∧
      ws.flatten = cs ∧ ∀ w ∈ ws, Word isPunct w := by
  induction n generalizing cs with
  | zero =>
    have hnil : cs = [] := by
      by_contra hne
      exact absurd hn (Nat.not_le.mpr (length_encode_pos hne))
    subst hnil
    exact ⟨[], rfl, rfl, forall_mem_nil _⟩
  | succ n ih =>
    rcases exists_punct isPunct cs with hplain | ⟨w, c, ds, rfl, hw, hc⟩
    · by_cases hne : cs = []
      · subst hne
        exact ⟨[], rfl, rfl, forall_mem_nil _⟩
      · refine ⟨[cs], splitPunct_plain hplain hne n, flatten_singleton, ?_⟩
        exact forall_mem_singleton.mpr ⟨hne, .inr hplain⟩
    · rw [encode_append, length_append] at hn
      by_cases hne : w = []
      · -- punctuation, which is one byte
        subst hne
        have hone := hcs c mem_cons_self hc
        obtain ⟨htake, hdrop⟩ := @encode_one c ds hone
        have hle : (encode ds).length ≤ n := by
          rw [encode_cons, length_append, String.length_utf8EncodeChar, hone] at hn
          omega
        obtain ⟨ws, hws, hflat, hword⟩ :=
          ih hle fun d hd => hcs d (mem_cons_of_mem _ hd)
        refine ⟨[c] :: ws, ?_, ?_, ?_⟩
        · rw [nil_append, splitPunct_punct hc, htake, hdrop, hws, map_cons]
        · rw [flatten_cons, hflat]
          rfl
        · exact forall_mem_cons.mpr ⟨⟨cons_ne_nil _ _, .inl ⟨c, rfl, hc⟩⟩, hword⟩
      · have hpos := length_encode_pos hne
        obtain ⟨ws, hws, hflat, hword⟩ :=
          ih (by omega) fun d hd => hcs d (mem_append_right _ hd)
        refine ⟨w :: ws, ?_, ?_, ?_⟩
        · rw [splitPunct_before hw hne hc, hws, map_cons]
        · rw [flatten_cons, hflat]
        · exact forall_mem_cons.mpr ⟨⟨hne, .inr hw⟩, hword⟩

/-- The first byte of a wide character is no text. -/
theorem not_valid_first (hc : c.utf8Size ≠ 1) (cs : List Char) :
    ¬ Valid ((encode (c :: cs)).take 1) := by
  obtain ⟨b, rest, hchar, hlead, -⟩ := utf8EncodeChar_shape c
  have hsize : rest.length + 1 ≠ 1 := by
    rw [← String.length_utf8EncodeChar, hchar, length_cons] at hc
    exact hc
  rw [encode_cons, hchar]
  rintro ⟨ds, hds⟩
  cases ds with
  | nil => cases hds
  | cons d ds =>
    obtain ⟨x, more, hd, hlead', -⟩ := utf8EncodeChar_shape d
    rw [encode_cons, hd] at hds
    obtain ⟨hb, hmore⟩ := List.cons.inj hds
    have hnil : more = [] := (append_eq_nil_iff.mp hmore.symm).1
    rw [hnil, ← hb] at hlead'
    -- one byte and more than one byte
    unfold Lead at hlead hlead'
    simp only [length_nil] at hlead'
    omega

/-- Wide punctuation in a field is cut. -/
theorem splitPunct_wide (n : ℕ) {cs : List Char} (hn : (encode cs).length ≤ n)
    (hcs : ¬ NarrowPunct isPunct cs) : ∃ w ∈ splitPunct isPunct n (encode cs), ¬ Valid w := by
  induction n generalizing cs with
  | zero =>
    exfalso
    apply hcs
    intro c hc
    have hne : cs ≠ [] := ne_nil_of_mem hc
    exact absurd hn (Nat.not_le.mpr (length_encode_pos hne))
  | succ n ih =>
    rcases exists_punct isPunct cs with hplain | ⟨w, c, ds, rfl, hw, hc⟩
    · exfalso
      apply hcs
      intro c hmem hpunct
      rw [hplain c hmem] at hpunct
      cases hpunct
    · rw [encode_append, length_append] at hn
      by_cases hne : w = []
      · subst hne
        rw [nil_append, splitPunct_punct hc]
        by_cases hone : c.utf8Size = 1
        · obtain ⟨-, hdrop⟩ := @encode_one c ds hone
          have hle : (encode ds).length ≤ n := by
            rw [encode_cons, length_append, String.length_utf8EncodeChar, hone] at hn
            omega
          obtain ⟨w, hmem, hinvalid⟩ := ih hle fun h => hcs fun d hd hpunct => by
            rcases mem_cons.mp hd with rfl | hd
            · exact hone
            · exact h d hd hpunct
          rw [hdrop]
          exact ⟨w, mem_cons_of_mem _ hmem, hinvalid⟩
        · exact ⟨_, mem_cons_self, not_valid_first hone ds⟩
      · have hpos := length_encode_pos hne
        obtain ⟨v, hmem, hinvalid⟩ := @ih (c :: ds) (by omega) fun h =>
          hcs fun d hd hpunct => by
            rcases mem_append.mp hd with hd | hd
            · rw [hw d hd] at hpunct
              cases hpunct
            · exact h d hd hpunct
        rw [splitPunct_before hw hne hc]
        exact ⟨v, mem_cons_of_mem _ hmem, hinvalid⟩

/-! ## §4  The fields of a text -/

structure IsField (v : List Char) : Prop where
  nonempty : v ≠ []
  solid : Solid v
  alone : ∀ c ∈ v, isCJK c = true → v = [c]

theorem not_isSpace_of_isCJK (h : isCJK c = true) : isSpace c = false := by
  unfold isCJK at h
  unfold isSpace
  simp only [Bool.or_eq_true, Bool.and_eq_true, decide_eq_true_eq] at h
  have hlarge : ¬ c.toNat ≤ 0xff := by omega
  rw [if_neg hlarge]
  simp only [Bool.or_eq_false_iff, Bool.and_eq_false_iff, beq_eq_false_iff_ne,
    decide_eq_false_iff_not]
  omega

theorem solid_singleton (h : isSpace c = false) : Solid [c] :=
  forall_mem_singleton.mpr h

/-- The fields of a text, after a beginning of one. -/
theorem fields_spaced (cs : List Char) : ∀ w : List Char, Solid w → (∀ c ∈ w, isCJK c = false) →
    ∃ vs : List (List Char), fields (encode (w ++ cs.flatMap spaced)) = vs.map encode ∧
      vs.flatten = w ++ visible cs ∧ ∀ v ∈ vs, IsField v := by
  have hspace : isSpace ' ' = true := by decide
  have hfield : ∀ w : List Char, Solid w → (∀ c ∈ w, isCJK c = false) → w ≠ [] → IsField w :=
    fun w hw hcjk hne => ⟨hne, hw, fun c hc h => absurd h (Bool.eq_false_iff.mp (hcjk c hc))⟩
  -- white space ends the beginning of a field
  have hend : ∀ (w rest : List Char) (d : Char), Solid w → (∀ c ∈ w, isCJK c = false) →
      isSpace d = true → ∀ vs : List (List Char), fields (encode rest) = vs.map encode →
      (∀ v ∈ vs, IsField v) → ∃ us : List (List Char), fields (encode (w ++ d :: rest)) = us.map encode ∧ us.flatten = w ++ vs.flatten ∧
        ∀ v ∈ us, IsField v := by
    intro w rest d hw hcjk hd vs hvs hall
    by_cases hne : w = []
    · subst hne
      exact ⟨vs, by rw [nil_append, fields_space hd, hvs], rfl, hall⟩
    · refine ⟨w :: vs, ?_, rfl, forall_mem_cons.mpr ⟨hfield w hw hcjk hne, hall⟩⟩
      rw [fields_word_append hw hne hd, hvs, map_cons]
  induction cs with
  | nil =>
    intro w hw hcjk
    rw [flatMap_nil, append_nil, visible_nil, append_nil]
    by_cases hne : w = []
    · subst hne
      exact ⟨[], rfl, rfl, forall_mem_nil _⟩
    · exact ⟨[w], fields_word hw hne, flatten_singleton,
        forall_mem_singleton.mpr (hfield w hw hcjk hne)⟩
  | cons c cs ih =>
    intro w hw hcjk
    obtain ⟨vs, hvs, hflat, hall⟩ := ih [] (forall_mem_nil _) (forall_mem_nil _)
    rw [nil_append] at hvs hflat
    rw [flatMap_cons, spaced]
    cases hc : isCJK c with
    | true =>
      have hsolid := not_isSpace_of_isCJK hc
      have hone : IsField [c] := by
        refine ⟨cons_ne_nil _ _, solid_singleton hsolid, ?_⟩
        intro d hd _
        rw [mem_singleton.mp hd]
      obtain ⟨us, hus, huflat, hu⟩ := hend w (c :: ' ' :: cs.flatMap spaced) ' ' hw hcjk hspace
        ([c] :: vs) (by
          rw [show c :: ' ' :: cs.flatMap spaced = [c] ++ ' ' :: cs.flatMap spaced from rfl,
            fields_word_append (solid_singleton hsolid) (cons_ne_nil _ _) hspace, hvs,
            map_cons])
        (forall_mem_cons.mpr ⟨hone, hall⟩)
      refine ⟨us, hus, ?_, hu⟩
      rw [huflat, flatten_cons, hflat, visible, visible, filter_cons_of_pos (by rw [hsolid]; rfl)]
      rfl
    | false =>
      cases hs : isSpace c with
      | true =>
        obtain ⟨us, hus, huflat, hu⟩ :=
          hend w (cs.flatMap spaced) c hw hcjk hs vs hvs hall
        refine ⟨us, hus, ?_, hu⟩
        rw [huflat, hflat, visible, visible, filter_cons_of_neg (by rw [hs]; decide)]
      | false =>
        -- the field goes on
        obtain ⟨us, hus, huflat, hu⟩ := ih (w ++ [c]) (hw.append (solid_singleton hs)) (by
          intro d hd
          rcases mem_append.mp hd with hd | hd
          · exact hcjk d hd
          · rw [mem_singleton.mp hd]
            exact hc)
        refine ⟨us, ?_, ?_, hu⟩
        · rw [← hus, append_assoc]
          rfl
        · rw [huflat, visible, visible, filter_cons_of_pos (by rw [hs]; rfl), append_assoc]
          rfl

/-! ## §5  When words are cut at runes -/

/-- The words are texts, punctuation or not, without white space, ideographs on their own, and
they are what is visible. -/
def WellCut (isPunct : Char → Bool) (cs : List Char) : Prop :=
  ∃ ws : List (List Char), words isPunct (encode cs) = ws.map encode ∧ ws.flatten = visible cs ∧
    ∀ w ∈ ws, Word isPunct w ∧ IsField w

theorem words_encode (isPunct : Char → Bool) (cs : List Char) :
    words isPunct (encode cs) = (fields (encode (cs.flatMap spaced))).flatMap fun w =>
      splitPunct isPunct w.length w := by
  unfold words
  rw [runeBytes_encode, flatMap_map]
  rfl

/-- A part of a field is one. -/
theorem IsField.part {v w : List Char} {ws : List (List Char)} (hv : IsField v)
    (hflat : ws.flatten = v) (hw : w ∈ ws) (hne : w ≠ []) : IsField w := by
  have hmem : ∀ c ∈ w, c ∈ v := fun c hc => hflat ▸ mem_flatten.mpr ⟨w, hw, hc⟩
  refine ⟨hne, fun c hc => hv.solid c (hmem c hc), ?_⟩
  intro c hc hcjk
  have hlen : w.length ≤ v.length := by
    rw [← hflat]
    exact (sublist_flatten_of_mem hw).length_le
  rw [hv.alone c (hmem c hc) hcjk, length_singleton] at hlen
  obtain ⟨d, ds, rfl⟩ := exists_cons_of_ne_nil hne
  obtain rfl : ds = [] := eq_nil_of_length_eq_zero (Nat.le_zero.mp (Nat.le_of_succ_le_succ hlen))
  rw [mem_singleton.mp hc]

/-- Fields whose punctuation is narrow. -/
theorem splitPunct_fields {vs : List (List Char)} (hvs : ∀ v ∈ vs, IsField v)
    (hnarrow : NarrowPunct isPunct vs.flatten) :
    ∃ ws : List (List Char), ((vs.map encode).flatMap fun w => splitPunct isPunct w.length w) =
      ws.map encode ∧ ws.flatten = vs.flatten ∧ ∀ w ∈ ws, Word isPunct w ∧ IsField w := by
  induction vs with
  | nil => exact ⟨[], rfl, rfl, forall_mem_nil _⟩
  | cons v vs ih =>
    obtain ⟨us, hus, huflat, hword⟩ := splitPunct_narrow (encode v).length le_rfl
      fun c hc => hnarrow c (mem_append_left _ hc)
    obtain ⟨ws, hws, hflat, hall⟩ := ih (fun u hu => hvs u (mem_cons_of_mem _ hu))
      fun c hc => hnarrow c (mem_append_right _ hc)
    refine ⟨us ++ ws, ?_, ?_, ?_⟩
    · rw [map_cons, flatMap_cons, hus, hws, map_append]
    · rw [flatten_append, huflat, hflat, flatten_cons]
    · intro w hw
      rcases mem_append.mp hw with hw | hw
      · exact ⟨hword w hw, (hvs v mem_cons_self).part huflat hw (hword w hw).1⟩
      · exact hall w hw

/-- **Words are cut at runes exactly when** every visible punctuation character of the text is
one byte. -/
theorem wellCut_iff (isPunct : Char → Bool) (cs : List Char) :
    WellCut isPunct cs ↔ ∀ c ∈ cs, isPunct c = true → isSpace c = false → c.utf8Size = 1 := by
  have hvisible : (∀ c ∈ cs, isPunct c = true → isSpace c = false → c.utf8Size = 1) ↔
      NarrowPunct isPunct (visible cs) := by
    constructor
    · intro h c hc hpunct
      obtain ⟨hmem, hsolid⟩ := mem_filter.mp hc
      exact h c hmem hpunct ((Bool.not_eq_true' _).mp hsolid)
    · intro h c hc hpunct hsolid
      exact h c (mem_filter.mpr ⟨hc, (Bool.not_eq_true' _).mpr hsolid⟩) hpunct
  obtain ⟨vs, hvs, hflat, hfield⟩ :=
    fields_spaced cs [] (forall_mem_nil _) (forall_mem_nil _)
  rw [nil_append] at hvs hflat
  rw [hvisible]
  unfold WellCut
  rw [words_encode, hvs, ← hflat]
  constructor
  · rintro ⟨ws, hws, -, -⟩
    by_contra hwide
    -- a field with wide punctuation has a word that is no text
    obtain ⟨v, hv, hvwide⟩ : ∃ v ∈ vs, ¬ NarrowPunct isPunct v := by
      by_contra hall
      apply hwide
      intro c hc hpunct
      obtain ⟨v, hv, hcv⟩ := mem_flatten.mp hc
      by_contra hone
      exact hall ⟨v, hv, fun h => hone (h c hcv hpunct)⟩
    obtain ⟨w, hw, hinvalid⟩ := splitPunct_wide (encode v).length le_rfl hvwide
    have hmem : w ∈ ws.map encode := by
      rw [← hws]
      exact mem_flatMap.mpr ⟨encode v, mem_map.mpr ⟨v, hv, rfl⟩, hw⟩
    obtain ⟨u, -, rfl⟩ := mem_map.mp hmem
    exact hinvalid ⟨u, rfl⟩
  · exact splitPunct_fields hfield

/-- Some of the punctuation of `unicode.IsPunct`. -/
def quotes (r : Char) : Bool := ['!', '"', '\'', ',', '.', '?', '“', '”'].contains r

/-- A quotation mark of three bytes is cut after the first one. -/
theorem not_wellCut_quoted : ¬ WellCut quotes "“hi”".toList := by
  rintro ⟨ws, hws, -, -⟩
  have hmem : [0xe2] ∈ ws.map encode := by
    rw [← hws]
    decide +kernel
  obtain ⟨w, -, hw⟩ := mem_map.mp hmem
  have hinvalid : ¬ Valid ((encode "“hi”".toList).take 1) :=
    not_valid_first (c := '“') (by decide) "hi”".toList
  exact hinvalid ⟨w, by rw [hw]; decide +kernel⟩

end Ollama.Tokenizer
