import Ollama.Tokenizer.Merging

/-!
# Byte-level byte pair encoding

`model/bytepairencoding.go`: the text outside special tokens is split, the bytes
of a piece are mapped to runes that can stand in a vocabulary, and the runes are
merged by rank.
-/

namespace Ollama.Tokenizer

open Lib Lib.Utf8 List

/-! ## §1  The bytes -/

/-- The rune that stands for a byte. -/
def mapByte (b : UInt8) : Char :=
  let r := b.toNat
  if r = 0x00ad then Char.ofNat 0x0143
  else if r ≤ 0x0020 then Char.ofNat (r + 0x0100)
  else if 0x007f ≤ r ∧ r ≤ 0x00a0 then Char.ofNat (r + 0x00a2)
  else Char.ofNat r

/-- What `Decode` writes for a rune; nothing for the one that stands for NUL. -/
def unmapRune (c : Char) : Str :=
  let r := c.toNat
  if r = 0x0100 then []
  else if r = 0x0143 then [0xad]
  else if 0x0100 < r ∧ r ≤ 0x0120 then [UInt8.ofNat (r - 0x0100)]
  else if 0x0120 < r ∧ r ≤ 0x0142 then [UInt8.ofNat (r - 0x00a2)]
  else if 0x0143 < r then (if r = 0x2581 then [0x20] else encode [c])
  else [UInt8.ofNat r]

/-- `spmWhitespaceSep`, the bytes of U+2581. -/
def spmWhitespaceSep : Str := [0xe2, 0x96, 0x81]

/-- `strings.ReplaceAll(s, " ", spmWhitespaceSep)` -/
def replaceSpaces (s : Str) : Str := s.flatMap fun b => if b = 0x20 then spmWhitespaceSep else [b]

/-- A digit of `%X`. -/
def hexDigit (n : ℕ) : UInt8 := UInt8.ofNat (if n < 10 then 0x30 + n else 0x41 + (n - 10))

/-- `fmt.Sprintf("<0x%02X>", b)` -/
def byteToken (b : UInt8) : Str :=
  [0x3c, 0x30, 0x78, hexDigit (b.toNat / 16), hexDigit (b.toNat % 16), 0x3e]

def hexValue (b : UInt8) : Option ℕ :=
  let n := b.toNat
  if 0x30 ≤ n ∧ n ≤ 0x39 then some (n - 0x30)
  else if 0x41 ≤ n ∧ n ≤ 0x46 then some (n - 0x41 + 10)
  else if 0x61 ≤ n ∧ n ≤ 0x66 then some (n - 0x61 + 10)
  else none

def byteSpelling : Str → Option (UInt8 × UInt8)
  | [c₀, c₁, c₂, h, l, c₅] =>
      if c₀ = 0x3c ∧ c₁ = 0x30 ∧ c₂ = 0x78 ∧ c₅ = 0x3e then some (h, l) else none
  | _ => none

/-! ## §2  `Encode` -/

structure BytePairEncoding (σ : Type) where
  vocab : Vocabulary σ
  regexps : List Regexp
  spaceToSpmSep : Bool

/-- `pair` -/
structure RankedPair where
  a : ℕ
  b : ℕ
  rank : ℕ
  value : Str
deriving DecidableEq

namespace BytePairEncoding

variable {σ : Type} (bpe : BytePairEncoding σ)

/-- A pair is queued when the merge table has it; it is merged when the strings
are still the same and the vocabulary has the result. -/
def rules : MergeRules RankedPair where
  a := RankedPair.a
  b := RankedPair.b
  pairwise i j left right := (bpe.vocab.merge left right).map fun rank =>
    ⟨i, j, rank, left ++ right⟩
  fresh e left right := decide (left ++ right = e.value) && (bpe.vocab.encode e.value).isSome
  pairwise_a := by
    intro i j l r e h
    obtain ⟨rank, _, rfl⟩ := Option.map_eq_some_iff.mp h
    rfl
  pairwise_b := by
    intro i j l r e h
    obtain ⟨rank, _, rfl⟩ := Option.map_eq_some_iff.mp h
    rfl

variable (heap : Heap RankedPair.rank)

def normalize (piece : Str) : Str :=
  if bpe.spaceToSpmSep then replaceSpaces piece else piece.flatMap fun b => encode [mapByte b]

/-- The ids of the runes that have been merged into one node. -/
def encodeGroup (group : List Char) : List ℕ :=
  if group = [] then []
  else
    match bpe.vocab.encode (encode group) with
    | some id => [id]
    | none =>
        if bpe.spaceToSpmSep then
          (encode group).flatMap fun b => (bpe.vocab.encode (byteToken b)).toList
        else []

/-- The ids of a piece of the text. -/
def encodePiece (piece : Str) : Option (List ℕ) :=
  let normalized := bpe.normalize piece
  match bpe.vocab.encode normalized with
  | some id => some [id]
  | none =>
      (mergeRunes bpe.rules heap (runes normalized)).map fun groups =>
        groups.flatMap bpe.encodeGroup

def encodeFragment (frag : Fragment) : Option (List ℕ) :=
  if frag.ids ≠ [] then some frag.ids
  else ((split bpe.regexps frag.value).mapM (bpe.encodePiece heap)).map List.flatten

/-- `Encode`; `none` when the code does not return. -/
def encode (s : Str) (addSpecial : Bool) : Option (List ℕ) := do
  let frags ← cutSpecials bpe.vocab s
  let ids ← frags.mapM (bpe.encodeFragment heap)
  if addSpecial then bpe.vocab.addSpecials ids.flatten else some ids.flatten

/-! ## §3  `Decode` -/

/-- What `Decode` writes for a token. -/
def decodeToken (data : Str) : Str :=
  if bpe.spaceToSpmSep then
    match byteSpelling data with
    | some (h, l) =>
        match hexValue h, hexValue l with
        | some h, some l => [UInt8.ofNat (16 * h + l)]
        | _, _ => (runes data).flatMap fun c =>
            if c.toNat = 0x2581 then [0x20] else Utf8.encode [c]
    | none => (runes data).flatMap fun c => if c.toNat = 0x2581 then [0x20] else Utf8.encode [c]
  else (runes data).flatMap unmapRune

/-- `Decode` -/
def decode (ids : List ℕ) : Str := ids.flatMap fun id => bpe.decodeToken (bpe.vocab.decode id)

end BytePairEncoding

/-! ## §4  The bytes come back -/

theorem forall_byte {P : UInt8 → Prop} (h : ∀ n < 256, P (UInt8.ofNat n)) (b : UInt8) : P b := by
  have := h b.toNat b.toNat_lt
  rwa [UInt8.ofNat_toNat] at this

theorem unmapRune_mapByte (b : UInt8) : b ≠ 0 → unmapRune (mapByte b) = [b] :=
  forall_byte (P := fun b => b ≠ 0 → unmapRune (mapByte b) = [b]) (by decide +kernel) b

theorem ascii_byte (b : UInt8) : b < 0x80 →
    String.utf8EncodeChar (Char.ofNat b.toNat) = [b] ∧ unmapRune (Char.ofNat b.toNat) = [b] :=
  forall_byte (P := fun b => b < 0x80 → String.utf8EncodeChar (Char.ofNat b.toNat) = [b] ∧
    unmapRune (Char.ofNat b.toNat) = [b]) (by decide +kernel) b

theorem flatMap_unmapRune_map {piece : Str} (h : (0 : UInt8) ∉ piece) :
    (piece.map mapByte).flatMap unmapRune = piece := by
  induction piece with
  | nil => rfl
  | cons b piece ih =>
    rw [map_cons, flatMap_cons, ih fun hb => h (mem_cons_of_mem _ hb),
      unmapRune_mapByte b fun hb => h (hb ▸ mem_cons_self)]
    rfl

theorem flatMap_encode_mapByte (piece : Str) :
    (piece.flatMap fun b => encode [mapByte b]) = encode (piece.map mapByte) := by
  induction piece with
  | nil => rfl
  | cons b piece ih => rw [flatMap_cons, ih, map_cons, ← encode_append]; rfl

theorem runes_ascii {t : Str} (h : ∀ b ∈ t, b < 0x80) : (runes t).flatMap unmapRune = t := by
  have hencode : t = encode (t.map fun b => Char.ofNat b.toNat) := by
    induction t with
    | nil => rfl
    | cons b t ih =>
      rw [map_cons, encode_cons, (ascii_byte b (h b mem_cons_self)).1,
        ← ih fun x hx => h x (mem_cons_of_mem _ hx)]
      rfl
  have hunmap : (t.map fun b => Char.ofNat b.toNat).flatMap unmapRune = t := by
    clear hencode
    induction t with
    | nil => rfl
    | cons b t ih =>
      rw [map_cons, flatMap_cons, (ascii_byte b (h b mem_cons_self)).2,
        ih fun x hx => h x (mem_cons_of_mem _ hx)]
      rfl
  rw [hencode, runes_encode, hunmap, ← hencode]

/-! ## §5  The text comes back -/

/-- Parts that come back one by one come back together. -/
theorem mapM_decoded {α : Type} {f : α → Option (List ℕ)} {dec : ℕ → Str} {text : α → Str}
    {l : List α} (h : ∀ x ∈ l, ∃ ids, f x = some ids ∧ ids.flatMap dec = text x) :
    ∃ idss, l.mapM f = some idss ∧ idss.flatten.flatMap dec = l.flatMap text := by
  induction l with
  | nil => exact ⟨[], rfl, rfl⟩
  | cons x l ih =>
    obtain ⟨ids, hids, htext⟩ := h x mem_cons_self
    obtain ⟨idss, hidss, hrest⟩ := ih fun y hy => h y (mem_cons_of_mem _ hy)
    refine ⟨ids :: idss, ?_, ?_⟩
    · rw [mapM_cons, hids, hidss]
      rfl
    · rw [flatten_cons, flatMap_append, htext, hrest, flatMap_cons]

namespace BytePairEncoding

variable {σ : Type} {bpe : BytePairEncoding σ} {heap : Heap RankedPair.rank}

/-- A piece comes back. -/
theorem decode_encodePiece (hmode : bpe.spaceToSpmSep = false)
    (hbytes : ∀ b, Utf8.encode [mapByte b] ∈ bpe.vocab.values) {piece : Str}
    (hnul : (0 : UInt8) ∉ piece) :
    ∃ ids, bpe.encodePiece heap piece = some ids ∧ bpe.decode ids = piece := by
  have hnorm : bpe.normalize piece = Utf8.encode (piece.map mapByte) := by
    unfold normalize
    rw [hmode]
    exact flatMap_encode_mapByte piece
  have hdecode : ∀ data, bpe.decodeToken data = (runes data).flatMap unmapRune := by
    intro data
    unfold decodeToken
    rw [hmode]
    rfl
  unfold encodePiece
  simp only
  rw [hnorm, runes_encode]
  cases hid : bpe.vocab.encode (Utf8.encode (piece.map mapByte)) with
  | some id =>
    refine ⟨[id], rfl, ?_⟩
    rw [decode, flatMap_singleton, Vocabulary.decode_of_encode hid, hdecode, runes_encode,
      flatMap_unmapRune_map hnul]
  | none =>
    obtain ⟨groups, hrun, htext, hgroups⟩ := @mergeRunes_spec _ _ _ _ bpe.rules heap
      (fun s => ∃ id, bpe.vocab.encode s = some id) (by
        intro e l r h
        obtain ⟨heq, hsome⟩ := Bool.and_eq_true_iff.mp h
        rw [of_decide_eq_true heq]
        exact Option.isSome_iff_exists.mp hsome) (piece.map mapByte)
    refine ⟨_, by rw [hrun]; rfl, ?_⟩
    -- every group is in the vocabulary: single runes stand for bytes
    have hgroup : ∀ g ∈ groups, bpe.decode (bpe.encodeGroup g) = g.flatMap unmapRune := by
      intro g hg
      by_cases hnil : g = []
      · rw [encodeGroup, if_pos hnil, hnil]
        rfl
      have hid : ∃ id, bpe.vocab.encode (Utf8.encode g) = some id := by
        rcases hgroups g hg with hle | hgood
        · obtain ⟨c, hc⟩ : ∃ c, g = [c] :=
            length_eq_one_iff.mp (Nat.le_antisymm hle (length_pos_iff.mpr hnil))
          have hmem : c ∈ piece.map mapByte := by
            rw [← htext]
            exact mem_flatten.mpr ⟨g, hg, hc ▸ mem_cons_self⟩
          obtain ⟨b, _, rfl⟩ := mem_map.mp hmem
          rw [hc]
          exact Vocabulary.exists_encode (hbytes b)
        · exact hgood
      obtain ⟨id, hid⟩ := hid
      rw [encodeGroup, if_neg hnil, hid]
      rw [decode, flatMap_singleton, Vocabulary.decode_of_encode hid, hdecode, runes_encode]
    have hall : bpe.decode (groups.flatMap bpe.encodeGroup) = groups.flatten.flatMap unmapRune := by
      clear htext hrun hgroups
      induction groups with
      | nil => rfl
      | cons g groups ih =>
        have htail := ih fun g' hg' => hgroup g' (mem_cons_of_mem _ hg')
        have hhead := hgroup g mem_cons_self
        unfold decode at hhead htail ⊢
        rw [flatMap_cons, flatMap_append, hhead, htail, flatten_cons, flatMap_append]
    rw [hall, htext, flatMap_unmapRune_map hnul]

theorem infix_textOf {frags : List Fragment} {f : Fragment} (hf : f ∈ frags) :
    f.value <:+: textOf frags := by
  obtain ⟨front, back, rfl⟩ := append_of_mem hf
  rw [textOf_append, textOf_cons]
  exact ⟨textOf front, textOf back, (append_assoc _ _ _)⟩

/-- A vocabulary of the bytes, a special token "<s>" and the token "ab". -/
def sampleVocabulary : Vocabulary ℕ where
  values := ((List.range 256).map fun n => Utf8.encode [mapByte (UInt8.ofNat n)]) ++
    [[0x3c, 0x73, 0x3e], Utf8.encode ['a', 'b']]
  types := List.replicate 256 tokenTypeNormal ++ [tokenTypeControl, tokenTypeNormal]
  scores := []
  merges := [[0x61, 0x20, 0x62]]
  utf8 := by
    intro v hv
    rcases mem_append.mp hv with hv | hv
    · obtain ⟨n, _, rfl⟩ := mem_map.mp hv
      exact valid_encode _
    · rcases mem_cons.mp hv with rfl | hv
      · exact valid_encode ['<', 's', '>']
      · rw [mem_singleton.mp hv]
        exact valid_encode _
  types_length := by decide +kernel

def sample : BytePairEncoding ℕ := ⟨sampleVocabulary, [], false⟩

theorem sample_bytes (b : UInt8) : Utf8.encode [mapByte b] ∈ sample.vocab.values := by
  refine mem_append_left _ (mem_map.mpr ⟨b.toNat, mem_range.mpr b.toNat_lt, ?_⟩)
  rw [UInt8.ofNat_toNat]

end BytePairEncoding

end Ollama.Tokenizer
