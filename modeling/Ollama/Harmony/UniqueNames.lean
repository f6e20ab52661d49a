import Ollama.Harmony.FunctionNames

/-!
# Names that map back

Calls of `ConvertAndAdd` one after the other (`harmony/harmonyparser.go`): when the harmony names
are distinct identifiers that map back to the names of the user. A built-in name skips the search
for a free one, and only an ASCII digit is kept from the beginning of a name.
-/

namespace Ollama.Harmony

open Lib Parsers Bytes Utf8 List

/-! ## §1  Calls -/

variable (unicode : Unicode)

def convertAll : FunctionNameMap → List Bytes → List Bytes × FunctionNameMap
  | m, [] => ([], m)
  | m, name :: names =>
      let (harmonyName, m) := m.convertAndAdd unicode name
      let (harmonyNames, m) := convertAll m names
      (harmonyName :: harmonyNames, m)

def identStart (c : Char) : Prop := unicode.isLetter c = true ∨ c = '_' ∨ c = '$'

def identPart (c : Char) : Prop := identStart unicode c ∨ unicode.isDigit c = true

def Identifier (name : Bytes) : Prop :=
  ∃ c cs, name = encode (c :: cs) ∧ identStart unicode c ∧ ∀ d ∈ cs, identPart unicode d

/-- The harmony names are distinct identifiers or built-in, and map back. -/
def MapsBack (names : List Bytes) : Prop :=
  (convertAll unicode [] names).1.Nodup ∧ (∀ harmonyName ∈ (convertAll unicode [] names).1,
      harmonyName ∉ builtins → Identifier unicode harmonyName) ∧
    ∀ p ∈ names.zip (convertAll unicode [] names).1,
      (convertAll unicode [] names).2.originalFromConverted p.2 = p.1

/-- The built-in name `python` does not come after a name that is cleaned to it. -/
def PythonFirst (names : List Bytes) : Prop :=
  ∀ before after, names = before ++ lit "python" :: after →
    ∀ name ∈ before, convertToValidChars unicode name ≠ lit "python"

def kept (name : Bytes) : List Char :=
  (runeBytes name).filterMap fun r => validChar unicode r.1

/-- No name that is not built-in begins with a digit outside ASCII, once cleaned. -/
def AsciiDigits (names : List Bytes) : Prop :=
  ∀ name ∈ names, name ∉ builtins →
    ∀ c ∈ (kept unicode name).head?, unicode.isDigit c = true → c.toNat < 0x80

/-- Letters and digits: those of ASCII, no digit in the rest of Latin-1, none both. -/
structure Latin (unicode : Unicode) : Prop where
  letter : ∀ c : Char, c.isAlpha = true → unicode.isLetter c = true
  digit : ∀ c : Char, c.isDigit = true → unicode.isDigit c = true
  digits : ∀ n, 0x80 ≤ n → n < 0x100 → unicode.isDigit (Char.ofNat n) = false
  disjoint : ∀ c, unicode.isDigit c = true → unicode.isLetter c = false

/-! ## §2  Identifiers -/

variable {unicode}

theorem identPart_of_validChar {r c : Char} (h : validChar unicode r = some c) :
    identPart unicode c := by
  unfold validChar at h
  split at h
  · obtain rfl := Option.some.inj h
    exact .inl (.inr (.inl rfl))
  split at h
  · next hr =>
    obtain rfl := Option.some.inj h
    rw [Bool.or_eq_true, Bool.or_eq_true, Bool.or_eq_true, decide_eq_true_eq,
      decide_eq_true_eq] at hr
    rcases hr with ((hletter | hdigit) | hunderscore) | hdollar
    · exact .inl (.inl hletter)
    · exact .inr hdigit
    · exact .inl (.inr (.inl hunderscore))
    · exact .inl (.inr (.inr hdollar))
  · cases h

theorem identPart_of_kept {name : Bytes} : ∀ c ∈ kept unicode name, identPart unicode c := by
  intro c hc
  obtain ⟨r, -, hr⟩ := mem_filterMap.mp hc
  exact identPart_of_validChar hr

/-- The first byte of a character is the character in ASCII, and no digit otherwise. -/
theorem first_byte (hlatin : Latin unicode) (c : Char) :
    ∃ b rest, String.utf8EncodeChar c = b :: rest ∧ (unicode.isDigit (Char.ofNat b.toNat) = true ↔
        unicode.isDigit c = true ∧ c.toNat < 0x80) := by
  by_cases hc : c.toNat < 0x80
  · refine ⟨c.toNat.toUInt8, [], ?_, ?_⟩
    · unfold String.utf8EncodeChar
      exact if_pos (Nat.le_of_lt_succ hc)
    have hb : c.toNat.toUInt8.toNat = c.toNat := by
      show (UInt8.ofNat c.toNat).toNat = c.toNat
      rw [UInt8.toNat_ofNat']
      omega
    rw [hb, Char.ofNat_toNat]
    exact ⟨fun h => ⟨h, hc⟩, fun h => h.1⟩
  · obtain ⟨b, rest, heq, hlead, -⟩ := utf8EncodeChar_shape c
    refine ⟨b, rest, heq, ?_⟩
    have hb : 0x80 ≤ b.toNat := by
      rcases hlead with ⟨hsize, -⟩ | ⟨-, h, -⟩ | ⟨-, h, -⟩ | ⟨-, h, -⟩
      · -- more than one byte
        have hlen := congrArg List.length heq
        rw [length_cons, hsize, String.length_utf8EncodeChar] at hlen
        have := Char.utf8Size_eq_one_iff.mp hlen
        exact absurd (UInt32.le_iff_toNat_le.mp this) (Nat.not_le.mpr (Nat.not_lt.mp hc))
      all_goals omega
    rw [hlatin.digits b.toNat hb b.toNat_lt]
    exact ⟨fun h => Bool.noConfusion h, fun h => absurd h.2 hc⟩

def cleaned (unicode : Unicode) : List Char → List Char
  | [] => "unnamed".toList
  | c :: cs =>
      if unicode.isDigit c = true ∧ c.toNat < 0x80 then '_' :: c :: cs else c :: cs

theorem convertToValidChars_eq (hlatin : Latin unicode) (name : Bytes) :
    convertToValidChars unicode name = encode (cleaned unicode (kept unicode name)) := by
  unfold convertToValidChars
  dsimp only
  rw [← kept]
  cases kept unicode name with
  | nil => rfl
  | cons c cs =>
    obtain ⟨b, rest, hc, hdigit⟩ := first_byte hlatin c
    have hencode : encode (c :: cs) = b :: (rest ++ encode cs) := by
      show String.utf8EncodeChar c ++ encode cs = _
      rw [hc]
      rfl
    rw [hencode, cleaned]
    dsimp only
    by_cases h : unicode.isDigit c = true ∧ c.toNat < 0x80
    · rw [if_pos (hdigit.mpr h), if_pos h]
      show _ = String.utf8EncodeChar '_' ++ encode (c :: cs)
      rw [hencode]
      rfl
    · rw [if_neg (mt hdigit.mp h), if_neg h, hencode]

theorem identPart_of_cleaned (hlatin : Latin unicode) (name : Bytes) :
    ∀ c ∈ cleaned unicode (kept unicode name), identPart unicode c := by
  have hkept := @identPart_of_kept unicode name
  intro c hc
  cases hname : kept unicode name with
  | nil =>
    rw [hname] at hc
    have halpha : "unnamed".toList.all Char.isAlpha = true := by decide
    exact .inl (.inl (hlatin.letter c (all_eq_true.mp halpha c hc)))
  | cons d ds =>
    rw [hname] at hc hkept
    rw [cleaned] at hc
    split at hc
    · rcases mem_cons.mp hc with rfl | hc
      · exact .inl (.inr (.inl rfl))
      · exact hkept c hc
    · exact hkept c hc

/-- The characters that `deriveName` adds. -/
def suffix : ℕ → List Char
  | 0 => []
  | k + 1 => '_' :: (toString (k + 2)).toList

theorem numbered_encode (cs : List Char) (k : ℕ) :
    numbered (encode cs) k = encode (cs ++ suffix k) := by
  cases k with
  | zero => rw [suffix, append_nil, numbered]
  | succ k =>
    rw [suffix, numbered, encode_append, append_assoc]
    rfl

theorem isDigit_of_mem_toString {n : ℕ} {c : Char} (h : c ∈ (toString n).toList) :
    c.isDigit = true :=
  Nat.isDigit_of_mem_toDigits (b := 10) (by decide) (by decide) (by simpa using h)

theorem identPart_of_suffix (hlatin : Latin unicode) (k : ℕ) :
    ∀ c ∈ suffix k, identPart unicode c := by
  intro c hc
  cases k with
  | zero => exact absurd hc not_mem_nil
  | succ k =>
    rcases mem_cons.mp hc with rfl | hc
    · exact .inl (.inr (.inl rfl))
    · exact .inr (hlatin.digit c (isDigit_of_mem_toString hc))

def DigitFirst (unicode : Unicode) (name : Bytes) : Prop :=
  ∃ c ∈ (kept unicode name).head?, unicode.isDigit c = true ∧ 0x80 ≤ c.toNat

/-- A cleaned name has a first character, and an identifier begins with it unless a digit does. -/
theorem cleaned_head (hlatin : Latin unicode) (name : Bytes) :
    ∃ c cs, cleaned unicode (kept unicode name) = c :: cs ∧ (identStart unicode c ∨
        DigitFirst unicode name ∧ unicode.isDigit c = true ∧ 0x80 ≤ c.toNat) := by
  have hkept := @identPart_of_kept unicode name
  unfold DigitFirst
  cases hname : kept unicode name with
  | nil =>
    refine ⟨'u', "nnamed".toList, ?_, .inl (.inl (hlatin.letter 'u' (by decide)))⟩
    rw [cleaned]
    decide
  | cons c cs =>
    rw [cleaned]
    by_cases h : unicode.isDigit c = true ∧ c.toNat < 0x80
    · rw [if_pos h]
      exact ⟨'_', c :: cs, rfl, .inl (.inr (.inl rfl))⟩
    rw [if_neg h]
    refine ⟨c, cs, rfl, ?_⟩
    rw [hname] at hkept
    rcases hkept c mem_cons_self with hstart | hdigit
    · exact .inl hstart
    · have hc := Nat.not_lt.mp fun hc => h ⟨hdigit, hc⟩
      exact .inr ⟨⟨c, rfl, hdigit, hc⟩, hdigit, hc⟩

theorem identifier_numbered (hlatin : Latin unicode) {name : Bytes}
    (hname : ¬ DigitFirst unicode name) (k : ℕ) :
    Identifier unicode (numbered (convertToValidChars unicode name) k) := by
  have hcleaned := identPart_of_cleaned hlatin name
  obtain ⟨c, cs, hcs, hhead⟩ := cleaned_head hlatin name
  rw [convertToValidChars_eq hlatin, numbered_encode, hcs]
  rw [hcs] at hcleaned
  refine ⟨c, cs ++ suffix k, rfl, hhead.resolve_right fun h => hname h.1, ?_⟩
  intro d hd
  rcases mem_append.mp hd with hd | hd
  · exact hcleaned d (mem_cons_of_mem _ hd)
  · exact identPart_of_suffix hlatin k d hd

theorem cleaned_of_digitFirst {name : Bytes} (hname : DigitFirst unicode name) :
    ∃ c cs, cleaned unicode (kept unicode name) = c :: cs ∧
      unicode.isDigit c = true ∧ 0x80 ≤ c.toNat := by
  obtain ⟨c, hc, hdigit, hlarge⟩ := hname
  cases hkept : kept unicode name with
  | nil =>
    rw [hkept] at hc
    cases hc
  | cons d ds =>
    rw [hkept] at hc
    obtain rfl := Option.some.inj hc
    refine ⟨d, ds, ?_, hdigit, hlarge⟩
    rw [cleaned, if_neg fun h => Nat.not_lt.mpr hlarge h.2]

theorem not_identifier_numbered (hlatin : Latin unicode) {name : Bytes}
    (hname : DigitFirst unicode name) (k : ℕ) :
    ¬ Identifier unicode (numbered (convertToValidChars unicode name) k) := by
  obtain ⟨c, cs, hcs, hdigit, hlarge⟩ := cleaned_of_digitFirst hname
  rw [convertToValidChars_eq hlatin, numbered_encode, hcs]
  rintro ⟨d, ds, heq, hstart, -⟩
  obtain ⟨rfl, -⟩ := List.cons.inj (encode_injective heq)
  rcases hstart with hletter | rfl | rfl
  · rw [hlatin.disjoint c hdigit] at hletter
    cases hletter
  · exact absurd hlarge (by decide)
  · exact absurd hlarge (by decide)

/-! ## §3  Distinct names -/

theorem validChar_ne_dot {r c : Char} (h : validChar unicode r = some c) : c ≠ '.' := by
  rintro rfl
  unfold validChar at h
  split at h
  · exact absurd (Option.some.inj h) (by decide)
  · next hr =>
    split at h
    · exact hr (.inr (.inr (Option.some.inj h)))
    · cases h

theorem dot_notMem_numbered (hlatin : Latin unicode) (name : Bytes) (k : ℕ) {cs : List Char}
    (h : numbered (convertToValidChars unicode name) k = encode cs) : '.' ∉ cs := by
  rw [convertToValidChars_eq hlatin, numbered_encode] at h
  rw [← encode_injective h]
  intro hdot
  rcases mem_append.mp hdot with hdot | hdot
  · have hkept : '.' ∉ kept unicode name := by
      intro hmem
      obtain ⟨r, -, hr⟩ := mem_filterMap.mp hmem
      exact validChar_ne_dot hr rfl
    cases hname : kept unicode name with
    | nil =>
      rw [hname, cleaned] at hdot
      exact absurd hdot (by decide)
    | cons d ds =>
      rw [hname, cleaned] at hdot
      rw [hname] at hkept
      split at hdot
      · exact hkept ((mem_cons.mp hdot).resolve_left (by decide))
      · exact hkept hdot
  · cases k with
    | zero => exact absurd hdot not_mem_nil
    | succ k =>
      rcases mem_cons.mp hdot with hdot | hdot
      · exact absurd hdot (by decide)
      · exact absurd (isDigit_of_mem_toString hdot) (by decide)

/-- The only built-in name that a derived name can be is `python`, without a number. -/
theorem numbered_builtin (hlatin : Latin unicode) {name : Bytes} {k : ℕ}
    (h : numbered (convertToValidChars unicode name) k ∈ builtins) :
    numbered (convertToValidChars unicode name) k = lit "python" ∧
      convertToValidChars unicode name = lit "python" := by
  have hdot := fun cs => @dot_notMem_numbered unicode hlatin name k cs
  rcases mem_cons.mp h with h | h
  · exact absurd (by decide) (hdot _ h)
  rcases mem_cons.mp h with h | h
  · exact absurd (by decide) (hdot _ h)
  rcases mem_cons.mp h with h | h
  · exact absurd (by decide) (hdot _ h)
  have hpython := mem_singleton.mp h
  refine ⟨hpython, ?_⟩
  cases k with
  | zero => exact hpython
  | succ k =>
    rw [convertToValidChars_eq hlatin, numbered_encode] at hpython
    have hmem : '_' ∈ "python".toList := by
      rw [← encode_injective hpython]
      exact mem_append_right _ mem_cons_self
    exact absurd hmem (by decide)

variable (m : FunctionNameMap)

theorem freeName_numbered (original : Bytes) (n k : ℕ) :
    ∃ j, freeName m original n k = numbered original j := by
  induction n generalizing k with
  | zero => exact ⟨k, rfl⟩
  | succ n ih =>
    rw [freeName]
    split
    · exact ih (k + 1)
    · exact ⟨k, rfl⟩

theorem deriveName_of_free {m : FunctionNameMap} {name : Bytes}
    (h : convertToValidChars unicode name ∉ m.map Prod.fst) :
    deriveName unicode m name = convertToValidChars unicode name := by
  cases m with
  | nil => rfl
  | cons e m =>
    exact if_neg h

theorem convertAndAdd_fst (name : Bytes) : (m.convertAndAdd unicode name).1 =
      if name ∈ builtins then name else deriveName unicode m name := rfl

/-- The built-in names of a map were registered, or `python` was cleaned to. -/
def BuiltinKeys (unicode : Unicode) (m : FunctionNameMap) (seen : List Bytes) : Prop :=
  ∀ key ∈ m.map Prod.fst, key ∈ builtins →
    key ∈ seen ∨ key = lit "python" ∧ ∃ name ∈ seen, convertToValidChars unicode name = lit "python"

theorem BuiltinKeys.step (hlatin : Latin unicode) {m : FunctionNameMap} {seen : List Bytes}
    (h : BuiltinKeys unicode m seen) (name : Bytes) :
    BuiltinKeys unicode (m.convertAndAdd unicode name).2 (seen ++ [name]) := by
  intro key hkey hbuiltin
  have hname : name ∈ seen ++ [name] := mem_append_right _ (mem_singleton.mpr rfl)
  rw [convertAndAdd_snd, map_cons] at hkey
  rcases mem_cons.mp hkey with rfl | hkey
  · by_cases hin : name ∈ builtins
    · rw [convertAndAdd_fst, if_pos hin]
      exact .inl hname
    rw [convertAndAdd_fst, if_neg hin] at hbuiltin ⊢
    obtain ⟨k, hk⟩ := freeName_numbered m (convertToValidChars unicode name) m.length 0
    rw [deriveName, hk] at hbuiltin ⊢
    obtain ⟨hpython, hcleaned⟩ := numbered_builtin hlatin hbuiltin
    exact .inr ⟨hpython, name, hname, hcleaned⟩
  · rcases h key hkey hbuiltin with hseen | ⟨hpython, n, hn, hcleaned⟩
    · exact .inl (mem_append_left _ hseen)
    · exact .inr ⟨hpython, n, mem_append_left _ hn, hcleaned⟩

/-- A name is new among the harmony names. -/
theorem convertAndAdd_fresh {m : FunctionNameMap} {seen : List Bytes} {name : Bytes}
    (h : BuiltinKeys unicode m seen) (hseen : name ∉ seen)
    (hpython : name = lit "python" → ∀ n ∈ seen, convertToValidChars unicode n ≠ lit "python") :
    (m.convertAndAdd unicode name).1 ∉ m.map Prod.fst := by
  intro hkey
  rw [convertAndAdd_fst] at hkey
  split at hkey
  · next hin =>
    rcases h name hkey hin with hmem | ⟨heq, n, hn, hcleaned⟩
    · exact hseen hmem
    · exact hpython heq n hn hcleaned
  · exact deriveName_free m name hkey

theorem convertAll_cons (name : Bytes) (names : List Bytes) : convertAll unicode m (name :: names) =
      ((m.convertAndAdd unicode name).1 ::
        (convertAll unicode (m.convertAndAdd unicode name).2 names).1,
        (convertAll unicode (m.convertAndAdd unicode name).2 names).2) := rfl

theorem convertAll_nodup (hlatin : Latin unicode) {names : List Bytes} {m : FunctionNameMap}
    {seen : List Bytes} (hkeys : BuiltinKeys unicode m seen) (hnodup : (seen ++ names).Nodup)
    (hpython : PythonFirst unicode (seen ++ names)) :
    (convertAll unicode m names).1.Nodup ∧
      ∀ harmonyName ∈ (convertAll unicode m names).1, harmonyName ∉ m.map Prod.fst := by
  induction names generalizing m seen with
  | nil => exact ⟨nodup_nil, fun _ h => absurd h not_mem_nil⟩
  | cons name names ih =>
    have hfresh : (m.convertAndAdd unicode name).1 ∉ m.map Prod.fst := by
      apply convertAndAdd_fresh hkeys
      · intro hmem
        exact disjoint_of_nodup_append hnodup hmem mem_cons_self
      · rintro rfl
        exact hpython seen names rfl
    rw [append_cons] at hnodup hpython
    obtain ⟨hrest, hnew⟩ := ih (hkeys.step hlatin name) hnodup hpython
    rw [convertAll_cons]
    constructor
    · rw [nodup_cons]
      exact ⟨fun hmem => hnew _ hmem mem_cons_self, hrest⟩
    · intro harmonyName hmem
      rcases mem_cons.mp hmem with rfl | hmem
      · exact hfresh
      · exact fun hkey => hnew _ hmem (mem_cons_of_mem _ hkey)

theorem convertAll_lookup_old {names : List Bytes} {m : FunctionNameMap} {harmonyName : Bytes}
    (h : harmonyName ∉ (convertAll unicode m names).1) :
    (convertAll unicode m names).2.lookup harmonyName = m.lookup harmonyName := by
  induction names generalizing m with
  | nil => rfl
  | cons name names ih =>
    rw [convertAll_cons] at h ⊢
    rw [ih (not_mem_of_not_mem_cons h), convertAndAdd_snd, lookup_cons,
      beq_false_of_ne (ne_of_not_mem_cons h)]

theorem convertAll_lookup {names : List Bytes} {m : FunctionNameMap}
    (hnodup : (convertAll unicode m names).1.Nodup) :
    ∀ p ∈ names.zip (convertAll unicode m names).1,
      (convertAll unicode m names).2.lookup p.2 = some p.1 := by
  induction names generalizing m with
  | nil => exact fun p h => absurd h not_mem_nil
  | cons name names ih =>
    rw [convertAll_cons] at hnodup ⊢
    obtain ⟨hnew, hrest⟩ := nodup_cons.mp hnodup
    intro p hp
    rcases mem_cons.mp hp with rfl | hp
    · rw [convertAll_lookup_old hnew, convertAndAdd_snd, lookup_cons_self]
    · exact ih hrest p hp

/-- What a harmony name is. -/
theorem convertAll_mem {names : List Bytes} {m : FunctionNameMap} {harmonyName : Bytes}
    (h : harmonyName ∈ (convertAll unicode m names).1) :
    harmonyName ∈ builtins ∨ ∃ name ∈ names, name ∉ builtins ∧
      ∃ k, harmonyName = numbered (convertToValidChars unicode name) k := by
  induction names generalizing m with
  | nil => exact absurd h not_mem_nil
  | cons name names ih =>
    rcases mem_cons.mp h with rfl | h
    · split
      · next hin => exact .inl hin
      · next hin =>
        exact .inr ⟨name, mem_cons_self, hin, freeName_numbered m _ m.length 0⟩
    · rcases ih h with hin | ⟨n, hn, hin, k, hk⟩
      · exact .inl hin
      · exact .inr ⟨n, mem_cons_of_mem _ hn, hin, k, hk⟩

/-! ## §4  When the names map back -/

theorem mapsBack_of (hlatin : Latin unicode) {names : List Bytes} (hnames : names.Nodup)
    (hpython : PythonFirst unicode names) (hdigits : AsciiDigits unicode names) :
    MapsBack unicode names := by
  have hkeys : BuiltinKeys unicode [] [] := fun key hkey => absurd hkey not_mem_nil
  obtain ⟨hnodup, -⟩ := convertAll_nodup hlatin hkeys hnames hpython
  refine ⟨hnodup, ?_, ?_⟩
  · intro harmonyName hmem hbuiltin
    rcases convertAll_mem hmem with hin | ⟨name, hname, hin, k, rfl⟩
    · exact absurd hin hbuiltin
    · apply identifier_numbered hlatin
      rintro ⟨c, hc, hdigit, hlarge⟩
      exact absurd (hdigits name hname hin c hc hdigit) (Nat.not_lt.mpr hlarge)
  · intro p hp
    unfold FunctionNameMap.originalFromConverted
    rw [convertAll_lookup hnodup p hp, Option.getD_some]

theorem convertAll_append (before after : List Bytes) : convertAll unicode m (before ++ after) =
      ((convertAll unicode m before).1 ++
        (convertAll unicode (convertAll unicode m before).2 after).1,
        (convertAll unicode (convertAll unicode m before).2 after).2) := by
  induction before generalizing m with
  | nil => rfl
  | cons name before ih =>
    rw [cons_append, convertAll_cons, convertAll_cons, ih]
    rfl

theorem convertAll_keys (names : List Bytes) {key : Bytes}
    (h : key ∈ (convertAll unicode m names).2.map Prod.fst) :
    key ∈ (convertAll unicode m names).1 ∨ key ∈ m.map Prod.fst := by
  induction names generalizing m with
  | nil => exact .inr h
  | cons name names ih =>
    rcases ih _ h with hmem | hmem
    · exact .inl (mem_cons_of_mem _ hmem)
    · rcases mem_cons.mp hmem with rfl | hmem
      · exact .inl mem_cons_self
      · exact .inr hmem

/-- Once a name is cleaned to a text, the text is a harmony name or was in the map. -/
theorem convertAll_cleaned {m : FunctionNameMap} {names : List Bytes} {name : Bytes}
    (hname : name ∈ names) (hbuiltin : name ∉ builtins) :
    convertToValidChars unicode name ∈ (convertAll unicode m names).1 ∨
      convertToValidChars unicode name ∈ m.map Prod.fst := by
  obtain ⟨before, after, rfl⟩ := append_of_mem hname
  rw [convertAll_append, convertAll_cons]
  by_cases hfree : convertToValidChars unicode name ∈ (convertAll unicode m before).2.map Prod.fst
  · rcases convertAll_keys m before hfree with hmem | hmem
    · exact .inl (mem_append_left _ hmem)
    · exact .inr hmem
  · rw [convertAndAdd_fst, if_neg hbuiltin, deriveName_of_free hfree]
    exact .inl (mem_append_right _ mem_cons_self)

/-- The dotted built-in names are not cleaned to `python`. -/
theorem convertToValidChars_dotted (hlatin : Latin unicode) {name : List Char}
    (hdot : '.' ∈ name) : convertToValidChars unicode (encode name) ≠ lit "python" := by
  have hkept : '_' ∈ kept unicode (encode name) := by
    unfold kept
    rw [runeBytes_encode, filterMap_map, mem_filterMap]
    exact ⟨'.', hdot, rfl⟩
  rw [convertToValidChars_eq hlatin]
  intro heq
  have hcs := encode_injective heq
  have hmem : '_' ∈ cleaned unicode (kept unicode (encode name)) := by
    cases hname : kept unicode (encode name) with
    | nil =>
      rw [hname] at hkept
      exact absurd hkept not_mem_nil
    | cons c cs =>
      rw [hname] at hkept
      rw [cleaned]
      split
      · exact mem_cons_self
      · exact hkept
  rw [hcs] at hmem
  exact absurd hmem (by decide)

theorem pythonFirst_of (hlatin : Latin unicode) {names : List Bytes} (hnames : names.Nodup)
    (h : (convertAll unicode [] names).1.Nodup) : PythonFirst unicode names := by
  rintro before after rfl name hname hcleaned
  have hne : name ≠ lit "python" := by
    rintro rfl
    exact disjoint_of_nodup_append hnames hname mem_cons_self
  have hbuiltin : name ∉ builtins := by
    intro hin
    rcases mem_cons.mp hin with rfl | hin
    · exact convertToValidChars_dotted hlatin (by decide) hcleaned
    rcases mem_cons.mp hin with rfl | hin
    · exact convertToValidChars_dotted hlatin (by decide) hcleaned
    rcases mem_cons.mp hin with rfl | hin
    · exact convertToValidChars_dotted hlatin (by decide) hcleaned
    · exact hne (mem_singleton.mp hin)
  -- `python` is a harmony name when it is registered
  have htaken := @convertAll_cleaned unicode [] before name hname hbuiltin
  rw [hcleaned] at htaken
  rw [convertAll_append, convertAll_cons, convertAndAdd_fst, if_pos (by decide)] at h
  exact disjoint_of_nodup_append h (htaken.resolve_right (not_mem_nil)) mem_cons_self

theorem asciiDigits_of (hlatin : Latin unicode) {names : List Bytes}
    (h : ∀ harmonyName ∈ (convertAll unicode [] names).1,
      harmonyName ∉ builtins → Identifier unicode harmonyName) : AsciiDigits unicode names := by
  intro name hname hin c hc hdigit
  by_contra hlarge
  have hfirst : DigitFirst unicode name := ⟨c, hc, hdigit, Nat.not_lt.mp hlarge⟩
  -- its harmony name begins with the digit
  obtain ⟨before, after, rfl⟩ := append_of_mem hname
  obtain ⟨k, hk⟩ := freeName_numbered (convertAll unicode [] before).2
    (convertToValidChars unicode name) (convertAll unicode [] before).2.length 0
  have hmem : numbered (convertToValidChars unicode name) k ∈
      (convertAll unicode [] (before ++ name :: after)).1 := by
    rw [convertAll_append, convertAll_cons, convertAndAdd_fst, if_neg hin, deriveName, hk]
    exact mem_append_right _ mem_cons_self
  have hbuiltin : numbered (convertToValidChars unicode name) k ∉ builtins := by
    obtain ⟨d, ds, hds, -, hd⟩ := cleaned_of_digitFirst hfirst
    intro hbuiltin
    have hpython := (numbered_builtin hlatin hbuiltin).2
    rw [convertToValidChars_eq hlatin, hds] at hpython
    have : d = 'p' := (List.cons.inj (encode_injective hpython)).1
    rw [this] at hd
    exact absurd hd (by decide)
  exact not_identifier_numbered hlatin hfirst k (h _ hmem hbuiltin)

/-- **Harmony names of tools.** Distinct names map back exactly when `python` does not come after
a name that is cleaned to it and no name begins with a digit outside ASCII. -/
theorem mapsBack_iff (hlatin : Latin unicode) {names : List Bytes} (hnames : names.Nodup) :
    MapsBack unicode names ↔ PythonFirst unicode names ∧ AsciiDigits unicode names := by
  constructor
  · rintro ⟨hnodup, hidentifier, -⟩
    exact ⟨pythonFirst_of hlatin hnames hnodup, asciiDigits_of hlatin hidentifier⟩
  · rintro ⟨hpython, hdigits⟩
    exact mapsBack_of hlatin hnames hpython hdigits

/-- The letters and digits of ASCII. -/
def ascii : Unicode := ⟨Char.isAlpha, Char.isDigit⟩

theorem latin_ascii : Latin ascii where
  letter _ h := h
  digit _ h := h
  digits n hn hlt := by
    have hvalid : n.isValidChar := .inl (by omega)
    have hval : (Char.ofNat n).toNat = n := by
      rw [Char.ofNat, dif_pos hvalid]
      rfl
    by_contra h
    obtain ⟨-, hnine⟩ := Char.isDigit_iff_toNat.mp (Bool.of_not_eq_false h)
    rw [hval] at hnine
    exact absurd (Nat.le_trans hn hnine) (by decide)
  disjoint c h := by
    obtain ⟨-, hnine⟩ := Char.isDigit_iff_toNat.mp h
    have hlow : ¬ c.val ≥ 65 := fun hle =>
      absurd (Nat.le_trans (UInt32.le_iff_toNat_le.mp hle) hnine) (by decide)
    have hhigh : ¬ c.val ≥ 97 := fun hle =>
      absurd (Nat.le_trans (UInt32.le_iff_toNat_le.mp hle) hnine) (by decide)
    simp [ascii, Char.isAlpha, Char.isUpper, Char.isLower, hlow, hhigh]

theorem mapsBack_iff_getWeather : MapsBack ascii [lit "get_weather", lit "get-weather"] ↔
      PythonFirst ascii [lit "get_weather", lit "get-weather"] ∧
        AsciiDigits ascii [lit "get_weather", lit "get-weather"] :=
  mapsBack_iff latin_ascii (by decide)

/-- A name that is cleaned to `python` before it, and then both have one harmony name. -/
theorem not_mapsBack_python :
    [lit "pyth!on", lit "python"].Nodup ∧ ¬ MapsBack ascii [lit "pyth!on", lit "python"] := by
  constructor
  · decide
  · rintro ⟨hnodup, -⟩
    exact absurd hnodup (by decide)

end Ollama.Harmony
