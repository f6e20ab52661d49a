import Ollama.Lib.Json
import Ollama.Parsers.Lfm2

/-!
# Arguments of Python calls

`parsePythonArgs` and what it calls (`model/parsers/lfm2.go`): keyword arguments with quoted
strings, Python's and JSON's literals. A map is the list of its fields in the order of their
keys. Where the source looks at single bytes of valid UTF-8, only ASCII white space is skipped.
-/

namespace Ollama.Parsers

open Lib List

/-! ## §1  Values -/

/-- A number in a Go `any`. -/
inductive GoNumber
  | int64 (n : Int64)
  | float64 (x : Strconv.Float64)

/-- The number that JSON has for it. -/
def GoNumber.value : GoNumber → Option ℚ
  | int64 n => some n.toInt
  | float64 (.finite x) => some x
  | float64 _ => none

/-- `api.ToolCallFunctionArguments` -/
abbrev Arguments := List (Text × Json GoNumber)

/-- `maxNestingDepth` of `encoding/json` -/
def maxNestingDepth : ℕ := 10000

def decodeNumber (s : Text) : Option GoNumber := (Strconv.parseFloat s).map .float64

/-- `json.Unmarshal` into an `any` -/
def unmarshal (s : Text) : Option (Json GoNumber) := Json.read decodeNumber maxNestingDepth s

/-! ## §2  Literals -/

def isIdentStart (b : Char) : Bool :=
  ('A' ≤ b && b ≤ 'Z') || ('a' ≤ b && b ≤ 'z') || b = '_'

def isIdentPart (b : Char) : Bool := isIdentStart b || ('0' ≤ b && b ≤ '9')

def jsonIdent (ident : Text) : Text :=
  if ident = "True".toList then "true".toList
  else if ident = "False".toList then "false".toList
  else if ident = "None".toList then "null".toList
  else ident

/-- The loop of `pythonLiteralToJSON`, of at most `n` turns. `quote`: within a string. -/
def pythonLiteralToJSONFrom : ℕ → Option Char → Text → Option Text
  | _, none, [] => some []
  | _, some _, [] => none
  | 0, _, _ :: _ => none
  | n + 1, some quote, ch :: s =>
      if ch = '\\' then
        match s with
        | [] => none
        | e :: s => (pythonLiteralToJSONFrom n (some quote) s).map fun t => ch :: e :: t
      else if ch = quote then (pythonLiteralToJSONFrom n none s).map ('"' :: ·)
      else if quote = '\'' ∧ ch = '"' then
        (pythonLiteralToJSONFrom n (some quote) s).map fun t => '\\' :: '"' :: t
      else (pythonLiteralToJSONFrom n (some quote) s).map (ch :: ·)
  | n + 1, none, ch :: s =>
      if ch = '\'' ∨ ch = '"' then (pythonLiteralToJSONFrom n (some ch) s).map ('"' :: ·)
      else if isIdentStart ch then
        (pythonLiteralToJSONFrom n none (s.dropWhile isIdentPart)).map
          (jsonIdent (ch :: s.takeWhile isIdentPart) ++ ·)
      else (pythonLiteralToJSONFrom n none s).map (ch :: ·)

/-- `pythonLiteralToJSON`: strings in single quotes and Python's constants, as in JSON. -/
def pythonLiteralToJSON (s : Text) : Option Text := pythonLiteralToJSONFrom s.length none s

/-- A literal that is none of the words and numbers. -/
def parseComposite (token : Text) : Json GoNumber :=
  if ['['] <+: token ∨ ['{'] <+: token then
    match unmarshal token with
    | some parsed => parsed
    | none =>
        match (pythonLiteralToJSON token).bind unmarshal with
        | some parsed => parsed
        | none => .string token
  else .string token

def parsePythonLiteral (token : Text) : Json GoNumber :=
  if token = [] then .string []
  else if token = "true".toList ∨ token = "True".toList then .bool true
  else if token = "false".toList ∨ token = "False".toList then .bool false
  else if token = "null".toList ∨ token = "None".toList then .null
  else
    match Strconv.parseInt token with
    | some v => .number (.int64 v)
    | none =>
        match Strconv.parseFloat token with
        | some v => .number (.float64 v)
        | none => parseComposite token

/-! ## §3  Arguments -/

/-- A string up to its quote, as it is written, and what follows. -/
def quoted (quote : Char) : Text → Option (Text × Text)
  | [] => none
  | c :: s =>
      if c = '\\' then
        match s with
        | [] => none
        | e :: s => (quoted quote s).map fun (value, rest) => (c :: e :: value, rest)
      else if c = quote then some ([], s)
      else (quoted quote s).map fun (value, rest) => (c :: value, rest)

def prepend (t : Text) (x : Text × Text) : Text × Text := (t ++ x.1, x.2)

/-- A literal up to the next comma that stands in no bracket and no string. -/
def splitLiteral : ℕ → ℕ → ℕ → Option Char → Text → Text × Text
  | _, _, _, _, [] => ([], [])
  | depthParen, depthSquare, depthCurly, some quote, ch :: s =>
      if ch = '\\' then
        match s with
        | [] => ([ch], [])
        | e :: s => prepend [ch, e] (splitLiteral depthParen depthSquare depthCurly (some quote) s)
      else if ch = quote then
        prepend [ch] (splitLiteral depthParen depthSquare depthCurly none s)
      else prepend [ch] (splitLiteral depthParen depthSquare depthCurly (some quote) s)
  | depthParen, depthSquare, depthCurly, none, ch :: s =>
      if ch = '\'' ∨ ch = '"' then
        prepend [ch] (splitLiteral depthParen depthSquare depthCurly (some ch) s)
      else if ch = '(' then
        prepend [ch] (splitLiteral (depthParen + 1) depthSquare depthCurly none s)
      else if ch = ')' then
        prepend [ch] (splitLiteral (depthParen - 1) depthSquare depthCurly none s)
      else if ch = '[' then
        prepend [ch] (splitLiteral depthParen (depthSquare + 1) depthCurly none s)
      else if ch = ']' then
        prepend [ch] (splitLiteral depthParen (depthSquare - 1) depthCurly none s)
      else if ch = '{' then
        prepend [ch] (splitLiteral depthParen depthSquare (depthCurly + 1) none s)
      else if ch = '}' then
        prepend [ch] (splitLiteral depthParen depthSquare (depthCurly - 1) none s)
      else if ch = ',' ∧ depthParen = 0 ∧ depthSquare = 0 ∧ depthCurly = 0 then ([], ch :: s)
      else prepend [ch] (splitLiteral depthParen depthSquare depthCurly none s)

/-- A value, and what follows it. -/
def parsePythonArgValue (s : Text) : Except Error (Json GoNumber × Text) :=
  match s with
  | [] => .error "invalid argument: missing value"
  | c :: t =>
      if c = '\'' ∨ c = '"' then
        match quoted c t with
        | none => .error "invalid argument: unterminated string"
        | some (value, rest) => .ok (.string value, rest)
      else
        let (token, rest) := splitLiteral 0 0 0 none s
        .ok (parsePythonLiteral (trimSpace token), rest)

/-- `unicode.IsSpace` of a byte that begins a character. -/
def isAsciiSpace (c : Char) : Bool := c.toNat < 0x80 && isSpace c

def skipOneComma : Text → Text
  | ',' :: s => s
  | s => s

/-- The loop of `parsePythonArgs`, of at most `n` turns. -/
def parsePythonArgsFrom : ℕ → Text → Arguments → Except Error Arguments
  | 0, _, args => .ok args
  | n + 1, s, args =>
      let s := s.dropWhile fun c => c = ',' || isAsciiSpace c
      if s = [] then .ok args
      else
        match s.dropWhile fun c => c ≠ '=' && c ≠ ',' with
        | '=' :: rest =>
            let key := trimSpace (s.takeWhile fun c => c ≠ '=' && c ≠ ',')
            if key = [] then .error "invalid argument: empty key"
            else
              match parsePythonArgValue (rest.dropWhile isAsciiSpace) with
              | .error e => .error e
              | .ok (value, next) =>
                  parsePythonArgsFrom n (skipOneComma next) (Json.setField key value args)
        | _ => .error "invalid argument: expected '='"

def parsePythonArgs (argsStr : Text) : Except Error Arguments :=
  parsePythonArgsFrom (argsStr.length + 1) argsStr []

def pythonArgs : PythonArgs Arguments := ⟨[], parsePythonArgs⟩

/-! ## §4  Texts within quotes -/

inductive Body (quote : Char) : Text → Prop
  | nil : Body quote []
  | plain {c : Char} {s : Text} : c ≠ quote → c ≠ '\\' → Body quote s → Body quote (c :: s)
  | escaped {c : Char} {s : Text} : Body quote s → Body quote ('\\' :: c :: s)

inductive Balanced : Text → Prop
  | nil : Balanced []
  | plain {c : Char} {s : Text} : c ≠ '(' → c ≠ ')' → c ≠ '\'' → c ≠ '"' → Balanced s →
      Balanced (c :: s)
  | quoted {quote : Char} {body s : Text} : quote = '\'' ∨ quote = '"' → Body quote body →
      Balanced s → Balanced (quote :: (body ++ quote :: s))
  | paren {s t : Text} : Balanced s → Balanced t → Balanced ('(' :: (s ++ ')' :: t))

/-- A text without the characters `cs`. -/
def Free (cs s : Text) : Prop := ∀ c ∈ s, c ∉ cs

instance (cs s : Text) : Decidable (Free cs s) := List.decidableBAll _ s

section Texts

variable {quote : Char} {s t : Text}

theorem Body.append (hs : Body quote s) (ht : Body quote t) : Body quote (s ++ t) := by
  induction hs with
  | nil => exact ht
  | plain hquote hback _ ih => exact .plain hquote hback ih
  | escaped _ ih => exact .escaped ih

theorem Balanced.append (hs : Balanced s) (ht : Balanced t) : Balanced (s ++ t) := by
  induction hs with
  | nil => exact ht
  | plain h1 h2 h3 h4 _ ih => exact .plain h1 h2 h3 h4 ih
  | quoted hquote hbody _ ih =>
    rw [cons_append, append_assoc, cons_append]
    exact .quoted hquote hbody ih
  | paren hs _ _ ih =>
    rw [cons_append, append_assoc, cons_append]
    exact .paren hs ih

theorem Balanced.of_free (h : Free "()'\"".toList s) : Balanced s := by
  induction s with
  | nil => exact .nil
  | cons c s ih =>
    have hne : ∀ x ∈ "()'\"".toList, c ≠ x := fun x hx hc => h c mem_cons_self (hc ▸ hx)
    exact .plain (hne _ (by decide)) (hne _ (by decide)) (hne _ (by decide)) (hne _ (by decide))
      (ih fun x hx => h x (mem_cons_of_mem c hx))

end Texts

theorem body_escape (c : Char) : Body '"' (Json.escape c) := by
  have hdigit : ∀ n < 16, Nat.digitChar n ≠ '"' ∧ Nat.digitChar n ≠ '\\' := by decide
  unfold Json.escape
  split
  · exact .escaped .nil
  split
  · exact .escaped .nil
  split
  · exact .escaped .nil
  split
  · exact .escaped .nil
  split
  · exact .escaped .nil
  split
  · exact .escaped .nil
  split
  · have hhigh := hdigit (c.toNat / 16) (by omega)
    have hlow := hdigit (c.toNat % 16) (by omega)
    exact .escaped (.plain (by decide) (by decide) (.plain (by decide) (by decide)
      (.plain hhigh.1 hhigh.2 (.plain hlow.1 hlow.2 .nil))))
  split
  · have hlow := hdigit (c.toNat % 16) (by omega)
    exact .escaped (.plain (by decide) (by decide) (.plain (by decide) (by decide)
      (.plain (by decide) (by decide) (.plain hlow.1 hlow.2 .nil))))
  · next hquote _ _ _ _ _ _ _ =>
    exact .plain (fun h => hquote (.inl h)) (fun h => hquote (.inr h)) .nil

theorem body_string (s : Text) : Body '"' (s.flatMap Json.escape) := by
  induction s with
  | nil => exact .nil
  | cons c s ih =>
    exact (body_escape c).append ih

/-- Letters, digits, a minus, and what else stands between them in ASCII, less the characters
that a scanner stops at. -/
def ordinary (c : Char) : Bool :=
  0x2d ≤ c.toNat && c.toNat ≤ 0x7a && c ∉ [':', '=', '[', '\\', ']']

def Ordinary (s : Text) : Prop := ∀ c ∈ s, ordinary c = true

instance (s : Text) : Decidable (Ordinary s) := List.decidableBAll _ s

theorem ne_of_ordinary {c x : Char} (hc : ordinary c = true) (hx : ordinary x = false) : c ≠ x := by
  rintro rfl
  rw [hc] at hx
  cases hx

theorem Ordinary.free {cs s : Text} (h : Ordinary s) (hcs : cs.all (fun x => !ordinary x) = true) :
    Free cs s := fun c hc hmem =>
  ne_of_ordinary (h c hc) ((Bool.not_eq_true' _).mp (all_eq_true.mp hcs c hmem)) rfl

theorem not_isSpace_of_ordinary {c : Char} (hc : ordinary c = true) : isSpace c = false := by
  rw [ordinary, Bool.and_eq_true, Bool.and_eq_true, decide_eq_true_eq, decide_eq_true_eq] at hc
  rw [isSpace, if_pos (by omega), Bool.or_eq_false_iff, Bool.or_eq_false_iff,
    Bool.or_eq_false_iff, Bool.and_eq_false_iff, decide_eq_false_iff_not, decide_eq_false_iff_not,
    beq_eq_false_iff_ne, beq_eq_false_iff_ne, beq_eq_false_iff_ne]
  omega

theorem ordinary_of_isDigit {c : Char} (hc : c.isDigit = true) : ordinary c = true := by
  obtain ⟨hlow, hhigh⟩ := Char.isDigit_iff_toNat.mp hc
  have hmem : c ∉ [':', '=', '[', '\\', ']'] := fun hmem => by
    have hall : [':', '=', '[', '\\', ']'].all (fun x => !x.isDigit) = true := by decide
    have hnot := all_eq_true.mp hall c hmem
    rw [hc] at hnot
    cases hnot
  have hlow' : '0'.toNat = 0x30 := rfl
  have hhigh' : '9'.toNat = 0x39 := rfl
  rw [ordinary, decide_eq_true hmem, Bool.and_true, Bool.and_eq_true, decide_eq_true_eq,
    decide_eq_true_eq]
  omega

theorem ordinary_decimal (n : ℤ) : Ordinary (Strconv.decimal n) := by
  have hdigits : ∀ k, Ordinary (Nat.toDigits 10 k) := fun k c hc =>
    ordinary_of_isDigit ((Strconv.digits_toDigits k).digits c hc)
  cases n with
  | ofNat k => exact hdigits k
  | negSucc k => exact forall_mem_cons.mpr ⟨rfl, hdigits (k + 1)⟩

/-! ## §5  What the scanners do -/

section Scanners

variable {quote : Char} {body s : Text}

theorem prepend_prepend (t u : Text) (x : Text × Text) :
    prepend t (prepend u x) = prepend (t ++ u) x := by
  rw [prepend, prepend, prepend, append_assoc]

theorem Body.quoted_eq (hq : quote ≠ '\\') (h : Body quote body) (rest : Text) :
    quoted quote (body ++ quote :: rest) = some (body, rest) := by
  induction h with
  | nil =>
    rw [nil_append]
    unfold quoted
    rw [if_neg hq, if_pos rfl]
  | plain hquote hback _ ih =>
    rw [cons_append]
    unfold quoted
    rw [if_neg hback, if_neg hquote, ih]
    rfl
  | escaped _ ih =>
    rw [cons_append, cons_append]
    unfold quoted
    dsimp only
    rw [ih]
    rfl

theorem Body.findMatchingParen_eq (hq : quote ≠ '\\') (h : Body quote body) (depth i : ℕ)
    (rest : Text) :
    findMatchingParen depth (some quote) i (body ++ quote :: rest) =
      findMatchingParen depth none (i + body.length + 1) rest := by
  induction h generalizing i with
  | nil =>
    rw [nil_append, length_nil, Nat.add_zero]
    rw [findMatchingParen.eq_def]
    dsimp only
    rw [if_pos rfl]
  | plain hquote hback _ ih =>
    rw [cons_append, length_cons]
    rw [findMatchingParen.eq_def]
    dsimp only
    rw [if_neg hquote, if_neg hback, ih]
    congr 1
    omega
  | escaped _ ih =>
    rw [cons_append, cons_append, length_cons, length_cons]
    rw [findMatchingParen.eq_def]
    dsimp only
    rw [if_neg (Ne.symm hq), if_pos rfl]
    rw [ih]
    congr 1
    omega

/-- The parenthesis that closes a call is looked for after a text that is balanced. -/
theorem Balanced.findMatchingParen_eq (h : Balanced s) (depth i : ℕ) (hdepth : 0 < depth)
    (rest : Text) :
    findMatchingParen depth none i (s ++ rest) =
      findMatchingParen depth none (i + s.length) rest := by
  induction h generalizing depth i rest with
  | nil => rfl
  | @plain c s h1 h2 h3 h4 _ ih =>
    have hquote : ¬(c = '\'' ∨ c = '"') := fun h => h.elim h3 h4
    rw [cons_append, length_cons]
    rw [findMatchingParen, if_neg h1, if_neg h2, if_neg hquote, ih depth (i + 1) hdepth]
    congr 1
    omega
  | @quoted quote body s hquote hbody _ ih =>
    have hq : quote ≠ '\\' := by rcases hquote with rfl | rfl <;> decide
    have hopen : quote ≠ '(' := by rcases hquote with rfl | rfl <;> decide
    have hclose : quote ≠ ')' := by rcases hquote with rfl | rfl <;> decide
    rw [cons_append, append_assoc, cons_append, findMatchingParen, if_neg hopen,
      if_neg hclose, if_pos hquote, hbody.findMatchingParen_eq hq, ih depth _ hdepth]
    rw [length_cons, length_append, length_cons]
    congr 1
    omega
  | @paren s t _ _ ihs iht =>
    have hdeep : depth + 1 ≠ 1 := by omega
    rw [cons_append, append_assoc, cons_append, findMatchingParen, if_pos rfl,
      ihs (depth + 1) (i + 1) (Nat.succ_pos depth), findMatchingParen, if_neg (by decide),
      if_pos rfl, if_neg hdeep, Nat.add_sub_cancel, iht depth _ hdepth]
    rw [length_cons, length_append, length_cons]
    congr 1
    omega

theorem Balanced.closes (h : Balanced s) (rest : Text) :
    findMatchingParen 1 none 0 (s ++ ')' :: rest) = some s.length := by
  rw [h.findMatchingParen_eq 1 0 Nat.one_pos, Nat.zero_add]
  rfl

/-- A quoted string that the search leaves. -/
theorem findMatchingParen_quote {n depth i j : ℕ} (hn : s.length ≤ n)
    (h : findMatchingParen depth (some quote) i s = some j) :
    ∃ body rest, Body quote body ∧ s = body ++ quote :: rest ∧
      findMatchingParen depth none (i + body.length + 1) rest = some j := by
  induction n generalizing s i with
  | zero =>
    obtain rfl := length_eq_zero_iff.mp (Nat.le_zero.mp hn)
    cases h
  | succ n ih =>
    match s with
    | [] => cases h
    | c :: s =>
      rw [findMatchingParen.eq_def] at h
      dsimp only at h
      split at h
      · next hc => exact ⟨[], s, .nil, by rw [hc]; rfl, h⟩
      split at h
      · next hquote hc =>
        match s with
        | [] => cases h
        | e :: s =>
          rw [length_cons, length_cons] at hn
          obtain ⟨body, rest, hbody, hs, hrest⟩ := ih (by omega) h
          refine ⟨c :: e :: body, rest, ?_, by rw [hs]; rfl, ?_⟩
          · rw [hc]
            exact .escaped hbody
          · rw [← hrest, length_cons, length_cons]
            congr 1
            omega
      · next hquote hc =>
        obtain ⟨body, rest, hbody, hs, hrest⟩ := ih (Nat.le_of_succ_le_succ hn) h
        refine ⟨c :: body, rest, .plain hquote hc hbody, by rw [hs]; rfl, ?_⟩
        rw [← hrest, length_cons]
        congr 1
        omega

/-- What stands in front of the parenthesis that is found, is balanced. -/
theorem findMatchingParen_balanced {n depth i j : ℕ} (hn : s.length ≤ n)
    (h : findMatchingParen (depth + 1) none i s = some j) :
    ∃ b rest, Balanced b ∧ s = b ++ ')' :: rest ∧ (depth = 0 ∧ j = i + b.length ∨
        0 < depth ∧ findMatchingParen depth none (i + b.length + 1) rest = some j) := by
  induction n generalizing s i depth with
  | zero =>
    obtain rfl := length_eq_zero_iff.mp (Nat.le_zero.mp hn)
    cases h
  | succ n ih =>
    match s with
    | [] => cases h
    | c :: s =>
      have hlength := Nat.le_of_succ_le_succ hn
      rw [findMatchingParen] at h
      split at h
      · next hc =>
        obtain ⟨b, rest, hb, rfl, hrest⟩ := ih hlength h
        obtain ⟨hzero, -⟩ | ⟨-, hrest⟩ := hrest
        · cases hzero
        rw [length_append, length_cons] at hlength
        obtain ⟨b', rest', hb', rfl, hrest'⟩ := ih (by omega) hrest
        refine ⟨c :: (b ++ ')' :: b'), rest', by rw [hc]; exact .paren hb hb', ?_, ?_⟩
        · rw [cons_append, append_assoc, cons_append]
        · have hindex : i + (c :: (b ++ ')' :: b')).length = i + 1 + b.length + 1 + b'.length := by
            rw [length_cons, length_append, length_cons]
            omega
          rwa [hindex]
      split at h
      · next hc =>
        refine ⟨[], s, .nil, by rw [hc]; rfl, ?_⟩
        split at h
        · next hdepth =>
          exact .inl ⟨by omega, (Option.some.inj h).symm⟩
        · next hdepth =>
          exact .inr ⟨by omega, h⟩
      split at h
      · next hc =>
        obtain ⟨body, rest, hbody, rfl, hrest⟩ := findMatchingParen_quote (Nat.le_refl _) h
        rw [length_append, length_cons] at hlength
        obtain ⟨b, rest', hb, rfl, hrest'⟩ := ih (by omega) hrest
        refine ⟨c :: (body ++ c :: b), rest', .quoted hc hbody hb, ?_, ?_⟩
        · rw [cons_append, append_assoc, cons_append]
        · have hindex : i + (c :: (body ++ c :: b)).length = i + 1 + body.length + 1 + b.length := by
            rw [length_cons, length_append, length_cons]
            omega
          rwa [hindex]
      · next hopen hclose hquote =>
        obtain ⟨b, rest, hb, rfl, hrest⟩ := ih hlength h
        refine ⟨c :: b, rest, .plain hopen hclose (fun h => hquote (.inl h))
          (fun h => hquote (.inr h)) hb, rfl, ?_⟩
        have hindex : i + (c :: b).length = i + 1 + b.length := by
          rw [length_cons]
          omega
        rwa [hindex]

theorem Body.splitLiteral_eq (h : Body quote body) (hq : quote ≠ '\\') (p q r : ℕ) (rest : Text) :
    splitLiteral p q r (some quote) (body ++ quote :: rest) =
      prepend (body ++ [quote]) (splitLiteral p q r none rest) := by
  induction h with
  | nil =>
    rw [nil_append]
    rw [splitLiteral.eq_def]
    dsimp only
    rw [if_neg hq, if_pos rfl]
    rfl
  | plain hquote hback _ ih =>
    rw [cons_append, splitLiteral.eq_def]
    dsimp only
    rw [if_neg hback, if_neg hquote, ih, prepend_prepend]
    rfl
  | escaped _ ih =>
    rw [cons_append, cons_append, splitLiteral.eq_def]
    dsimp only
    rw [if_pos rfl, ih, prepend_prepend]
    rfl

end Scanners

variable {s : Text} {j : ℕ}

/-- **The parenthesis that is found** is the one before which the text is balanced: quoted strings
with their escapes and pairs of parentheses are passed over whole. -/
theorem findMatchingParen_iff : findMatchingParen 1 none 0 s = some j ↔
    ∃ b rest, Balanced b ∧ s = b ++ ')' :: rest ∧ j = b.length := by
  constructor
  · intro h
    obtain ⟨b, rest, hb, hs, hj⟩ := findMatchingParen_balanced (Nat.le_refl s.length) h
    exact ⟨b, rest, hb, hs, by omega⟩
  · rintro ⟨b, rest, hb, rfl, rfl⟩
    exact hb.closes rest

end Ollama.Parsers
