import Ollama.Model.Name

/-!
# The registry client's names

`internal/names` of the registry client.
-/

namespace Ollama.Names

open Lib Model List

/-! ## §1  Parsing -/

/-- `<host>/<namespace>/<model>:<tag>` -/
def MaxNameLength : ℕ := 350 + 1 + 80 + 1 + 80 + 1 + 80

@[ext] structure Name where
  h : Str
  n : Str
  m : Str
  t : Str
  deriving DecidableEq

def isSeparator (c : Char) : Bool := c == '/' || c == ':'

/-- `cutLastAny(s, "/")`, without the separator. -/
def cutLastSlash (s : Str) : Str × Str :=
  match cutLast (· == '/') s with
  | some (before, _, after) => (before, after)
  | none => ([], s)

/-- The loop of `Parse`; `t` is the tag so far. -/
def parseLoop (s t : Str) : Name :=
  match _hcut : cutLast isSeparator s with
  | some (before, sep, tail) =>
      if sep = ':' then parseLoop before tail
      else ⟨(cutLastSlash before).1, (cutLastSlash before).2, tail, t⟩
  | none => ⟨[], [], s, t⟩
termination_by s.length
decreasing_by exact length_of_cutLast _hcut

def Parse (s : Str) : Name :=
  if MaxNameLength < s.length then ⟨[], [], [], []⟩ else parseLoop s []

inductive Part
  | partHost | partNamespace | partModel | partTag
  deriving DecidableEq

def isValidChar (kind : Part) (c : Char) : Bool :=
  match c with
  | '_' | '-' => true
  | '.' => kind != .partNamespace
  | ':' => kind == .partHost
  | c => isAlphanumericOrUnderscore c

/-- `isValidPart`, which takes the empty string for a part. -/
def isValidPart (kind : Part) (s : Str) : Bool :=
  decide (s.length ≤ if kind = .partHost then 350 else 80) &&
    match s with
    | [] => true
    | c :: s => isAlphanumericOrUnderscore c && s.all (isValidChar kind)

def Name.IsValid (n : Name) : Bool :=
  (n.h == [] || isValidPart .partHost n.h) && (n.n == [] || isValidPart .partNamespace n.n) &&
    (n.t == [] || isValidPart .partTag n.t) && (n.m != [] && isValidPart .partModel n.m)

def Name.IsFullyQualified (n : Name) : Bool :=
  n.IsValid && n.h != [] && n.n != [] && n.m != [] && n.t != []

def Name.String (n : Name) : Str :=
  (if n.h ≠ [] then n.h ++ ['/'] else []) ++ (if n.n ≠ [] then n.n ++ ['/'] else []) ++
    n.m ++ (if n.t ≠ [] then ':' :: n.t else [])

/-! ## §2  The grammar -/

/-- `[[host/]namespace/]model[:tag]`, where `part` says what may stand for a host, a namespace
and a tag. -/
def Derives (part : PartKind → Str → Prop) (s : Str) : Prop :=
  ∃ front m back, s = front ++ (m ++ back) ∧ Model.isValidPart .kindModel m = true ∧
    (back = [] ∨ ∃ t, back = ':' :: t ∧ part .kindTag t) ∧
    (front = [] ∨ (∃ n, front = n ++ ['/'] ∧ part .kindNamespace n) ∨
      ∃ h n, front = h ++ '/' :: (n ++ ['/']) ∧ part .kindHost h ∧ part .kindNamespace n)

/-- The documented grammar: every part is valid. -/
def Documented : Str → Prop := Derives fun kind s => Model.isValidPart kind s = true

/-- A part that is valid or left out. -/
def Optional (kind : PartKind) (s : Str) : Prop := s = [] ∨ Model.isValidPart kind s = true

/-- Not two colons after the last slash. -/
def OneColon (s : Str) : Prop :=
  ∀ a b c, s = a ++ ':' :: (b ++ ':' :: c) → '/' ∈ b ++ c

/-! ## §3  What is accepted -/

variable {s t m h n : Str} {name : Name}

theorem isSeparator_eq_false {c : Char} (hslash : c ≠ '/') (hcolon : c ≠ ':') :
    isSeparator c = false := by
  unfold isSeparator
  rw [beq_eq_false_iff_ne.mpr hslash, beq_eq_false_iff_ne.mpr hcolon]
  rfl

theorem not_separator (hslash : '/' ∉ s) (hcolon : ':' ∉ s) : ∀ c ∈ s, isSeparator c = false :=
  fun c hc => isSeparator_eq_false (fun heq => hslash (by rwa [← heq]))
    fun heq => hcolon (by rwa [← heq])

theorem mem_of_separators (h : ∀ c ∈ s, isSeparator c = false) : '/' ∉ s ∧ ':' ∉ s :=
  ⟨fun hmem => absurd (h _ hmem) (by decide), fun hmem => absurd (h _ hmem) (by decide)⟩

theorem parseLoop_none (hslash : '/' ∉ s) (hcolon : ':' ∉ s) (t : Str) :
    parseLoop s t = ⟨[], [], s, t⟩ := by
  rw [parseLoop]
  have hcut := cutLast_eq_none (not_separator hslash hcolon)
  split
  · next hsome =>
    rw [hcut] at hsome
    cases hsome
  · rfl

theorem parseLoop_colon (hslash : '/' ∉ m) (hcolon : ':' ∉ m) (s t : Str) :
    parseLoop (s ++ ':' :: m) t = parseLoop s m := by
  have hcut : cutLast isSeparator (s ++ ':' :: m) = some (s, ':', m) :=
    cutLast_append (by decide) (not_separator hslash hcolon) s
  rw [parseLoop]
  split
  · next hsome =>
    rw [hcut] at hsome
    cases hsome
    exact if_pos rfl
  · next hnone =>
    rw [hcut] at hnone
    cases hnone

theorem parseLoop_slash (hslash : '/' ∉ m) (hcolon : ':' ∉ m) (s t : Str) :
    parseLoop (s ++ '/' :: m) t = ⟨(cutLastSlash s).1, (cutLastSlash s).2, m, t⟩ := by
  have hcut : cutLast isSeparator (s ++ '/' :: m) = some (s, '/', m) :=
    cutLast_append (by decide) (not_separator hslash hcolon) s
  rw [parseLoop]
  split
  · next hsome =>
    rw [hcut] at hsome
    cases hsome
    exact if_neg (by decide)
  · next hnone =>
    rw [hcut] at hnone
    cases hnone

theorem cutLastSlash_none (hslash : '/' ∉ s) : cutLastSlash s = ([], s) := by
  unfold cutLastSlash
  rw [cutLast_eq_none (forall_ne hslash)]

theorem cutLastSlash_append (hslash : '/' ∉ n) (h : Str) : cutLastSlash (h ++ '/' :: n) = (h, n) := by
  unfold cutLastSlash
  rw [cutLast_at hslash]

/-- A kind of part, as `types/model` names it. -/
def Part.kind : Part → PartKind
  | .partHost => .kindHost
  | .partNamespace => .kindNamespace
  | .partModel => .kindModel
  | .partTag => .kindTag

/-- Both packages take the same strings for a part, but for the empty one. -/
theorem isValidPart_eq (kind : Part) (hne : s ≠ []) :
    isValidPart kind s = Model.isValidPart kind.kind s := by
  have hchar : isValidChar kind = Model.isValidChar kind.kind := by
    funext c
    cases kind <;> rfl
  obtain ⟨c, s, rfl⟩ := exists_cons_of_ne_nil hne
  unfold isValidPart Model.isValidPart
  rw [hchar]
  congr 1
  have hpos : 1 ≤ (c :: s).length := Nat.succ_le_of_lt (length_pos_of_ne_nil hne)
  cases kind <;> simp only [Part.kind, isValidLen, hpos, decide_true, Bool.true_and] <;> rfl

theorem isValid_part (kind : Part) :
    (s == [] || isValidPart kind s) = true ↔ Optional kind.kind s := by
  unfold Optional
  rw [Bool.or_eq_true, beq_iff_eq]
  by_cases hs : s = []
  · exact ⟨fun _ => Or.inl hs, fun _ => Or.inl hs⟩
  · rw [isValidPart_eq kind hs]

theorem isValid_iff : name.IsValid = true ↔ Optional .kindHost name.h ∧
    Optional .kindNamespace name.n ∧ Optional .kindTag name.t ∧
      Model.isValidPart .kindModel name.m = true := by
  have hmodel : (name.m != [] && isValidPart .partModel name.m) = true ↔
      Model.isValidPart .kindModel name.m = true := by
    rw [Bool.and_eq_true, bne_iff_ne]
    constructor
    · rintro ⟨hne, hm⟩
      rwa [isValidPart_eq .partModel hne] at hm
    · intro hm
      have hne := ne_nil_of_valid hm
      exact ⟨hne, by rwa [isValidPart_eq .partModel hne]⟩
  unfold Name.IsValid
  rw [Bool.and_eq_true, Bool.and_eq_true, Bool.and_eq_true, isValid_part, isValid_part,
    isValid_part, hmodel]
  exact ⟨fun ⟨⟨⟨hh, hn⟩, ht⟩, hm⟩ => ⟨hh, hn, ht, hm⟩, fun ⟨hh, hn, ht, hm⟩ => ⟨⟨⟨hh, hn⟩, ht⟩, hm⟩⟩

variable {kind : PartKind}

theorem Optional.no_slash (h : Optional kind s) : '/' ∉ s := by
  rcases h with rfl | h
  · exact nofun
  · exact Model.no_slash h

theorem Optional.no_colon (h : Optional kind s)
    (hkind : kind ≠ .kindHost ∧ kind ≠ .kindDigest) : ':' ∉ s := by
  rcases h with rfl | h
  · exact nofun
  · exact Model.no_colon h hkind

theorem Optional.length_le (h : Optional kind s) :
    s.length ≤ if kind = .kindHost then 350 else 80 := by
  rcases h with rfl | h
  · exact Nat.zero_le _
  have hlen := (Bool.and_eq_true_iff.mp h).1
  unfold isValidLen at hlen
  split at hlen
  · exact of_decide_eq_true (Bool.and_eq_true_iff.mp hlen).2
  · next hne =>
    rw [if_neg hne]
    exact of_decide_eq_true (Bool.and_eq_true_iff.mp hlen).2

def tagOf : Str → Str
  | [] => []
  | _ :: t => t

def IsBack (back : Str) : Prop := back = [] ∨ ∃ t, back = ':' :: t ∧ '/' ∉ t ∧ ':' ∉ t

variable {back : Str}

theorem parseLoop_model (hm : '/' ∉ m ∧ ':' ∉ m) (hback : IsBack back) :
    parseLoop (m ++ back) [] = ⟨[], [], m, tagOf back⟩ := by
  rcases hback with rfl | ⟨t, rfl, hslash, hcolon⟩
  · rw [append_nil]
    exact parseLoop_none hm.1 hm.2 []
  · rw [parseLoop_colon hslash hcolon]
    exact parseLoop_none hm.1 hm.2 t

theorem parseLoop_front (hm : '/' ∉ m ∧ ':' ∉ m) (hback : IsBack back) (p : Str) :
    parseLoop (p ++ '/' :: (m ++ back)) [] =
      ⟨(cutLastSlash p).1, (cutLastSlash p).2, m, tagOf back⟩ := by
  rcases hback with rfl | ⟨t, rfl, hslash, hcolon⟩
  · rw [append_nil]
    exact parseLoop_slash hm.1 hm.2 p []
  · have hassoc : p ++ '/' :: (m ++ ':' :: t) = (p ++ '/' :: m) ++ ':' :: t := by
      rw [append_assoc, cons_append]
    rw [hassoc, parseLoop_colon hslash hcolon]
    exact parseLoop_slash hm.1 hm.2 p t

/-- Every string without two colons after its last slash has a front, a model and a back. -/
theorem exists_parts (hone : OneColon s) : ∃ m back, ('/' ∉ m ∧ ':' ∉ m) ∧ IsBack back ∧
    (s = m ++ back ∨ ∃ p, s = p ++ '/' :: (m ++ back)) := by
  rcases cutLast_spec isSeparator s with ⟨-, hs⟩ | ⟨before, sep, after, -, hs, hsep, hafter⟩
  · exact ⟨s, [], mem_of_separators hs, Or.inl rfl, Or.inl (append_nil s).symm⟩
  obtain ⟨hslash, hcolon⟩ := mem_of_separators hafter
  have hsep' : sep = '/' ∨ sep = ':' := by simpa [isSeparator] using hsep
  rcases hsep' with rfl | rfl
  · exact ⟨after, [], ⟨hslash, hcolon⟩, Or.inl rfl, Or.inr ⟨before, by rw [hs, append_nil]⟩⟩
  have hback : IsBack (':' :: after) := Or.inr ⟨after, rfl, hslash, hcolon⟩
  rcases cutLast_spec isSeparator before with ⟨-, hb⟩ | ⟨before', sep, m, -, hb, hsep, hm⟩
  · exact ⟨before, _, mem_of_separators hb, hback, Or.inl hs⟩
  obtain ⟨hmslash, hmcolon⟩ := mem_of_separators hm
  have hsep' : sep = '/' ∨ sep = ':' := by simpa [isSeparator] using hsep
  rcases hsep' with rfl | rfl
  · refine ⟨m, _, ⟨hmslash, hmcolon⟩, hback, Or.inr ⟨before', ?_⟩⟩
    rw [hs, hb, append_assoc, cons_append]
  · -- a second colon after the last slash
    have hmem := hone before' m after (by rw [hs, hb, append_assoc, cons_append])
    rcases mem_append.mp hmem with hmem | hmem
    · exact absurd hmem hmslash
    · exact absurd hmem hslash

theorem optional_tag (hback : IsBack back) : Optional .kindTag (tagOf back) ↔
    back = [] ∨ ∃ t, back = ':' :: t ∧ Optional .kindTag t := by
  rcases hback with rfl | ⟨t, rfl, -⟩
  · exact ⟨fun _ => Or.inl rfl, fun _ => Or.inl rfl⟩
  refine ⟨fun h => Or.inr ⟨t, rfl, h⟩, fun h => ?_⟩
  rcases h with h | ⟨t', h, ht'⟩
  · cases h
  · injection h with _ heq
    rwa [heq]

/-- The grammar, front by front. -/
theorem derives_iff : Derives Optional s ↔ ∃ m back, Model.isValidPart .kindModel m = true ∧
    IsBack back ∧ Optional .kindTag (tagOf back) ∧
      (s = m ++ back ∨ (∃ n, s = n ++ '/' :: (m ++ back) ∧ Optional .kindNamespace n) ∨
        ∃ h n, s = (h ++ '/' :: n) ++ '/' :: (m ++ back) ∧ Optional .kindHost h ∧
          Optional .kindNamespace n) := by
  have hisBack : ∀ back, (back = [] ∨ ∃ t, back = ':' :: t ∧ Optional .kindTag t) → IsBack back := by
    rintro back (rfl | ⟨t, rfl, ht⟩)
    · exact Or.inl rfl
    · exact Or.inr ⟨t, rfl, ht.no_slash, ht.no_colon (by decide)⟩
  constructor
  · rintro ⟨front, m, back, rfl, hm, hback, hfront⟩
    refine ⟨m, back, hm, hisBack back hback, (optional_tag (hisBack back hback)).mpr hback, ?_⟩
    rcases hfront with rfl | ⟨n, rfl, hn⟩ | ⟨h, n, rfl, hh, hn⟩
    · exact Or.inl rfl
    · exact Or.inr (Or.inl ⟨n, by rw [append_assoc]; rfl, hn⟩)
    · exact Or.inr (Or.inr ⟨h, n, by simp, hh, hn⟩)
  · rintro ⟨m, back, hm, hback, htag, rfl | ⟨n, rfl, hn⟩ | ⟨h, n, rfl, hh, hn⟩⟩
    · exact ⟨[], m, back, rfl, hm, (optional_tag hback).mp htag, Or.inl rfl⟩
    · exact ⟨n ++ ['/'], m, back, by rw [append_assoc]; rfl, hm, (optional_tag hback).mp htag,
        Or.inr (Or.inl ⟨n, rfl, hn⟩)⟩
    · exact ⟨h ++ '/' :: (n ++ ['/']), m, back, by simp, hm, (optional_tag hback).mp htag,
        Or.inr (Or.inr ⟨h, n, rfl, hh, hn⟩)⟩

theorem length_of_back (hback : IsBack back) (htag : Optional .kindTag (tagOf back)) :
    back.length ≤ 81 := by
  rcases hback with rfl | ⟨t, rfl, -⟩
  · exact Nat.zero_le _
  · have hle : t.length ≤ 80 := htag.length_le
    rw [length_cons]
    omega

/-- What derives from the grammar is short enough, and is read as its parts. -/
theorem parse_of_derives (hm : Model.isValidPart .kindModel m = true)
    (hback : IsBack back) (htag : Optional .kindTag (tagOf back)) :
    Parse (m ++ back) = ⟨[], [], m, tagOf back⟩ ∧
    (∀ n, Optional .kindNamespace n → Parse (n ++ '/' :: (m ++ back)) = ⟨[], n, m, tagOf back⟩) ∧
    ∀ h n, Optional .kindHost h → Optional .kindNamespace n →
      Parse ((h ++ '/' :: n) ++ '/' :: (m ++ back)) = ⟨h, n, m, tagOf back⟩ := by
  have hseps : '/' ∉ m ∧ ':' ∉ m := ⟨Model.no_slash hm, Model.no_colon hm (by decide)⟩
  have hmlen : m.length ≤ 80 := Optional.length_le (Or.inr hm)
  have hblen := length_of_back hback htag
  refine ⟨?_, fun n hn => ?_, fun h n hh hn => ?_⟩
  · unfold Parse
    rw [if_neg (by rw [length_append]; unfold MaxNameLength; omega), parseLoop_model hseps hback]
  · have hnlen : n.length ≤ 80 := hn.length_le
    unfold Parse
    rw [if_neg (by
      rw [length_append, length_cons, length_append]
      unfold MaxNameLength
      omega), parseLoop_front hseps hback, cutLastSlash_none hn.no_slash]
  · have hhlen : h.length ≤ 350 := hh.length_le
    have hnlen : n.length ≤ 80 := hn.length_le
    unfold Parse
    rw [if_neg (by
      rw [length_append, length_append, length_cons, length_cons, length_append]
      unfold MaxNameLength
      omega), parseLoop_front hseps hback, cutLastSlash_append hn.no_slash]

/-- What is accepted: what derives from the grammar, parts before and after separators being
optional. -/
theorem parse_isValid_iff (hone : OneColon s) : (Parse s).IsValid = true ↔ Derives Optional s := by
  constructor
  · intro hvalid
    have hlen : ¬MaxNameLength < s.length := by
      intro hlt
      unfold Parse at hvalid
      rw [if_pos hlt] at hvalid
      cases hvalid
    obtain ⟨m, back, hseps, hback, hs⟩ := exists_parts hone
    unfold Parse at hvalid
    rw [if_neg hlen] at hvalid
    refine derives_iff.mpr ⟨m, back, ?_⟩
    rcases hs with rfl | ⟨p, rfl⟩
    · rw [parseLoop_model hseps hback] at hvalid
      obtain ⟨-, -, htag, hm⟩ := isValid_iff.mp hvalid
      exact ⟨hm, hback, htag, Or.inl rfl⟩
    rw [parseLoop_front hseps hback] at hvalid
    obtain ⟨hh, hn, htag, hm⟩ := isValid_iff.mp hvalid
    refine ⟨hm, hback, htag, Or.inr ?_⟩
    rcases cutLast_spec (· == '/') p with ⟨hnone, -⟩ | ⟨h, sep, n, hcut, rfl, hsep, hn'⟩
    · have hcut : cutLastSlash p = ([], p) := by
        unfold cutLastSlash
        rw [hnone]
      rw [hcut] at hn
      exact Or.inl ⟨p, rfl, hn⟩
    · obtain rfl := beq_iff_eq.mp hsep
      have hcut' : cutLastSlash (h ++ '/' :: n) = (h, n) := by
        unfold cutLastSlash
        rw [hcut]
      rw [hcut'] at hh hn
      exact Or.inr ⟨h, n, rfl, hh, hn⟩
  · intro hderives
    obtain ⟨m, back, hm, hback, htag, hs⟩ := derives_iff.mp hderives
    obtain ⟨hmodel, hns, hhost⟩ := parse_of_derives hm hback htag
    have hempty : ∀ kind, Optional kind [] := fun _ => Or.inl rfl
    rcases hs with rfl | ⟨n, rfl, hn⟩ | ⟨h, n, rfl, hh, hn⟩
    · rw [hmodel]
      exact isValid_iff.mpr ⟨hempty _, hempty _, htag, hm⟩
    · rw [hns n hn]
      exact isValid_iff.mpr ⟨hempty _, hn, htag, hm⟩
    · rw [hhost h n hh hn]
      exact isValid_iff.mpr ⟨hh, hn, htag, hm⟩

/-! ## §4  Printing -/

theorem tagOf_string (t : Str) : tagOf (if t ≠ [] then ':' :: t else []) = t := by
  split
  · rfl
  · next h => exact (not_not.mp h).symm

/-- A valid name is read back from what is printed, unless it has a host but no namespace. -/
theorem parse_string (hvalid : name.IsValid = true) (hns : name.h = [] ∨ name.n ≠ []) :
    Parse name.String = name := by
  obtain ⟨hh, hn, ht, hm⟩ := isValid_iff.mp hvalid
  have htag := tagOf_string name.t
  have hback : IsBack (if name.t ≠ [] then ':' :: name.t else []) := by
    split
    · exact Or.inr ⟨name.t, rfl, ht.no_slash, ht.no_colon (by decide)⟩
    · exact Or.inl rfl
  obtain ⟨hmodel, hnamespace, hhost⟩ := parse_of_derives hm hback (by rwa [htag])
  rw [htag] at hmodel hnamespace hhost
  unfold Name.String
  by_cases hhempty : name.h = []
  · rw [if_neg (not_not.mpr hhempty), nil_append]
    by_cases hnempty : name.n = []
    · rw [if_neg (not_not.mpr hnempty), nil_append, hmodel]
      exact Name.ext hhempty.symm hnempty.symm rfl rfl
    · rw [if_pos hnempty]
      simp only [append_assoc, cons_append, nil_append]
      rw [hnamespace name.n hn]
      exact Name.ext hhempty.symm rfl rfl rfl
  · have hnempty := hns.resolve_left hhempty
    have hstring : name.h ++ ['/'] ++ (name.n ++ ['/']) ++ name.m ++
        (if name.t ≠ [] then ':' :: name.t else []) = (name.h ++ '/' :: name.n) ++ '/' ::
            (name.m ++ if name.t ≠ [] then ':' :: name.t else []) := by
      simp only [append_assoc, cons_append, nil_append]
    rw [if_pos hhempty, if_pos hnempty, hstring, hhost name.h name.n hh hn]

/-! ## §5  The names of `types/model` -/

/-- No scheme. -/
def Schemeless (s : Str) : Prop := cut s "://".toList = none

def ofModel (n : Model.Name) : Name := ⟨n.host, n.ns, n.model, n.tag⟩

theorem cutScheme_of_front (hs : Schemeless s) (hfront : h <+: s) : cutScheme h = h := by
  unfold cutScheme
  rw [cut_none_of_front (by decide) hs hfront]

theorem eq_of_cmpOr (h : Optional kind (cmpOr s MissingPart)) :
    s ≠ [] ∧ cmpOr s MissingPart = s := by
  by_cases hs : s = []
  · rw [show cmpOr s MissingPart = MissingPart from if_pos hs] at h
    rcases h with h | h
    · cases h
    · rw [missingPart_invalid] at h
      cases h
  · exact ⟨hs, if_neg hs⟩

theorem cutTag_spec (s : Str) : cutTag s = (s, []) ∨
    ∃ b a, s = b ++ ':' :: a ∧ cutTag s = (cmpOr b MissingPart, cmpOr a MissingPart) := by
  unfold cutTag
  split
  · next hlt =>
    rcases cutLast_spec (· == ':') s with ⟨hnone, -⟩ | ⟨b, c, a, -, rfl, hsep, ha⟩
    · have hindex : lastIndex s ':' = -1 := by
        unfold lastIndex
        rw [hnone]
      have hge : -1 ≤ lastIndex s '/' := by
        unfold lastIndex
        split <;> omega
      omega
    · obtain rfl := beq_iff_eq.mp hsep
      have hmem : ':' ∉ a := fun hmem => absurd (ha _ hmem) (by simp)
      rw [cutPromised_append hmem]
      exact Or.inr ⟨b, a, rfl, rfl⟩
  · exact Or.inl rfl

theorem string_of_cutTag (hcut : cutTag s = (m, t)) (htag : Optional .kindTag t)
    (hm : m ≠ MissingPart) : s = m ++ (if t ≠ [] then ':' :: t else []) := by
  rcases cutTag_spec s with h | ⟨b, a, rfl, h⟩
  · rw [h] at hcut
    cases hcut
    exact (append_nil s).symm
  rw [h] at hcut
  injection hcut with hbefore hafter
  obtain ⟨hne, ha⟩ := eq_of_cmpOr (hafter ▸ htag)
  have hb : cmpOr b MissingPart = b :=
    if_neg fun hb => hm (by rw [← hbefore]; exact if_pos hb)
  rw [← hbefore, hb, ← hafter, ha, if_pos hne]

theorem ne_missing_of_slash (h : '/' ∈ s) : s ≠ MissingPart := by
  rintro rfl
  exact absurd h (by decide)

/-- A string without a scheme whose name has valid parts only is what that name prints. -/
theorem string_of_bare {n : Model.Name} (hs : Schemeless s) (hn : ParseNameBare s = n)
    (hhost : Optional .kindHost n.host) (hns : Optional .kindNamespace n.ns)
    (hmodel : Model.isValidPart .kindModel n.model = true) (htag : Optional .kindTag n.tag) :
    s = n.String ∧ (n.host = [] ∨ n.ns ≠ []) := by
  have hnoslash : ∀ {a : Str}, (∀ x ∈ a, (x == '/') = false) → '/' ∉ a :=
    fun ha hmem => absurd (ha _ hmem) (by decide)
  obtain ⟨s₁, t, hcut⟩ : ∃ s₁ t, cutTag s = (s₁, t) := ⟨_, _, rfl⟩
  rcases cutLast_spec (· == '/') s₁ with ⟨-, hm⟩ | ⟨p, c, m, -, rfl, hsep, hm⟩
  · rw [parse_model hcut (hnoslash hm)] at hn
    subst hn
    refine ⟨string_of_cutTag hcut htag ?_, Or.inl rfl⟩
    rintro rfl
    cases hmodel
  obtain rfl := beq_iff_eq.mp hsep
  have hslash : '/' ∈ p ++ '/' :: m := mem_append_right _ mem_cons_self
  rcases cutLast_spec (· == '/') p with ⟨-, hp⟩ | ⟨h, c, ns, -, rfl, hsep, hns'⟩
  · rw [parse_namespace hcut (hnoslash hp) (hnoslash hm)] at hn
    subst hn
    obtain ⟨hne, hpart⟩ := eq_of_cmpOr hns
    obtain ⟨-, hmpart⟩ := eq_of_cmpOr (Or.inr hmodel)
    rw [string_of_cutTag hcut htag (ne_missing_of_slash hslash)]
    unfold Model.Name.String
    rw [hpart, hmpart, if_neg (not_not.mpr rfl), if_pos hne]
    simp
  · obtain rfl := beq_iff_eq.mp hsep
    rw [append_assoc, cons_append] at hcut
    rw [parse_host hcut (hnoslash hns') (hnoslash hm)] at hn
    subst hn
    obtain ⟨hne, hpart⟩ := eq_of_cmpOr hns
    obtain ⟨-, hmpart⟩ := eq_of_cmpOr (Or.inr hmodel)
    rw [append_assoc, cons_append] at hslash
    have hstring := string_of_cutTag hcut htag (ne_missing_of_slash hslash)
    have hhne : h ≠ [] := by
      rintro rfl
      rcases hhost with hhost | hhost
      · cases hhost
      · cases hhost
    have hhpart : cutScheme (cmpOr h MissingPart) = h := by
      rw [show cmpOr h MissingPart = h from if_neg hhne]
      refine cutScheme_of_front hs ?_
      rw [hstring, append_assoc]
      exact prefix_append _ _
    refine ⟨?_, Or.inr ?_⟩
    · rw [hstring]
      unfold Model.Name.String
      rw [hpart, hmpart, hhpart, if_pos hne, if_pos hhne]
      simp
    · rwa [hpart]

theorem parse_same (hs : Schemeless s) (hvalid : (ParseNameBare s).IsValid = true) :
    Parse s = ofModel (ParseNameBare s) := by
  have hparts := Model.isValid_iff.mp hvalid
  have hstring : s = (ofModel (ParseNameBare s)).String :=
    (string_of_bare hs rfl (Or.inr hparts.host) (Or.inr hparts.ns) hparts.model
      (Or.inr hparts.tag)).1
  have hparse : Parse (ofModel (ParseNameBare s)).String = ofModel (ParseNameBare s) :=
    parse_string (isValid_iff.mpr ⟨Or.inr hparts.host, Or.inr hparts.ns, Or.inr hparts.tag,
      hparts.model⟩) (Or.inr (ne_nil_of_valid hparts.ns))
  rwa [← hstring] at hparse

end Ollama.Names
