import Ollama.Lib.Chunks
import Ollama.Lib.Cut
import Ollama.Lib.Path

/-!
# Model names

`types/model/name.go`. A string is the list of its bytes, each as a character.
-/

namespace Ollama.Model

open Lib List

/-- A Go string, byte by byte. -/
abbrev Str := List Char

/-! ## §1  Parts -/

def MissingPart : Str := "!MISSING!".toList

def defaultHost : Str := "registry.ollama.ai".toList

def defaultNamespace : Str := "library".toList

def defaultTag : Str := "latest".toList

inductive PartKind
  | kindHost | kindNamespace | kindModel | kindTag | kindDigest
  deriving DecidableEq

@[ext] structure Name where
  host : Str
  ns : Str
  model : Str
  tag : Str
  deriving DecidableEq

def DefaultName : Name := ⟨defaultHost, defaultNamespace, [], defaultTag⟩

/-- `cmp.Or` of two strings. -/
def cmpOr (s t : Str) : Str := if s = [] then t else s

def isAlphanumericOrUnderscore (c : Char) : Bool :=
  ('A' ≤ c && c ≤ 'Z') || ('a' ≤ c && c ≤ 'z') || ('0' ≤ c && c ≤ '9') || c == '_'

def isValidLen (kind : PartKind) (s : Str) : Bool :=
  match kind with
  | .kindHost => 1 ≤ s.length && s.length ≤ 350
  | _ => 1 ≤ s.length && s.length ≤ 80

def isValidChar (kind : PartKind) (c : Char) : Bool :=
  match c with
  | '_' | '-' => true
  | '.' => kind != .kindNamespace
  | ':' => kind == .kindHost || kind == .kindDigest
  | c => isAlphanumericOrUnderscore c

def isValidPart (kind : PartKind) (s : Str) : Bool :=
  isValidLen kind s &&
    match s with
    | [] => true
    | c :: s => isAlphanumericOrUnderscore c && s.all (isValidChar kind)

def Name.IsFullyQualified (n : Name) : Bool :=
  isValidPart .kindHost n.host && isValidPart .kindNamespace n.ns &&
    isValidPart .kindModel n.model && isValidPart .kindTag n.tag

def Name.IsValid (n : Name) : Bool := n.IsFullyQualified

/-! ## §2  Parsing -/

/-- `strings.LastIndex` of one character. -/
def lastIndex (s : Str) (c : Char) : ℤ :=
  match cutLast (· == c) s with
  | some (before, _, _) => before.length
  | none => -1

def cutPromised (s : Str) (sep : Char) : Str × Str × Bool :=
  match cutLast (· == sep) s with
  | some (before, _, after) => (cmpOr before MissingPart, cmpOr after MissingPart, true)
  | none => (s, [], false)

def cutTag (s : Str) : Str × Str :=
  if lastIndex s '/' < lastIndex s ':' then ((cutPromised s ':').1, (cutPromised s ':').2.1)
  else (s, [])

def cutScheme (s : Str) : Str :=
  match cut s "://".toList with
  | some (_, host) => host
  | none => s

def ParseNameBare (s : Str) : Name :=
  let (s, tag) := cutTag s
  let (s, model, promised) := cutPromised s '/'
  if !promised then ⟨[], [], s, tag⟩
  else
    let (s, ns, promised) := cutPromised s '/'
    if !promised then ⟨[], s, model, tag⟩ else ⟨cutScheme s, ns, model, tag⟩

def ParseNameFromFilepath (s : Str) : Name :=
  match s.splitOn '/' with
  | [host, ns, model, tag] =>
      if Name.IsFullyQualified ⟨host, ns, model, tag⟩ then ⟨host, ns, model, tag⟩
      else ⟨[], [], [], []⟩
  | _ => ⟨[], [], [], []⟩

def Merge (a b : Name) : Name := ⟨cmpOr a.host b.host, cmpOr a.ns b.ns, a.model, cmpOr a.tag b.tag⟩

def ParseName (s : Str) : Name := Merge (ParseNameBare s) DefaultName

/-! ## §3  Printing -/

def Name.String (n : Name) : Str :=
  (if n.host ≠ [] then n.host ++ ['/'] else []) ++ (if n.ns ≠ [] then n.ns ++ ['/'] else []) ++
    n.model ++ (if n.tag ≠ [] then ':' :: n.tag else [])

/-- `strings.EqualFold` of ASCII strings. -/
def equalFold (s t : Str) : Bool := s.map Char.toLower == t.map Char.toLower

def Name.DisplayShortest (n : Name) : Str :=
  (if !equalFold n.host defaultHost then n.host ++ '/' :: (n.ns ++ ['/'])
    else if !equalFold n.ns defaultNamespace then n.ns ++ ['/'] else []) ++
    (n.model ++ ':' :: n.tag)

/-- `Filepath`; there is none for a name that is not fully qualified, which panics. -/
def Name.Filepath (n : Name) : Option Str :=
  if n.IsFullyQualified then some (Path.join [n.host, n.ns, n.model, n.tag]) else none

def Name.EqualFold (n o : Name) : Bool :=
  equalFold n.host o.host && equalFold n.ns o.ns && equalFold n.model o.model &&
    equalFold n.tag o.tag

/-! ## §4  Valid parts -/

variable {kind : PartKind} {s : Str} {c : Char} {n : Name}

section

variable (h : isValidPart kind s = true)
include h

theorem ne_nil_of_valid : s ≠ [] := by
  rintro rfl
  cases kind <;> cases h

/-- A character of a valid part is a letter, a digit or one of `_-.:`. -/
theorem validChar_of_mem (hc : c ∈ s) :
    isValidChar kind c = true := by
  have halnum : ∀ c, isAlphanumericOrUnderscore c = true → isValidChar kind c = true := by
    intro c hc
    unfold isValidChar
    split
    · rfl
    · rfl
    · cases hc
    · cases hc
    · exact hc
  rcases s with _ | ⟨x, s⟩
  · cases hc
  · have hboth := (Bool.and_eq_true_iff.mp h).2
    obtain ⟨hx, hs⟩ := Bool.and_eq_true_iff.mp hboth
    rcases mem_cons.mp hc with rfl | hmem
    · exact halnum _ hx
    · exact all_eq_true.mp hs c hmem

theorem no_slash : '/' ∉ s := fun hmem => by
  have hchar := validChar_of_mem h hmem
  cases kind <;> cases hchar

theorem no_colon (hkind : kind ≠ .kindHost ∧ kind ≠ .kindDigest) :
    ':' ∉ s := fun hmem => by
  have hchar := validChar_of_mem h hmem
  cases kind with
  | kindHost => exact hkind.1 rfl
  | kindDigest => exact hkind.2 rfl
  | kindNamespace => cases hchar
  | kindModel => cases hchar
  | kindTag => cases hchar

theorem plain_of_valid : Path.Plain s := by
  refine ⟨ne_nil_of_valid h, ?_, ?_, no_slash h⟩
  · rintro rfl
    cases kind <;> cases h
  · rintro rfl
    cases kind <;> cases h

theorem cmpOr_of_valid (t : Str) : cmpOr s t = s :=
  if_neg (ne_nil_of_valid h)

end

theorem missingPart_invalid (kind : PartKind) : isValidPart kind MissingPart = false := by
  cases kind <;> rfl

/-! ## §5  Cutting -/

variable {t h m : Str} {sep : Char}

theorem forall_ne (hsep : sep ∉ t) : ∀ x ∈ t, (x == sep) = false :=
  fun x hx => beq_eq_false_iff_ne.mpr fun heq => hsep (by rwa [← heq])

theorem cutLast_at (hsep : sep ∉ t) (s : Str) :
    cutLast (· == sep) (s ++ sep :: t) = some (s, sep, t) :=
  cutLast_append (p := fun x => x == sep) (beq_self_eq_true sep) (forall_ne hsep) s

theorem cutPromised_append (hsep : sep ∉ t) (s : Str) :
    cutPromised (s ++ sep :: t) sep = (cmpOr s MissingPart, cmpOr t MissingPart, true) := by
  unfold cutPromised
  rw [cutLast_at hsep]

theorem cutPromised_none (hsep : sep ∉ s) : cutPromised s sep = (s, [], false) := by
  unfold cutPromised
  rw [cutLast_eq_none (forall_ne hsep)]

theorem lastIndex_append (hsep : sep ∉ t) (s : Str) : lastIndex (s ++ sep :: t) sep = s.length := by
  unfold lastIndex
  rw [cutLast_at hsep]

theorem lastIndex_none (hsep : sep ∉ s) : lastIndex s sep = -1 := by
  unfold lastIndex
  rw [cutLast_eq_none (forall_ne hsep)]

theorem lastIndex_lt (hsep : sep ∉ t) (s : Str) : lastIndex (s ++ t) sep < s.length := by
  unfold lastIndex
  rw [cutLast_append_right (forall_ne hsep)]
  cases hcut : cutLast (· == sep) s with
  | none =>
    show (-1 : ℤ) < s.length
    omega
  | some q =>
    exact Int.ofNat_lt.mpr (length_of_cutLast hcut)

theorem cutTag_append (hslash : '/' ∉ t) (hcolon : ':' ∉ t) (s : Str) :
    cutTag (s ++ ':' :: t) = (cmpOr s MissingPart, cmpOr t MissingPart) := by
  have hlt : lastIndex (s ++ ':' :: t) '/' < s.length := by
    refine lastIndex_lt ?_ s
    rw [mem_cons, not_or]
    exact ⟨by decide, hslash⟩
  unfold cutTag
  rw [lastIndex_append hcolon, if_pos hlt, cutPromised_append hcolon]

theorem cutTag_none (hcolon : ':' ∉ s) : cutTag s = (s, []) := by
  unfold cutTag
  rw [lastIndex_none hcolon, if_neg]
  unfold lastIndex
  split <;> omega

theorem cutTag_slash (hslash : '/' ∉ t) (hcolon : ':' ∉ t) (s : Str) :
    cutTag (s ++ '/' :: t) = (s ++ '/' :: t, []) := by
  have hlt : lastIndex (s ++ '/' :: t) ':' < s.length := by
    refine lastIndex_lt ?_ s
    rw [mem_cons, not_or]
    exact ⟨by decide, hcolon⟩
  unfold cutTag
  rw [lastIndex_append hslash, if_neg (by omega)]

theorem cutScheme_none (hslash : '/' ∉ s) : cutScheme s = s := by
  have hcut : cut s "://".toList = none := by
    refine (cut_eq_none (by decide)).mpr fun i hi => hslash ?_
    rw [hi.eq_append]
    refine mem_append_right _ (mem_append_left _ (by decide))
  unfold cutScheme
  rw [hcut]

theorem parse_model (htag : cutTag s = (m, t)) (hm : '/' ∉ m) : ParseNameBare s = ⟨[], [], m, t⟩ := by
  unfold ParseNameBare
  rw [htag]
  simp only
  rw [cutPromised_none hm]
  rfl

theorem parse_namespace {n : Str} (htag : cutTag s = (n ++ '/' :: m, t)) (hn : '/' ∉ n)
    (hm : '/' ∉ m) : ParseNameBare s = ⟨[], cmpOr n MissingPart, cmpOr m MissingPart, t⟩ := by
  have hmissing : '/' ∉ cmpOr n MissingPart := by
    unfold cmpOr
    split
    · decide
    · exact hn
  unfold ParseNameBare
  rw [htag]
  simp only
  rw [cutPromised_append hm]
  rw [cutPromised_none hmissing]
  rfl

theorem parse_host {n : Str} (htag : cutTag s = (h ++ '/' :: (n ++ '/' :: m), t)) (hn : '/' ∉ n)
    (hm : '/' ∉ m) : ParseNameBare s =
      ⟨cutScheme (cmpOr h MissingPart), cmpOr n MissingPart, cmpOr m MissingPart, t⟩ := by
  have hne : cmpOr (h ++ '/' :: n) MissingPart = h ++ '/' :: n := if_neg (by simp)
  have hassoc : h ++ '/' :: (n ++ '/' :: m) = (h ++ '/' :: n) ++ '/' :: m := by
    rw [append_assoc, cons_append]
  unfold ParseNameBare
  rw [htag, hassoc]
  simp only
  rw [cutPromised_append hm, hne]
  rw [cutPromised_append hn]
  rfl

/-! ## §6  Valid names -/

structure Name.Parts (n : Name) : Prop where
  host : isValidPart .kindHost n.host = true
  ns : isValidPart .kindNamespace n.ns = true
  model : isValidPart .kindModel n.model = true
  tag : isValidPart .kindTag n.tag = true

theorem isValid_iff : n.IsValid = true ↔ n.Parts := by
  unfold Name.IsValid Name.IsFullyQualified
  rw [Bool.and_eq_true, Bool.and_eq_true, Bool.and_eq_true]
  exact ⟨fun ⟨⟨⟨hhost, hns⟩, hmodel⟩, htag⟩ => ⟨hhost, hns, hmodel, htag⟩,
    fun h => ⟨⟨⟨h.host, h.ns⟩, h.model⟩, h.tag⟩⟩

theorem Name.Parts.string (hn : n.Parts) :
    n.String = (n.host ++ '/' :: (n.ns ++ '/' :: n.model)) ++ ':' :: n.tag := by
  unfold Name.String
  rw [if_pos (ne_nil_of_valid hn.host), if_pos (ne_nil_of_valid hn.ns),
    if_pos (ne_nil_of_valid hn.tag)]
  simp only [append_assoc, cons_append, nil_append]

theorem Name.Parts.parse_string (hn : n.Parts) : ParseNameBare n.String = n := by
  have htag := cutTag_append (no_slash hn.tag) (no_colon hn.tag (by decide))
    (n.host ++ '/' :: (n.ns ++ '/' :: n.model))
  have hne : cmpOr (n.host ++ '/' :: (n.ns ++ '/' :: n.model)) MissingPart =
      n.host ++ '/' :: (n.ns ++ '/' :: n.model) := if_neg (by simp)
  rw [hne, cmpOr_of_valid hn.tag] at htag
  rw [hn.string, parse_host htag (no_slash hn.ns) (no_slash hn.model), cmpOr_of_valid hn.host,
    cmpOr_of_valid hn.ns, cmpOr_of_valid hn.model, cutScheme_none (no_slash hn.host)]

theorem equalFold_refl (s : Str) : equalFold s s = true := beq_self_eq_true _

theorem equalFold_comm (s t : Str) : equalFold s t = equalFold t s := BEq.comm

theorem Name.Parts.parse_shortest (hn : n.Parts) :
    (ParseName n.DisplayShortest).EqualFold n = true := by
  have hmerge : ∀ host ns, ParseNameBare n.DisplayShortest = ⟨host, ns, n.model, n.tag⟩ →
      equalFold (cmpOr host defaultHost) n.host = true →
      equalFold (cmpOr ns defaultNamespace) n.ns = true →
      (ParseName n.DisplayShortest).EqualFold n = true := by
    intro host ns hparse hhost hns
    unfold ParseName Merge Name.EqualFold
    rw [hparse]
    rw [cmpOr_of_valid hn.tag, equalFold_refl, equalFold_refl]
    show (equalFold (cmpOr host defaultHost) n.host &&
      equalFold (cmpOr ns defaultNamespace) n.ns && true && true) = true
    rw [hhost, hns]
    rfl
  have hcolon := no_colon hn.tag (by decide)
  have hslash := no_slash hn.tag
  by_cases hhost : equalFold n.host defaultHost = true
  · by_cases hns : equalFold n.ns defaultNamespace = true
    · -- only the model and the tag are written
      have hstring : n.DisplayShortest = n.model ++ ':' :: n.tag := by
        unfold Name.DisplayShortest
        rw [hhost, hns]
        rfl
      have htag := cutTag_append hslash hcolon n.model
      rw [cmpOr_of_valid hn.model, cmpOr_of_valid hn.tag] at htag
      refine hmerge [] [] ?_ ?_ ?_
      · rw [hstring, parse_model htag (no_slash hn.model)]
      · rw [equalFold_comm]
        exact hhost
      · rw [equalFold_comm]
        exact hns
    · have hstring : n.DisplayShortest = (n.ns ++ '/' :: n.model) ++ ':' :: n.tag := by
        unfold Name.DisplayShortest
        rw [hhost, (Bool.not_eq_true _).mp hns]
        simp only [Bool.not_true, Bool.false_eq_true, if_false, Bool.not_false, if_true,
          append_assoc, cons_append, nil_append]
      have htag := cutTag_append hslash hcolon (n.ns ++ '/' :: n.model)
      have hne : cmpOr (n.ns ++ '/' :: n.model) MissingPart = n.ns ++ '/' :: n.model :=
        if_neg (by simp)
      rw [hne, cmpOr_of_valid hn.tag] at htag
      refine hmerge [] n.ns ?_ ?_ ?_
      · rw [hstring, parse_namespace htag (no_slash hn.ns) (no_slash hn.model),
          cmpOr_of_valid hn.ns, cmpOr_of_valid hn.model]
      · rw [equalFold_comm]
        exact hhost
      · rw [cmpOr_of_valid hn.ns]
        exact equalFold_refl n.ns
  · have hstring : n.DisplayShortest = n.String := by
      rw [hn.string]
      unfold Name.DisplayShortest
      rw [(Bool.not_eq_true _).mp hhost]
      simp only [Bool.not_false, if_true, append_assoc, cons_append, nil_append]
    refine hmerge n.host n.ns ?_ ?_ ?_
    · rw [hstring]
      exact hn.parse_string
    · rw [cmpOr_of_valid hn.host]
      exact equalFold_refl n.host
    · rw [cmpOr_of_valid hn.ns]
      exact equalFold_refl n.ns

/-- The path of a valid name has its four parts. -/
theorem Name.Parts.filepath (hn : n.Parts) :
    n.Filepath = some (['/'].intercalate [n.host, n.ns, n.model, n.tag]) ∧
      (['/'].intercalate [n.host, n.ns, n.model, n.tag]).splitOn '/' =
        [n.host, n.ns, n.model, n.tag] ∧
      ∀ c ∈ [n.host, n.ns, n.model, n.tag], Path.Plain c := by
  have hplain : ∀ c ∈ [n.host, n.ns, n.model, n.tag], Path.Plain c := by
    simp only [forall_mem_cons]
    exact ⟨plain_of_valid hn.host, plain_of_valid hn.ns, plain_of_valid hn.model,
      plain_of_valid hn.tag, nofun⟩
  refine ⟨?_, splitOn_intercalate '/' (fun c hc => (hplain c hc).no_slash) (by simp), hplain⟩
  have hvalid : n.IsFullyQualified = true := isValid_iff.mpr hn
  unfold Name.Filepath
  rw [if_pos hvalid, Path.join_plain hplain (by simp)]

/-- **Spellings of a name.** A valid name is read back from what is printed, from its shortest
form up to case, and from its path; a path has four components that mean themselves, and is the
path of no other valid name. -/
theorem name_spellings (n : Name) (hn : n.IsValid = true) :
    ParseNameBare n.String = n ∧ (ParseName n.DisplayShortest).EqualFold n = true ∧
      ∃ path, n.Filepath = some path ∧ ParseNameFromFilepath path = n ∧
        path.splitOn '/' = [n.host, n.ns, n.model, n.tag] ∧
        (∀ c ∈ path.splitOn '/', c ≠ [] ∧ c ≠ ".".toList ∧ c ≠ "..".toList ∧ '/' ∉ c) ∧
        ∀ n' : Name, n'.IsValid = true → n'.Filepath = some path → n' = n := by
  have hparts := isValid_iff.mp hn
  obtain ⟨hpath, hsplit, hplain⟩ := hparts.filepath
  refine ⟨hparts.parse_string, hparts.parse_shortest, _, hpath, ?_, hsplit, ?_, ?_⟩
  · unfold ParseNameFromFilepath
    rw [hsplit]
    exact if_pos hn
  · rw [hsplit]
    exact fun c hc => ⟨(hplain c hc).ne_nil, (hplain c hc).ne_dot, (hplain c hc).ne_dots,
      (hplain c hc).no_slash⟩
  intro n' hn' heq
  obtain ⟨hpath', hsplit', -⟩ := (isValid_iff.mp hn').filepath
  rw [hpath'] at heq
  injection heq with heq
  rw [heq, hsplit] at hsplit'
  injection hsplit' with hhost hrest
  injection hrest with hns hrest
  injection hrest with hmodel hrest
  injection hrest with htag
  exact Name.ext hhost.symm hns.symm hmodel.symm htag.symm

theorem name_spellings_example :
    ParseNameBare (⟨"h:1".toList, "n".toList, "m.1".toList, "t".toList⟩ : Name).String =
      ⟨"h:1".toList, "n".toList, "m.1".toList, "t".toList⟩ :=
  (name_spellings ⟨"h:1".toList, "n".toList, "m.1".toList, "t".toList⟩ (by decide)).1

end Ollama.Model
