import Mathlib
import Ollama.Harmony.Headers

/-!
# The names of functions

`FunctionNameMap` of `harmony/harmonyparser.go`: the names of a request's tools as identifiers
that the model sees, and back. What is a letter and a digit (`unicode.IsLetter`,
`unicode.IsDigit`) are parameters.
-/

namespace Ollama.Harmony

open Lib Parsers Bytes Utf8 List

/-! ## §1  Names -/

/-- `harmonyToUser`, the last entry first; nothing reads `userToHarmony`. -/
abbrev FunctionNameMap := List (Bytes × Bytes)

/-- Classes of characters of package `unicode`. -/
structure Unicode where
  isLetter : Char → Bool
  isDigit : Char → Bool

variable (unicode : Unicode)

/-- The `mapper` of `convertToValidChars`. -/
def validChar (r : Char) : Option Char :=
  if r = ' ' ∨ r = '-' ∨ r = '.' then some '_'
  else if unicode.isLetter r || unicode.isDigit r || r = '_' || r = '$' then some r
  else none

def convertToValidChars (userFunctionName : Bytes) : Bytes :=
  let candidate := encode ((runeBytes userFunctionName).filterMap fun r => validChar unicode r.1)
  match candidate with
  | [] => lit "unnamed"
  | b :: _ => if unicode.isDigit (Char.ofNat b.toNat) then lit "_" ++ candidate else candidate

/-- The names that are tried, in order: `f`, `f_2`, `f_3`. -/
def numbered (original : Bytes) : ℕ → Bytes
  | 0 => original
  | k + 1 => original ++ lit "_" ++ lit (toString (k + 2))

/-- The loop of `deriveName`, with the number of the name that is tried. -/
def freeName (m : FunctionNameMap) (original : Bytes) : ℕ → ℕ → Bytes
  | 0, k => numbered original k
  | n + 1, k =>
      if numbered original k ∈ m.map Prod.fst then freeName m original n (k + 1)
      else numbered original k

/-- `deriveName`; a name is free before all of the map's names are tried. -/
def deriveName (m : FunctionNameMap) (userFunctionName : Bytes) : Bytes :=
  freeName m (convertToValidChars unicode userFunctionName) m.length 0

def builtins : List Bytes :=
  [lit "browser.open", lit "browser.search", lit "browser.find", lit "python"]

def FunctionNameMap.convertAndAdd (m : FunctionNameMap) (userFunctionName : Bytes) :
    Bytes × FunctionNameMap :=
  let harmonyFunctionName :=
    if userFunctionName ∈ builtins then userFunctionName
    else deriveName unicode m userFunctionName
  (harmonyFunctionName, (harmonyFunctionName, userFunctionName) :: m)

def FunctionNameMap.originalFromConverted (m : FunctionNameMap) (harmonyFunctionName : Bytes) :
    Bytes :=
  (m.lookup harmonyFunctionName).getD harmonyFunctionName

/-! ## §2  Names are free -/

variable {unicode} {m : FunctionNameMap} {original : Bytes}

theorem encode_injective {cs ds : List Char} (h : encode cs = encode ds) : cs = ds := by
  rw [← runes_encode cs, h, runes_encode]

theorem numbered_injective {k l : ℕ} (h : numbered original k = numbered original l) : k = l := by
  have hnonempty : ∀ k, numbered original (k + 1) ≠ original := by
    intro k heq
    have hlen := congrArg List.length heq
    have hone : (lit "_").length = 1 := by decide
    rw [numbered, length_append, length_append] at hlen
    omega
  cases k with
  | zero =>
    cases l with
    | zero => rfl
    | succ l => exact absurd h.symm (hnonempty l)
  | succ k =>
    cases l with
    | zero => exact absurd h (hnonempty k)
    | succ l =>
      have hdigits : lit (toString (k + 2)) = lit (toString (l + 2)) := append_cancel_left h
      have htext : toString (k + 2) = toString (l + 2) :=
        String.toList_inj.mp (encode_injective hdigits)
      have := Nat.repr_injective htext
      omega

/-- A name that is not free comes after names that are not free. -/
theorem freeName_taken (n k : ℕ) (h : freeName m original n k ∈ m.map Prod.fst) :
    ∀ j ≤ n, numbered original (k + j) ∈ m.map Prod.fst := by
  induction n generalizing k with
  | zero =>
    intro j hj
    rw [Nat.le_zero.mp hj]
    exact h
  | succ n ih =>
    rw [freeName] at h
    by_cases hk : numbered original k ∈ m.map Prod.fst
    · rw [if_pos hk] at h
      intro j hj
      cases j with
      | zero => exact hk
      | succ j =>
        have := ih (k + 1) h j (Nat.le_of_succ_le_succ hj)
        rwa [Nat.add_right_comm] at this
    · rw [if_neg hk] at h
      exact absurd h hk

/-- **Fresh names.** The name that `deriveName` finds is not in use. -/
theorem deriveName_free (m : FunctionNameMap) (userFunctionName : Bytes) :
    deriveName unicode m userFunctionName ∉ m.map Prod.fst := by
  intro h
  -- otherwise the map has more names than entries
  have htaken := freeName_taken m.length 0 h
  have hnodup : ((List.range (m.length + 1)).map
      (numbered (convertToValidChars unicode userFunctionName))).Nodup :=
    nodup_range.map fun _ _ h => numbered_injective h
  have hsub : (List.range (m.length + 1)).map
      (numbered (convertToValidChars unicode userFunctionName)) ⊆ m.map Prod.fst := by
    intro name hname
    obtain ⟨j, hj, rfl⟩ := mem_map.mp hname
    have := htaken j (Nat.le_of_lt_succ (mem_range.mp hj))
    rwa [Nat.zero_add] at this
  have hle := (hnodup.subperm hsub).length_le
  rw [length_map, length_map, length_range] at hle
  exact Nat.not_succ_le_self _ hle

/-! ## §3  The tools of a request -/

variable (unicode)

/-- The loop of `Init` over the names of the tools. -/
def processTools : FunctionNameMap → List Bytes → List Bytes × FunctionNameMap
  | m, [] => ([], m)
  | m, tool :: tools =>
      if tool ≠ [] then
        let (name, m) := m.convertAndAdd unicode tool
        let (names, m) := processTools m tools
        (name :: names, m)
      else
        let (names, m) := processTools m tools
        (tool :: names, m)

variable {unicode}

theorem convertAndAdd_snd (m : FunctionNameMap) (tool : Bytes) :
    (m.convertAndAdd unicode tool).2 = ((m.convertAndAdd unicode tool).1, tool) :: m := rfl

/-- A map after the tools: its entries, and what it had. -/
theorem processTools_lookup (m : FunctionNameMap) (tools : List Bytes) (name : Bytes) :
    (∃ tool, (tool, name) ∈ tools.zip (processTools unicode m tools).1 ∧
        (processTools unicode m tools).2.lookup name = some tool) ∨
      (∀ tool, (tool, name) ∈ tools.zip (processTools unicode m tools).1 → tool = [] ∧ name = []) ∧
        (processTools unicode m tools).2.lookup name = m.lookup name := by
  induction tools generalizing m with
  | nil => exact .inr ⟨fun _ h => absurd h not_mem_nil, rfl⟩
  | cons tool tools ih =>
    rw [processTools]
    by_cases htool : tool = []
    · rw [if_neg (not_not_intro htool)]
      rcases ih m with ⟨t, hmem, hlookup⟩ | ⟨hnone, hlookup⟩
      · exact .inl ⟨t, mem_cons_of_mem _ hmem, hlookup⟩
      refine .inr ⟨fun t ht => ?_, hlookup⟩
      rcases mem_cons.mp ht with heq | ht
      · obtain ⟨rfl, rfl⟩ := Prod.mk.inj heq
        exact ⟨htool, htool⟩
      · exact hnone t ht
    · rw [if_pos htool]
      rcases ih (m.convertAndAdd unicode tool).2 with ⟨t, hmem, hlookup⟩ | ⟨hnone, hlookup⟩
      · exact .inl ⟨t, mem_cons_of_mem _ hmem, hlookup⟩
      by_cases hname : name = (m.convertAndAdd unicode tool).1
      · refine .inl ⟨tool, ?_, ?_⟩
        · rw [hname]
          exact mem_cons_self
        · rw [hlookup, hname]
          exact lookup_cons_self
      refine .inr ⟨fun t ht => ?_, ?_⟩
      · rcases mem_cons.mp ht with heq | ht
        · exact absurd (Prod.mk.inj heq).2 hname
        · exact hnone t ht
      · rw [hlookup, convertAndAdd_snd, lookup_cons, beq_false_of_ne hname]

def Original (tools names : List Bytes) (name original : Bytes) : Prop :=
  (original, name) ∈ tools.zip names ∨ (∀ tool, (tool, name) ∉ tools.zip names) ∧ original = name

theorem originalFromConverted_original (tools : List Bytes) (name : Bytes) :
    Original tools (processTools unicode [] tools).1 name
      ((processTools unicode [] tools).2.originalFromConverted name) := by
  unfold FunctionNameMap.originalFromConverted
  rcases @processTools_lookup unicode [] tools name with
    ⟨tool, hmem, hlookup⟩ | ⟨hnone, hlookup⟩
  · rw [hlookup]
    exact .inl hmem
  rw [hlookup]
  by_cases hsome : ∃ tool, (tool, name) ∈ tools.zip (processTools unicode [] tools).1
  · obtain ⟨tool, hmem⟩ := hsome
    obtain ⟨rfl, rfl⟩ := hnone tool hmem
    exact .inl hmem
  · exact .inr ⟨fun tool hmem => hsome ⟨tool, hmem⟩, rfl⟩

end Ollama.Harmony
