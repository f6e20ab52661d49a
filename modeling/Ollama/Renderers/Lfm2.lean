import Ollama.Parsers.PythonArgs

/-!
# The LFM2 renderer

`model/renderers/lfm2.go`: how tool calls are written into the prompt. `encoding/json` writes a
value without white space, and a scanner puts it after commas and colons. A map is the list of
its fields in the order of their keys; the text of a number is a parameter.
-/

namespace Ollama.Renderers

open Lib Parsers List
open Api (ToolCall)

variable {ν : Type}

/-! ## §1  Values -/

/-- The style of `json.Encoder`, without HTML escapes. -/
def compact (number : ν → Text) : Json.Style ν := ⟨[','], [':'], number⟩

/-- The style of `json.dumps`. -/
def spaced (number : ν → Text) : Json.Style ν := ⟨[',', ' '], [':', ' '], number⟩

variable (number : ν → Text)

@[simp] theorem compact_comma : (compact number).comma = [','] := rfl

@[simp] theorem compact_colon : (compact number).colon = [':'] := rfl

@[simp] theorem spaced_comma : (spaced number).comma = [',', ' '] := rfl

@[simp] theorem spaced_colon : (spaced number).colon = [':', ' '] := rfl

def wantsSpace : Text → Bool
  | [] => false
  | next :: _ => !Json.isSpace next

/-- The loop of `lfm2JSON`. -/
def space : Bool → Bool → Text → Text
  | _, _, [] => []
  | true, true, b :: encoded => b :: space true false encoded
  | true, false, b :: encoded =>
      if b = '\\' then b :: space true true encoded
      else if b = '"' then b :: space false false encoded
      else b :: space true false encoded
  | false, escaped, b :: encoded =>
      if b = '"' then b :: space true escaped encoded
      else if (b = ':' ∨ b = ',') ∧ wantsSpace encoded then
        b :: ' ' :: space false escaped encoded
      else b :: space false escaped encoded

def lfm2JSON (number : ν → Text) (v : Json ν) : Text :=
  space false false (Json.write (compact number) v)

/-! ## §2  Tool calls -/

def lfm2ToolCallArgument (number : ν → Text) (v : Json ν) : Text := lfm2JSON number v

/-- The arguments of a call; `first`: nothing is written before them. -/
def renderArguments (number : ν → Text) (first : Bool) : List (Text × Json ν) → Text
  | [] => []
  | (key, value) :: arguments =>
      (if first then [] else [',']) ++ (key ++ '=' :: (lfm2ToolCallArgument number value ++
        renderArguments number false arguments))

def renderCalls (number : ν → Text) (first : Bool) : List (ToolCall (List (Text × Json ν))) → Text
  | [] => []
  | tc :: calls =>
      (if first then [] else [',']) ++ (tc.function.name ++ '(' ::
        (renderArguments number true tc.function.arguments ++ ')' ::
          renderCalls number false calls))

def lfm2RenderToolCalls (number : ν → Text) (calls : List (ToolCall (List (Text × Json ν)))) :
    Text :=
  lfm2ToolCallStartTag ++ ('[' :: (renderCalls number true calls ++ ']' :: lfm2ToolCallEndTag))

/-! ## §3  The scanner -/

theorem space_ordinary {s : Text} (h : Ordinary s) (rest : Text) :
    space false false (s ++ rest) = s ++ space false false rest := by
  induction s with
  | nil => rfl
  | cons c s ih =>
    have hc := h c mem_cons_self
    have hmark : ¬((c = ':' ∨ c = ',') ∧ wantsSpace (s ++ rest) = true) := fun hbad =>
      hbad.1.elim (ne_of_ordinary hc (by decide)) (ne_of_ordinary hc (by decide))
    rw [cons_append, space, if_neg (ne_of_ordinary hc (by decide)), if_neg hmark,
      ih fun c hc => h c (mem_cons_of_mem _ hc)]
    rfl

theorem space_body {body : Text} (h : Body '"' body) (rest : Text) :
    space true false (body ++ '"' :: rest) = body ++ '"' :: space false false rest := by
  induction h with
  | nil => rfl
  | plain hquote hback _ ih =>
    rw [cons_append, space, if_neg hback, if_neg hquote, ih]
    rfl
  | escaped _ ih =>
    rw [cons_append, cons_append, space, if_pos rfl, space, ih]
    rfl

theorem space_quote (s rest : Text) :
    space false false (Json.quote s ++ rest) = Json.quote s ++ space false false rest := by
  rw [Json.quote, cons_append, append_assoc, singleton_append, space, if_pos rfl,
    space_body (body_string s), cons_append, append_assoc, singleton_append]

theorem space_mark {c : Char} (hc : c = ':' ∨ c = ',') {s : Text}
    (hs : ∃ x t, s = x :: t ∧ Json.isSpace x = false) :
    space false false (c :: s) = c :: ' ' :: space false false s := by
  obtain ⟨x, t, rfl, hx⟩ := hs
  have hquote : c ≠ '"' := by rcases hc with rfl | rfl <;> decide
  have hwants : wantsSpace (x :: t) = true := by rw [wantsSpace, hx]; rfl
  rw [space, if_neg hquote, if_pos ⟨hc, hwants⟩]

theorem space_bracket {c : Char} (hc : c = '[' ∨ c = ']' ∨ c = '{' ∨ c = '}') (s : Text) :
    space false false (c :: s) = c :: space false false s := by
  have hquote : c ≠ '"' := by rcases hc with rfl | rfl | rfl | rfl <;> decide
  have hmark : ¬((c = ':' ∨ c = ',') ∧ wantsSpace s = true) := by
    rcases hc with rfl | rfl | rfl | rfl <;> exact fun h => h.1.elim (by decide) (by decide)
  rw [space, if_neg hquote, if_neg hmark]

def int64Text (n : Int64) : Text := Strconv.decimal n.toInt

/-- The number that is decoded from it. -/
def decoded (n : Int64) : GoNumber := .float64 (.finite (Double.ofInt n.toInt))

theorem decodeNumber_int64Text (n : Int64) : decodeNumber (int64Text n) = some (decoded n) := by
  have hlow := n.le_toInt
  have hhigh := n.toInt_lt
  have hle : |n.toInt| ≤ 2 ^ 63 := abs_le.mpr ⟨by omega, by omega⟩
  rw [decodeNumber, int64Text, Strconv.parseFloat_decimal hle]
  rfl

theorem compact_reads : (compact int64Text).Reads decodeNumber decoded :=
  ⟨⟨[], rfl, nofun⟩, ⟨[], rfl, nofun⟩, fun n => Json.numberText_decimal n.toInt,
    decodeNumber_int64Text⟩

theorem spaced_reads : (spaced int64Text).Reads decodeNumber decoded :=
  ⟨⟨[' '], rfl, forall_mem_singleton.mpr rfl⟩, ⟨[' '], rfl, forall_mem_singleton.mpr rfl⟩,
    fun n => Json.numberText_decimal n.toInt, decodeNumber_int64Text⟩

theorem compact_head (v : Json Int64) (rest : Text) :
    ∃ c t, Json.write (compact int64Text) v ++ rest = c :: t ∧ Json.isSpace c = false := by
  obtain ⟨c, t, htext, hc, -⟩ := Json.write_head compact_reads v
  exact ⟨c, t ++ rest, by rw [htext, cons_append], hc⟩

mutual

/-- The scanner turns the one style into the other. -/
theorem space_write (v : Json Int64) (rest : Text) :
    space false false (Json.write (compact int64Text) v ++ rest) =
      Json.write (spaced int64Text) v ++ space false false rest := by
  match v with
  | .null => exact space_ordinary (by decide) rest
  | .bool true => exact space_ordinary (by decide) rest
  | .bool false => exact space_ordinary (by decide) rest
  | .number n => exact space_ordinary (ordinary_decimal n.toInt) rest
  | .string s => exact space_quote s rest
  | .array xs =>
    rw [Json.write, Json.write, cons_append, append_assoc, singleton_append,
      space_bracket (.inl rfl), space_elements xs true, space_bracket (.inr (.inl rfl)),
      cons_append, append_assoc, singleton_append]
  | .object fields =>
    rw [Json.write, Json.write, cons_append, append_assoc, singleton_append,
      space_bracket (.inr (.inr (.inl rfl))), space_members fields true,
      space_bracket (.inr (.inr (.inr rfl))), cons_append, append_assoc,
      singleton_append]

theorem space_elements (xs : List (Json Int64)) (first : Bool) (rest : Text) :
    space false false (Json.writeElements (compact int64Text) first xs ++ rest) =
      Json.writeElements (spaced int64Text) first xs ++ space false false rest := by
  match xs with
  | [] => rfl
  | x :: xs =>
    have hhead := compact_head x (Json.writeElements (compact int64Text) false xs ++ rest)
    rw [Json.writeElements, Json.writeElements]
    cases first with
    | true =>
      rw [if_pos rfl, if_pos rfl, nil_append, nil_append, append_assoc,
        space_write x, space_elements xs false, append_assoc]
    | false =>
      rw [if_neg Bool.false_ne_true, if_neg Bool.false_ne_true, compact_comma, spaced_comma,
        append_assoc, append_assoc, singleton_append, space_mark (.inr rfl) hhead,
        space_write x, space_elements xs false]
      simp only [cons_append, append_assoc, nil_append]

theorem space_members (fields : List (Text × Json Int64)) (first : Bool) (rest : Text) :
    space false false (Json.writeMembers (compact int64Text) first fields ++ rest) =
      Json.writeMembers (spaced int64Text) first fields ++ space false false rest := by
  match fields with
  | [] => rfl
  | (k, x) :: fields =>
    have hhead := compact_head x (Json.writeMembers (compact int64Text) false fields ++ rest)
    have hfield : space false false (Json.quote k ++ ':' ::
        (Json.write (compact int64Text) x ++ (Json.writeMembers (compact int64Text) false fields ++
          rest))) =
        Json.quote k ++ ':' :: ' ' :: (Json.write (spaced int64Text) x ++
          (Json.writeMembers (spaced int64Text) false fields ++ space false false rest)) := by
      rw [space_quote, space_mark (.inl rfl) hhead, space_write x, space_members fields false]
    rw [Json.writeMembers, Json.writeMembers, compact_colon, spaced_colon]
    cases first with
    | true =>
      simp only [if_true, cons_append, append_assoc, nil_append]
      exact hfield
    | false =>
      have hkey : ∃ c t, Json.quote k ++ ':' :: (Json.write (compact int64Text) x ++
          (Json.writeMembers (compact int64Text) false fields ++ rest)) = c :: t ∧
          Json.isSpace c = false := ⟨'"', _, rfl, rfl⟩
      simp only [if_neg Bool.false_ne_true, compact_comma, spaced_comma, cons_append,
        append_assoc, nil_append]
      rw [space_mark (.inr rfl) hkey, hfield]

end

theorem lfm2JSON_eq (v : Json Int64) : lfm2JSON int64Text v = Json.write (spaced int64Text) v := by
  have hspace := space_write v []
  rw [append_nil, space, append_nil] at hspace
  exact hspace

end Ollama.Renderers
