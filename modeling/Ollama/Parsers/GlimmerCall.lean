import Ollama.Parsers.Bytes
import Mathlib.Data.UInt

/-!
# Glimmer tool calls

`writeGlimmerATEM` of `model/renderers/glimmer.go` writes a tool call, `parseGlimmerATEM` of
`model/parsers/glimmer.go` reads it. What JSON and floating point do (`glimmerJSON`,
`fmt.Fprint` of a float, `json.Unmarshal`, `strconv.ParseFloat`) is a parameter.
-/

namespace Ollama.Parsers.Glimmer

open Lib Bytes List

/-! ## §1  Calls -/

def glimmerMessageTag : Bytes := lit "<|message|>"

def glimmerATEMCallsOpen : Bytes := lit "<atem:function_calls>"

def glimmerATEMCallsClose : Bytes := lit "</atem:function_calls>"

def glimmerATEMInvokeOpen : Bytes := lit "<atem:invoke name=\""

def glimmerATEMInvokeClose : Bytes := lit "</atem:invoke>"

def glimmerATEMParamOpen : Bytes := lit "<atem:parameter name=\""

def glimmerATEMParamClose : Bytes := lit "</atem:parameter>"

def nameEnd : Bytes := lit "\">"

/-- An argument; `J` are the floats, arrays and objects. -/
inductive Value (J : Type)
  | null
  | bool (b : Bool)
  | int (i : ℤ)
  | string (s : Bytes)
  | float (j : J)
  | composite (j : J)
  deriving DecidableEq

variable {J : Type}

/-- A map of arguments, in the order of its keys. -/
@[ext] structure Arguments (J : Type) where
  entries : List (Bytes × Value J)
  sorted : entries.Pairwise fun e e' => e.1 < e'.1

/-- A declared parameter: its types, and the types of each `anyOf` option. -/
structure ToolProperty where
  anyOf : List (List String)
  type : List String

/-- A tool: what is declared of each parameter. -/
structure Tool where
  properties : Bytes → Option ToolProperty

/-- JSON and floating point. -/
structure Codec (J : Type) where
  glimmerJSON : J → Except Error Bytes
  printFloat : J → Bytes
  parseFloat : Bytes → Option (Value J)
  unmarshalArray : Bytes → Option J
  unmarshalObject : Bytes → Option J

/-! ## §2  The writer -/

/-- `%d` -/
def printInt (i : ℤ) : Bytes := lit (toString i)

/-- A value between its tags. -/
def valueText (codec : Codec J) : Value J → Except Error Bytes
  | .null => .ok (lit "null")
  | .composite j => codec.glimmerJSON j
  | .bool b => .ok (if b then lit "true" else lit "false")
  | .int i => .ok (printInt i)
  | .string s => .ok s
  | .float j => .ok (codec.printFloat j)

/-- The loop over the arguments. -/
def writeParams (codec : Codec J) : List (Bytes × Value J) → Except Error Bytes
  | [] => .ok []
  | (name, value) :: rest => do
      let text ← valueText codec value
      let later ← writeParams codec rest
      return glimmerATEMParamOpen ++ (name ++ (nameEnd ++ (text ++ (glimmerATEMParamClose ++
        (lit "\n" ++ later)))))

def writeGlimmerATEM (codec : Codec J) (name : Bytes) (arguments : Arguments J) :
    Except Error Bytes := do
  let params ← writeParams codec arguments.entries
  return glimmerATEMCallsOpen ++ (lit "\n" ++ (glimmerATEMInvokeOpen ++ (name ++ (nameEnd ++
    (lit "\n" ++ (params ++ (glimmerATEMInvokeClose ++ (lit "\n" ++ glimmerATEMCallsClose))))))))

/-! ## §3  Values -/

/-- `strings.ToLower(raw) == word` for a word without `i` and `k`: no other rune becomes a
letter of it. -/
def lowerIs (raw : Bytes) (word : String) : Prop :=
  (raw.map fun b => if 65 ≤ b ∧ b ≤ 90 then b + 32 else b) = lit word

instance (raw : Bytes) (word : String) : Decidable (lowerIs raw word) :=
  inferInstanceAs (Decidable (_ = _))

/-- The digits of a number, read on from `n`. -/
def parseDigits : ℕ → Bytes → Option ℕ
  | n, [] => some n
  | n, b :: s => if 48 ≤ b ∧ b ≤ 57 then parseDigits (10 * n + (b.toNat - 48)) s else none

/-- `strconv.ParseInt(raw, 10, 64)` -/
def parseInt (raw : Bytes) : Option ℤ :=
  let (negative, digits) :=
    match raw with
    | 45 :: digits => (true, digits)
    | 43 :: digits => (false, digits)
    | digits => (false, digits)
  if digits = [] then none
  else
    match parseDigits 0 digits with
    | none => none
    | some n =>
        if negative then if n ≤ 2 ^ 63 then some (-n) else none
        else if n < 2 ^ 63 then some n else none

/-- What the first type that reads the text makes of it; `none` is the next type's turn. -/
def parseAs (codec : Codec J) (raw : Bytes) (only : Bool) : String → Option (Value J)
  | "boolean" =>
      if lowerIs raw "true" then some (.bool true)
      else if lowerIs raw "false" then some (.bool false)
      else if only then some (.bool false) else none
  | "integer" => (parseInt raw).map .int <|> if only then some (.string raw) else none
  | "number" => codec.parseFloat raw <|> if only then some (.string raw) else none
  | "array" => (codec.unmarshalArray raw).map .composite <|>
      if only then some (.string raw) else none
  | "object" => (codec.unmarshalObject raw).map .composite <|>
      if only then some (.string raw) else none
  | _ => none

def trimNewlines (raw : Bytes) : Bytes := trimSuffix (trimPrefix raw (lit "\n")) (lit "\n")

def parseValue (codec : Codec J) (raw : Bytes) (paramType : List String) : Value J :=
  let raw := trimNewlines raw
  if lowerIs raw "null" then .null
  else if paramType = [] then .string raw
  else
    let tried := ["boolean", "integer", "number", "array", "object"].filter (· ∈ paramType)
    (tried.firstM (parseAs codec raw (paramType.length = 1))).getD (.string raw)

/-! ## §4  The reader -/

/-- The errors of `parseGlimmerATEM`: missing ATEM function_calls wrapper, missing ATEM
invoke wrapper, malformed ATEM invoke name, malformed ATEM parameter, malformed ATEM
parameter name, unterminated ATEM parameter with its name. -/
inductive ATEMError
  | missingCalls
  | missingInvoke
  | malformedInvokeName
  | malformedParameter
  | malformedParameterName
  | unterminatedParameter (paramName : Bytes)
  deriving DecidableEq

/-- The loop of `glimmerCutInvokeName`: message tags in the name are dropped, and one before
the parameters ends it. -/
def cutInvokeName : ℕ → Bytes → Bytes → Option (Bytes × Bytes)
  | 0, _, _ => none
  | n + 1, name, rest =>
      match index rest nameEnd, index rest glimmerMessageTag with
      | termIdx, some tagIdx =>
          if ∀ i ∈ termIdx, tagIdx < i then
            let later := rest.drop (tagIdx + glimmerMessageTag.length)
            if glimmerATEMParamOpen <+: later then some (name ++ rest.take tagIdx, later)
            else cutInvokeName n (name ++ rest.take tagIdx) later
          else
            match termIdx with
            | none => none
            | some i => some (name ++ rest.take i, rest.drop (i + 2))
      | some i, none => some (name ++ rest.take i, rest.drop (i + 2))
      | none, none => none

/-- `glimmerCutInvokeName`; a tag that is dropped makes the text shorter. -/
def glimmerCutInvokeName (s : Bytes) : Option (Bytes × Bytes) := cutInvokeName (s.length + 1) [] s

def paramTypes (tool : Tool) (paramName : Bytes) : List String :=
  match tool.properties paramName with
  | some property => if property.anyOf ≠ [] then property.anyOf.flatten else property.type
  | none => []

/-- One parameter, and the text after it. -/
def cutParameter (params : Bytes) : Except ATEMError (Bytes × Bytes × Bytes) :=
  if glimmerATEMParamOpen <+: params then
    match cut (params.drop glimmerATEMParamOpen.length) nameEnd with
    | none => .error .malformedParameterName
    | some (paramName, params) =>
        match cut params glimmerATEMParamClose with
        | none => .error (.unterminatedParameter paramName)
        | some (value, params) => .ok (paramName, value, trimPrefix params (lit "\n"))
  else .error .malformedParameter

/-- `args[name] = value` -/
def insertEntry (name : Bytes) (value : Value J) : List (Bytes × Value J) → List (Bytes × Value J)
  | [] => [(name, value)]
  | e :: rest =>
      if name < e.1 then (name, value) :: e :: rest
      else if name = e.1 then (name, value) :: rest
      else e :: insertEntry name value rest

variable {name : Bytes} {es : List (Bytes × Value J)}

theorem mem_insertEntry {value : Value J}
    {e : Bytes × Value J} (h : e ∈ insertEntry name value es) : e = (name, value) ∨ e ∈ es := by
  induction es with
  | nil => exact Or.inl (mem_singleton.mp h)
  | cons e' es ih =>
    unfold insertEntry at h
    split at h
    · exact (mem_cons.mp h)
    split at h
    · rcases mem_cons.mp h with h | h
      · exact Or.inl h
      · exact Or.inr (mem_cons_of_mem _ h)
    · rcases mem_cons.mp h with rfl | h
      · exact Or.inr mem_cons_self
      · exact (ih h).imp_right (mem_cons_of_mem _)

theorem sorted_insertEntry (name : Bytes) (value : Value J)
    (h : es.Pairwise fun e e' => e.1 < e'.1) :
    (insertEntry name value es).Pairwise fun e e' => e.1 < e'.1 := by
  induction es with
  | nil => exact pairwise_singleton _ _
  | cons e es ih =>
    obtain ⟨hlt, hsorted⟩ := pairwise_cons.mp h
    unfold insertEntry
    split
    · next hname =>
      refine pairwise_cons.mpr ⟨fun e' he' => ?_, h⟩
      rcases mem_cons.mp he' with rfl | he'
      · exact hname
      · exact List.lt_trans hname (hlt e' he')
    · split
      · next hname =>
        refine pairwise_cons.mpr ⟨fun e' he' => ?_, hsorted⟩
        rw [hname]
        exact hlt e' he'
      · next hnot hne =>
        refine pairwise_cons.mpr ⟨fun e' he' => ?_, ih hsorted⟩
        rcases mem_insertEntry he' with rfl | he'
        · exact Std.lt_of_le_of_ne hnot fun heq => hne heq.symm
        · exact hlt e' he'

def Arguments.empty : Arguments J := ⟨[], List.Pairwise.nil⟩

def Arguments.insert (args : Arguments J) (name : Bytes) (value : Value J) : Arguments J :=
  ⟨insertEntry name value args.entries, sorted_insertEntry name value args.sorted⟩

/-- The loop over the parameters; every turn makes the text shorter. -/
def parseParams (codec : Codec J) (tool : Tool) :
    ℕ → Bytes → Arguments J → Except ATEMError (Arguments J)
  | 0, _, args => .ok args
  | n + 1, params, args =>
      if params = [] then .ok args
      else do
        let (paramName, value, params) ← cutParameter params
        parseParams codec tool n params
          (args.insert paramName (parseValue codec value (paramTypes tool paramName)))

def parseGlimmerATEM (codec : Codec J) (body : Bytes) (tool : Tool) :
    Except ATEMError (Bytes × Arguments J) :=
  let body := Bytes.trimSpace body
  if ¬(glimmerATEMCallsOpen <+: body ∧ glimmerATEMCallsClose <:+ body) then .error .missingCalls
  else
    let invoke := Bytes.trimSpace
      ((body.take (body.length - glimmerATEMCallsClose.length)).drop glimmerATEMCallsOpen.length)
    if ¬(glimmerATEMInvokeOpen <+: invoke ∧ glimmerATEMInvokeClose <:+ invoke) then
      .error .missingInvoke
    else
      match glimmerCutInvokeName (invoke.drop glimmerATEMInvokeOpen.length) with
      | none => .error .malformedInvokeName
      | some (name, rest) =>
          if rest.length < glimmerATEMInvokeClose.length then .error .malformedInvokeName
          else
            let params := trimNewlines (rest.take (rest.length - glimmerATEMInvokeClose.length))
            match parseParams codec tool params.length params .empty with
            | .error e => .error e
            | .ok args => .ok (name, args)

/-! ## §5  Reading what was written -/

/-- A tool call as it is claimed to survive: names and values do not contain what ends them,
the values are strings, none of them spells null, and no other type is declared. -/
structure Callable (tool : Tool) (name : Bytes) (args : Arguments J) : Prop where
  name_plain : ¬nameEnd <:+: name ∧ 60 ∉ name
  param_plain : ∀ e ∈ args.entries, ¬nameEnd <:+: e.1
  value_plain : ∀ e ∈ args.entries, ∃ s, e.2 = .string s ∧ ¬glimmerATEMParamClose <:+: s ∧
    ¬lowerIs s "null"
  declared : ∀ e ∈ args.entries, ∀ type ∈ paramTypes tool e.1, type = "string"

def paramText (name text : Bytes) : Bytes :=
  glimmerATEMParamOpen ++ (name ++ (nameEnd ++ (text ++ glimmerATEMParamClose)))

def stringOf : Value J → Bytes
  | .string s => s
  | _ => []

theorem cut_plain {s t : Bytes} {c : UInt8} (ht : Marked c t) (h : ¬t <:+: s) (u : Bytes) :
    cut (s ++ (t ++ u)) t = some (s, u) := by
  have hnone : cut s t = none := by
    refine (cut_eq_none ht.ne_nil).mpr fun i ho => h ?_
    rw [ho.eq_append]
    exact ⟨s.take i, s.drop (i + t.length), append_assoc _ _ _⟩
  rw [cut_marked_self ht, hnone]

theorem cutParameter_paramText {name text : Bytes} (hname : ¬nameEnd <:+: name)
    (htext : ¬glimmerATEMParamClose <:+: text) (later : Bytes) :
    cutParameter (paramText name text ++ later) = .ok (name, text, trimPrefix later (lit "\n")) := by
  have hsplit : paramText name text ++ later = glimmerATEMParamOpen ++ (name ++ (nameEnd ++
      (text ++ (glimmerATEMParamClose ++ later)))) := by
    unfold paramText
    simp only [append_assoc]
  have hcut := cut_plain (c := 34) (by decide) hname (text ++ (glimmerATEMParamClose ++ later))
  have hcut' := cut_plain (c := 60) (by decide) htext later
  unfold cutParameter
  rw [hsplit, if_pos (prefix_append _ _), drop_left, hcut]
  simp only
  rw [hcut']

def paramsText (es : List (Bytes × Value J)) : Bytes :=
  es.flatMap fun e => paramText e.1 (stringOf e.2) ++ lit "\n"

theorem paramsText_cons (e : Bytes × Value J) (es : List (Bytes × Value J)) :
    paramsText (e :: es) = paramText e.1 (stringOf e.2) ++ (lit "\n" ++ paramsText es) := by
  unfold paramsText
  rw [flatMap_cons, append_assoc]

variable (codec : Codec J)

theorem writeParams_strings (h : ∀ e ∈ es, ∃ s, e.2 = .string s) :
    writeParams codec es = .ok (paramsText es) := by
  induction es with
  | nil => rfl
  | cons e es ih =>
    obtain ⟨name, value⟩ := e
    obtain ⟨s, rfl⟩ := h _ mem_cons_self
    unfold writeParams
    rw [ih fun e he => h e (mem_cons_of_mem _ he), paramsText_cons]
    simp only [paramText, append_assoc]
    rfl

theorem insertEntry_last {value : Value J}
    (h : ∀ e ∈ es, e.1 < name) : insertEntry name value es = es ++ [(name, value)] := by
  induction es with
  | nil => rfl
  | cons e es ih =>
    have hlt := h e mem_cons_self
    unfold insertEntry
    rw [if_neg (List.lt_asymm hlt), if_neg, ih fun e' he' => h e' (mem_cons_of_mem _ he')]
    · rfl
    · rintro rfl
      exact List.lt_irrefl _ hlt

def reread (codec : Codec J) (tool : Tool) (e : Bytes × Value J) : Bytes × Value J :=
  (e.1, parseValue codec (stringOf e.2) (paramTypes tool e.1))

theorem paramsText_last (hne : es ≠ []) : ∃ body, paramsText es = body ++ lit "\n" := by
  rcases eq_nil_or_concat es with rfl | ⟨init, e, rfl⟩
  · exact absurd rfl hne
  · refine ⟨paramsText init ++ paramText e.1 (stringOf e.2), ?_⟩
    unfold paramsText
    rw [concat_eq_append, flatMap_append, flatMap_singleton, append_assoc]

theorem paramText_ne_nil (name text : Bytes) : paramText name text ≠ [] :=
  append_ne_nil_of_left_ne_nil (by decide) _

theorem parseParams_paramText (tool : Tool) {e : Bytes × Value J}
    (hname : ¬nameEnd <:+: e.1) (hvalue : ¬glimmerATEMParamClose <:+: stringOf e.2)
    (later : Bytes) (n : ℕ) (args : Arguments J) :
    parseParams codec tool (n + 1) (paramText e.1 (stringOf e.2) ++ later) args =
      parseParams codec tool n (trimPrefix later (lit "\n"))
        (args.insert e.1 (reread codec tool e).2) := by
  conv_lhs => unfold parseParams
  rw [if_neg (append_ne_nil_of_left_ne_nil (paramText_ne_nil _ _) _),
    cutParameter_paramText hname hvalue]
  rfl

variable {args : Arguments J}

/-- The loop reads one parameter after the other; `body` is what was written for them
without the last newline. -/
theorem parseParams_written (tool : Tool) (hname : ∀ e ∈ es, ¬nameEnd <:+: e.1)
    (hvalue : ∀ e ∈ es, ¬glimmerATEMParamClose <:+: stringOf e.2) {n : ℕ} {body : Bytes}
    (hbody : body ++ lit "\n" = paramsText es) (hn : body.length ≤ n)
    (hsorted : (args.entries ++ es).Pairwise fun e e' => e.1 < e'.1) :
    ∃ args', parseParams codec tool n body args = .ok args' ∧
      args'.entries = args.entries ++ es.map (reread codec tool) := by
  induction es generalizing n body args with
  | nil =>
    have hlen := congrArg List.length hbody
    rw [length_append] at hlen
    exact absurd hlen (Nat.succ_ne_zero _)
  | cons e es ih =>
    have hlast : ∀ e' ∈ args.entries, e'.1 < e.1 := fun e' he' =>
      (pairwise_append.mp hsorted).2.2 e' he' e mem_cons_self
    have hentries : (args.insert e.1 (reread codec tool e).2).entries =
        args.entries ++ [reread codec tool e] := insertEntry_last hlast
    have hparam := paramText_ne_nil e.1 (stringOf e.2)
    rw [paramsText_cons] at hbody
    by_cases hnil : es = []
    · -- the last parameter
      subst hnil
      have hone : body = paramText e.1 (stringOf e.2) ++ [] := by
        rw [append_nil]
        exact append_cancel_right hbody
      rw [hone, append_nil] at hn
      obtain ⟨n, rfl⟩ := Nat.exists_eq_succ_of_ne_zero
        (Nat.ne_of_gt (Nat.lt_of_lt_of_le (length_pos_iff.mpr hparam) hn))
      rw [hone, parseParams_paramText codec tool (hname e mem_cons_self) (hvalue e mem_cons_self)]
      refine ⟨args.insert e.1 (reread codec tool e).2, ?_, hentries⟩
      cases n <;> rfl
    · obtain ⟨body', hbody'⟩ := paramsText_last hnil
      have hmore : body = paramText e.1 (stringOf e.2) ++ (lit "\n" ++ body') := by
        rw [hbody'] at hbody
        refine append_cancel_right (hbody.trans ?_)
        simp only [append_assoc]
      rw [hmore, length_append, length_append] at hn
      have hpos := length_pos_iff.mpr hparam
      obtain ⟨n, rfl⟩ := Nat.exists_eq_succ_of_ne_zero (by omega : n ≠ 0)
      rw [hmore, parseParams_paramText codec tool (hname e mem_cons_self)
        (hvalue e mem_cons_self), trimPrefix_append]
      have hsorted' : ((args.insert e.1 (reread codec tool e).2).entries ++ es).Pairwise
          fun e e' => e.1 < e'.1 := by
        rw [hentries, append_assoc]
        obtain ⟨hl, hr, hlr⟩ := pairwise_append.mp hsorted
        obtain ⟨hhead, htail⟩ := pairwise_cons.mp hr
        refine pairwise_append.mpr ⟨hl, pairwise_cons.mpr ⟨hhead, htail⟩, fun a ha b hb => ?_⟩
        rcases mem_cons.mp hb with rfl | hb
        · exact hlast a ha
        · exact hlr a ha b (mem_cons_of_mem _ hb)
      obtain ⟨args', hparse, hargs'⟩ := ih (n := n) (fun e he => hname e (mem_cons_of_mem _ he))
        (fun e he => hvalue e (mem_cons_of_mem _ he)) hbody'.symm (by omega) hsorted'
      refine ⟨args', hparse, ?_⟩
      rw [hargs', hentries, append_assoc, map_cons]
      rfl

/-- The name of the call is cut off at its end. -/
theorem glimmerCutInvokeName_plain (hname : ¬nameEnd <:+: name ∧ 60 ∉ name)
    (rest : Bytes) : glimmerCutInvokeName (name ++ (nameEnd ++ rest)) = some (name, rest) := by
  have hterm : index (name ++ (nameEnd ++ rest)) nameEnd = some name.length := by
    refine (index_eq_some (by decide)).mpr ⟨occurs_middle _ _ _, fun j hj ho => ?_⟩
    have hcut := cut_plain (c := 34) (by decide) hname.1 rest
    exact ((cut_eq_some (by decide)).mp hcut).2 j hj ho
  have hdrop : (name ++ (nameEnd ++ rest)).drop (name.length + 2) = rest := by
    have hend : (nameEnd ++ rest).drop nameEnd.length = rest := drop_left
    rw [drop_length_add_append]
    exact hend
  have hresult : some ([] ++ (name ++ (nameEnd ++ rest)).take name.length,
      (name ++ (nameEnd ++ rest)).drop (name.length + 2)) = some (name, rest) := by
    rw [hdrop, take_left, nil_append]
  unfold glimmerCutInvokeName cutInvokeName
  rw [hterm]
  cases htag : index (name ++ (nameEnd ++ rest)) glimmerMessageTag with
  | none => exact hresult
  | some tagIdx =>
    -- a message tag in the name would begin with '<'
    have hlate : ¬tagIdx < name.length := by
      intro hlt
      have ho := ((index_eq_some (by decide)).mp htag).1
      have hget := ho.getElem? (k := 0) (by decide)
      rw [Nat.add_zero, getElem?_append_left hlt] at hget
      exact hname.2 (mem_of_getElem? hget)
    simp only
    rw [if_neg]
    · exact hresult
    · exact fun h => hlate (h _ rfl)

variable {s : Bytes}

theorem trimSpace_plain {b c : UInt8} (hb : s.head? = some b)
    (hc : s.getLast? = some c) (hb' : asciiSpace b = false) (hc' : asciiSpace c = false)
    (hlow : b < 0x80) (hlow' : c < 0x80) : Bytes.trimSpace s = s := by
  have h : Bytes.trimSpace ([] ++ (s ++ [])) = s :=
    trimSpace_padded (by simp) (by simp) hb hc hb' hc' hlow hlow'
  rwa [nil_append, append_nil] at h

theorem newline_space : ∀ x ∈ lit "\n", asciiSpace x = true :=
  forall_mem_singleton.mpr (by decide)

def invokeText (name params : Bytes) : Bytes :=
  glimmerATEMInvokeOpen ++ (name ++ (nameEnd ++ (lit "\n" ++ (params ++ glimmerATEMInvokeClose))))

theorem writeGlimmerATEM_strings (name : Bytes) (h : ∀ e ∈ args.entries, ∃ s, e.2 = .string s) :
    writeGlimmerATEM codec name args = .ok (glimmerATEMCallsOpen ++ (lit "\n" ++
      (invokeText name (paramsText args.entries) ++ lit "\n")) ++ glimmerATEMCallsClose) := by
  unfold writeGlimmerATEM
  rw [writeParams_strings codec h]
  unfold invokeText
  simp only [append_assoc]
  rfl

theorem getLast?_invokeText (name params : Bytes) : (invokeText name params).getLast? = some 62 := by
  have h : invokeText name params = (glimmerATEMInvokeOpen ++ (name ++ (nameEnd ++ (lit "\n" ++
      params)))) ++ glimmerATEMInvokeClose := by
    unfold invokeText
    simp only [append_assoc]
  rw [h, getLast?_append_of_ne_nil _ (by decide)]
  rfl

/-- The wrappers are cut off again. -/
theorem parseGlimmerATEM_invokeText (tool : Tool)
    (hname : ¬nameEnd <:+: name ∧ 60 ∉ name) (params : Bytes) :
    parseGlimmerATEM codec (glimmerATEMCallsOpen ++ (lit "\n" ++
      (invokeText name params ++ lit "\n")) ++ glimmerATEMCallsClose) tool =
      match parseParams codec tool (trimSuffix params (lit "\n")).length
        (trimSuffix params (lit "\n")) .empty with
      | .error e => .error e
      | .ok args => .ok (name, args) := by
  have houter : ∀ s : Bytes, Bytes.trimSpace (glimmerATEMCallsOpen ++ s ++ glimmerATEMCallsClose) =
      glimmerATEMCallsOpen ++ s ++ glimmerATEMCallsClose := by
    intro s
    refine trimSpace_plain (b := 60) (c := 62) rfl ?_ (by decide) (by decide) (by decide) (by decide)
    rw [getLast?_append_of_ne_nil _ (by decide)]
    rfl
  have hinner : Bytes.trimSpace (lit "\n" ++ (invokeText name params ++ lit "\n")) =
      invokeText name params :=
    trimSpace_padded (b := 60) (c := 62) newline_space newline_space rfl (getLast?_invokeText _ _)
      (by decide) (by decide) (by decide) (by decide)
  have hpre : glimmerATEMCallsOpen <+: glimmerATEMCallsOpen ++ (lit "\n" ++
      (invokeText name params ++ lit "\n")) ++ glimmerATEMCallsClose := by
    exact prefix_append _ _
  have hmid : ((glimmerATEMCallsOpen ++ (lit "\n" ++ (invokeText name params ++ lit "\n")) ++
      glimmerATEMCallsClose).take ((glimmerATEMCallsOpen ++ (lit "\n" ++
        (invokeText name params ++ lit "\n")) ++ glimmerATEMCallsClose).length -
          glimmerATEMCallsClose.length)).drop glimmerATEMCallsOpen.length =
      lit "\n" ++ (invokeText name params ++ lit "\n") := by
    rw [take_length_sub, drop_left]
  have hinvoke : glimmerATEMInvokeClose <:+ invokeText name params := by
    refine ⟨glimmerATEMInvokeOpen ++ (name ++ (nameEnd ++ (lit "\n" ++ params))), ?_⟩
    unfold invokeText
    simp only [append_assoc]
  have hcut : glimmerCutInvokeName ((invokeText name params).drop glimmerATEMInvokeOpen.length) =
      some (name, lit "\n" ++ (params ++ glimmerATEMInvokeClose)) := by
    exact glimmerCutInvokeName_plain hname _
  have hparams : trimNewlines ((lit "\n" ++ (params ++ glimmerATEMInvokeClose)).take
      ((lit "\n" ++ (params ++ glimmerATEMInvokeClose)).length - glimmerATEMInvokeClose.length)) =
      trimSuffix params (lit "\n") := by
    rw [← append_assoc, take_length_sub]
    unfold trimNewlines
    rw [trimPrefix_append]
  unfold parseGlimmerATEM
  rw [houter]
  rw [if_neg (not_not_intro ⟨hpre, suffix_append _ _⟩), hmid, hinner,
    if_neg (not_not_intro ⟨prefix_append _ _, hinvoke⟩), hcut]
  simp only
  rw [if_neg, hparams]
  rw [length_append, length_append]
  omega

/-- **Round trip.** What is written is read back as the values that `parseValue` makes of the
texts. -/
theorem parse_write {tool : Tool} (h : Callable tool name args) :
    ∃ text args', writeGlimmerATEM codec name args = .ok text ∧
      parseGlimmerATEM codec text tool = .ok (name, args') ∧
      args'.entries = args.entries.map (reread codec tool) := by
  have hstring : ∀ e ∈ args.entries, ∃ s, e.2 = .string s := fun e he =>
    (h.value_plain e he).imp fun s hs => hs.1
  have hvalue : ∀ e ∈ args.entries, ¬glimmerATEMParamClose <:+: stringOf e.2 := by
    intro e he
    obtain ⟨s, hs, hclose, -⟩ := h.value_plain e he
    rwa [hs]
  rw [writeGlimmerATEM_strings codec name hstring]
  obtain ⟨args', hparse, hargs'⟩ : ∃ args', parseParams codec tool
      (trimSuffix (paramsText args.entries) (lit "\n")).length
      (trimSuffix (paramsText args.entries) (lit "\n")) .empty = .ok args' ∧
      args'.entries = args.entries.map (reread codec tool) := by
    by_cases hnil : args.entries = []
    · rw [hnil]
      exact ⟨.empty, rfl, rfl⟩
    · obtain ⟨body, hbody⟩ := paramsText_last hnil
      rw [hbody, trimSuffix_append]
      exact parseParams_written codec tool h.param_plain hvalue hbody.symm le_rfl args.sorted
  refine ⟨_, args', rfl, ?_, hargs'⟩
  rw [parseGlimmerATEM_invokeText codec tool h.name_plain, hparse]

/-! ## §6  Newlines -/

theorem trimNewlines_eq_self_iff : trimNewlines s = s ↔ ¬lit "\n" <+: s ∧ ¬lit "\n" <:+ s := by
  unfold trimNewlines
  rw [← trimPrefix_eq_self_iff (by decide), ← trimSuffix_eq_self_iff (by decide)]
  constructor
  · intro h
    have hpre : trimPrefix s (lit "\n") = s := by
      by_contra hne
      rw [trimPrefix_eq_self_iff (by decide), not_not] at hne
      obtain ⟨t, rfl⟩ := hne
      rw [trimPrefix_append] at h
      have hlen := congrArg List.length h
      have := trimSuffix_length_le t (lit "\n")
      rw [length_append] at hlen
      have : (lit "\n").length = 1 := rfl
      omega
    exact ⟨hpre, by rwa [hpre] at h⟩
  · rintro ⟨hpre, hsuf⟩
    rw [hpre, hsuf]

/-- A string is read back exactly if it has no newline at its ends. -/
theorem parseValue_string_iff {types : List String}
    (htypes : ∀ type ∈ types, type = "string") (hnull : ¬lowerIs s "null") :
    parseValue codec s types = .string s ↔ ¬lit "\n" <+: s ∧ ¬lit "\n" <:+ s := by
  have htried : ["boolean", "integer", "number", "array", "object"].filter (· ∈ types) = [] := by
    refine filter_eq_nil_iff.mpr fun type htype hmem => ?_
    rw [htypes type (of_decide_eq_true hmem)] at htype
    exact absurd htype (by decide)
  have hvalue : parseValue codec s types =
      if lowerIs (trimNewlines s) "null" then .null else .string (trimNewlines s) := by
    unfold parseValue
    rw [htried]
    simp only
    split
    · rfl
    · exact ite_self _
  rw [hvalue, ← trimNewlines_eq_self_iff]
  constructor
  · intro h
    split at h
    · cases h
    · exact Value.string.inj h
  · intro h
    rw [h, if_neg hnull]

/-- A call whose arguments are strings comes back as it was exactly if no string has a
newline at one of its ends. -/
theorem parse_write_iff (codec : Codec J) {tool : Tool} {name : Bytes} {args : Arguments J}
    (h : Callable tool name args) :
    (∃ text, writeGlimmerATEM codec name args = .ok text ∧
      parseGlimmerATEM codec text tool = .ok (name, args)) ↔
    ∀ e ∈ args.entries, ∀ s, e.2 = .string s → ¬lit "\n" <+: s ∧ ¬lit "\n" <:+ s := by
  obtain ⟨text, args', hwrite, hparse, hargs'⟩ := parse_write codec h
  have hreread : ∀ e ∈ args.entries, reread codec tool e = e ↔
      ∀ s, e.2 = .string s → ¬lit "\n" <+: s ∧ ¬lit "\n" <:+ s := by
    intro e he
    obtain ⟨s, hs, -, hnull⟩ := h.value_plain e he
    have hvalue := parseValue_string_iff codec (h.declared e he) hnull
    unfold reread
    rw [Prod.ext_iff, hs]
    constructor
    · intro heq t ht
      cases ht
      exact hvalue.mp heq.2
    · exact fun hplain => ⟨rfl, hvalue.mpr (hplain s rfl)⟩
  have hsame : args.entries.map (reread codec tool) = args.entries ↔
      ∀ e ∈ args.entries, reread codec tool e = e := by
    conv_lhs => rw [← map_id args.entries, map_map]
    exact map_inj_left
  constructor
  · rintro ⟨text', hwrite', hparse'⟩
    cases hwrite.symm.trans hwrite'
    cases hparse.symm.trans hparse'
    exact fun e he => (hreread e he).mp (hsame.mp hargs'.symm e he)
  intro hplain
  refine ⟨text, hwrite, ?_⟩
  rw [hparse]
  have heq : args' = args := Arguments.ext (hargs'.trans
    (hsame.mpr fun e he => (hreread e he).mpr (hplain e he)))
  rw [heq]

/-- A tool with a parameter of type string. -/
def writeTool : Tool where
  properties name := if name = lit "content" then some ⟨[], ["string"]⟩ else none

/-- No floats, arrays or objects. -/
def stringsOnly : Codec Empty := ⟨nofun, nofun, fun _ => none, fun _ => none, fun _ => none⟩

def contentArgument (s : Bytes) : Arguments Empty :=
  ⟨[(lit "content", .string s)], pairwise_singleton _ _⟩

theorem callable_write (hclose : ¬glimmerATEMParamClose <:+: s)
    (hnull : ¬lowerIs s "null") : Callable writeTool (lit "write") (contentArgument s) where
  name_plain := by decide
  param_plain e he := by
    rw [mem_singleton.mp he]
    exact (by decide : ¬nameEnd <:+: lit "content")
  value_plain e he := by
    rw [mem_singleton.mp he]
    exact ⟨s, rfl, hclose, hnull⟩
  declared e he type htype := by
    rw [mem_singleton.mp he] at htype
    exact mem_singleton.mp htype

theorem parse_write_iff_text :
    (∃ text, writeGlimmerATEM stringsOnly (lit "write") (contentArgument (lit "a\nb")) = .ok text ∧
      parseGlimmerATEM stringsOnly text writeTool =
        .ok (lit "write", contentArgument (lit "a\nb"))) ↔
    ∀ e ∈ (contentArgument (lit "a\nb")).entries, ∀ s, e.2 = .string s →
      ¬lit "\n" <+: s ∧ ¬lit "\n" <:+ s :=
  parse_write_iff stringsOnly (callable_write (by decide) (by decide))

/-- A newline at the beginning of a string is lost. -/
theorem leading_newline_lost :
    ¬∀ (tool : Tool) (name : Bytes) (args : Arguments Empty), Callable tool name args →
      ∃ text, writeGlimmerATEM stringsOnly name args = .ok text ∧
        parseGlimmerATEM stringsOnly text tool = .ok (name, args) := by
  intro h
  have hcall := callable_write (s := lit "\nfoo") (by decide) (by decide)
  obtain ⟨text, hwrite, hparse⟩ := h _ _ _ hcall
  obtain ⟨text', args', hwrite', hparse', hargs'⟩ := parse_write stringsOnly hcall
  cases hwrite.symm.trans hwrite'
  cases hparse.symm.trans hparse'
  exact absurd hargs' (by decide)

end Ollama.Parsers.Glimmer
