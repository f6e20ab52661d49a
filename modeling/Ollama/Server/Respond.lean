import Ollama.Api
import Mathlib.Data.List.Forall2

/-!
# What the chat handler answers

`server/routes.go`: what comes through the handler's channel; of a request that is not
streamed, the one response that is made of it; of a streamed one, the lines that
`streamResponse` hands to the writer in front of it. A line is a JSON object. It carries the
arguments of the tool calls as JSON texts, and what writes and reads these (`marshal`,
`unmarshal`) is a parameter.
-/

namespace Ollama.Server

open Api

variable {α : Type}

/-! ## §1  Values -/

/-- A value on the handler's channel: a response, or `gin.H{"error": …, "status": …}`. -/
inductive Value (α : Type)
  | response (r : ChatResponse α)
  | error (error : Text) (status : Option ℤ)

/-- `Done` is true exactly on the last response. -/
inductive DoneLast : List (ChatResponse α) → Prop
  | last (r : ChatResponse α) (h : r.done = true) : DoneLast [r]
  | cons (r : ChatResponse α) {rs : List (ChatResponse α)} (h : r.done = false)
      (later : DoneLast rs) : DoneLast (r :: rs)

/-! ## §2  One response -/

structure Collected (α : Type) where
  resp : ChatResponse α := {}
  toolCalls : List (ToolCall α) := []
  sbThinking : Text := []
  sbContent : Text := []

namespace Collected

def add (tools : Bool) (a : Collected α) (t : ChatResponse α) : Collected α :=
  { resp := t
    toolCalls := if tools then a.toolCalls ++ t.message.toolCalls else a.toolCalls
    sbThinking := a.sbThinking ++ t.message.thinking
    sbContent := a.sbContent ++ t.message.content }

def response (a : Collected α) : ChatResponse α :=
  { a.resp with
    message := { a.resp.message with
      content := a.sbContent
      thinking := a.sbThinking
      toolCalls := if a.toolCalls = [] then a.resp.message.toolCalls else a.toolCalls } }

end Collected

def collect (tools : Bool) : Collected α → List (Value α) → Except (ℤ × Text) (ChatResponse α)
  | a, [] => .ok a.response
  | a, .response t :: rest => collect tools (a.add tools t) rest
  | _, .error msg status :: _ => .error (status.getD 500, msg)

/-- The response to a request that is not streamed, when no value is an error. `tools`: the
request has tools. -/
def aggregate (tools : Bool) (rs : List (ChatResponse α)) : ChatResponse α :=
  (rs.foldl (Collected.add tools) {}).response

theorem collect_response (tools : Bool) (rs : List (ChatResponse α)) (a : Collected α) :
    collect tools a (rs.map .response) = .ok (rs.foldl (Collected.add tools) a).response := by
  induction rs generalizing a with
  | nil => rfl
  | cons t rs ih => exact ih (a.add tools t)

theorem foldl_add (tools : Bool) (rs : List (ChatResponse α)) (a : Collected α) :
    rs.foldl (Collected.add tools) a =
      { resp := rs.getLast?.getD a.resp
        toolCalls := a.toolCalls ++ if tools then rs.flatMap (·.message.toolCalls) else []
        sbThinking := a.sbThinking ++ rs.flatMap (·.message.thinking)
        sbContent := a.sbContent ++ rs.flatMap (·.message.content) } := by
  induction rs generalizing a with
  | nil => cases tools <;> simp
  | cons t rs ih =>
      rw [List.foldl_cons, ih]
      cases tools <;> simp [Collected.add, List.getLast?_cons]

@[simp] theorem aggregate_content (tools : Bool) (rs : List (ChatResponse α)) :
    (aggregate tools rs).message.content = rs.flatMap (·.message.content) := by
  simp [aggregate, foldl_add, Collected.response]

@[simp] theorem aggregate_thinking (tools : Bool) (rs : List (ChatResponse α)) :
    (aggregate tools rs).message.thinking = rs.flatMap (·.message.thinking) := by
  simp [aggregate, foldl_add, Collected.response]

@[simp] theorem aggregate_doneReason (tools : Bool) (rs : List (ChatResponse α)) :
    (aggregate tools rs).doneReason = (rs.getLast?.getD {}).doneReason := by
  simp [aggregate, foldl_add, Collected.response]

theorem aggregate_toolCalls (rs : List (ChatResponse α)) :
    (aggregate true rs).message.toolCalls = rs.flatMap (·.message.toolCalls) := by
  simp only [aggregate, foldl_add, Collected.response, List.nil_append, if_true]
  split
  · next none =>
    rw [none]
    rcases h : rs.getLast? with - | r
    · rfl
    · exact List.flatMap_eq_nil_iff.mp none r (List.mem_of_getLast? h)
  · rfl

theorem aggregate_lastToolCalls (rs : List (ChatResponse α)) :
    (aggregate false rs).message.toolCalls = (rs.getLast?.getD {}).message.toolCalls := by
  simp [aggregate, foldl_add, Collected.response]

theorem collect_ok {tools : Bool} {a : Collected α} {vs : List (Value α)} {body : ChatResponse α}
    (ok : collect tools a vs = .ok body) : ∃ rs : List (ChatResponse α), vs = rs.map .response := by
  induction vs generalizing a with
  | nil => exact ⟨[], rfl⟩
  | cons v vs ih =>
      cases v with
      | response t =>
          obtain ⟨rs, rfl⟩ := ih ok
          exact ⟨t :: rs, rfl⟩
      | error msg status => cases ok

/-! ## §3  Lines -/

inductive Line
  | response (r : ChatResponse Text)
  | error (error : Text)
  deriving DecidableEq

/-- `json.Marshal` of a tool call: its arguments may have no JSON. -/
def encodeToolCall (marshal : α → Option Text) (tc : ToolCall α) : Option (ToolCall Text) :=
  (marshal tc.function.arguments).map fun args =>
    { id := tc.id, function := { tc.function with arguments := args } }

/-- `json.Marshal` of a response. -/
def encodeResponse (marshal : α → Option Text) (r : ChatResponse α) : Option (ChatResponse Text) :=
  (r.message.toolCalls.mapM (encodeToolCall marshal)).map fun tcs =>
    { r with message := { r.message with toolCalls := tcs } }

def decodeToolCall (unmarshal : Text → Option α) (tc : ToolCall Text) : Option (ToolCall α) :=
  (unmarshal tc.function.arguments).map fun args =>
    { id := tc.id, function := { tc.function with arguments := args } }

/-- `json.Unmarshal` of a line into a response. Fields that it does not know are ignored, so
that an error gives the empty response. -/
def Line.toResponse (unmarshal : Text → Option α) : Line → Option (ChatResponse α)
  | .response r =>
      (r.message.toolCalls.mapM (decodeToolCall unmarshal)).map fun tcs =>
        { r with message := { r.message with toolCalls := tcs } }
  | .error _ => some {}

/-- The `error` field of a line. -/
def Line.errorText : Line → Text
  | .response _ => []
  | .error e => e

/-- A response writer in front of the handler. `write` gets the status and a line: what it
sends, or `none` for an error. -/
structure Writer (σ ω : Type) where
  write : ℤ → σ → Line → Option (σ × List ω)

/-- `streamResponse`, with what the writer sends. `written`: something has been sent, and the
status is 200. -/
def streamResponse {σ ω : Type} (marshal : α → Option Text) (w : Writer σ ω) :
    σ → Bool → List (Value α) → List ω
  | _, _, [] => []
  | s, written, .error e status :: _ =>
      ((w.write (if written then 200 else status.getD 500) s (.error e)).map (·.2)).getD []
  | s, written, .response r :: rest =>
      match (encodeResponse marshal r).bind fun line => w.write 200 s (.response line) with
      | none => []
      | some (s, sent) => sent ++ streamResponse marshal w s (written || !sent.isEmpty) rest

def relay (marshal : α → Option Text) (unmarshal : Text → Option α) (r : ChatResponse α) :
    Option (ChatResponse α) :=
  (encodeResponse marshal r).bind fun line => (Line.response line).toResponse unmarshal

/-- A tool call comes out of its line as `tc'`. -/
structure RelayedCall (marshal : α → Option Text) (unmarshal : Text → Option α)
    (tc tc' : ToolCall α) : Prop where
  id : tc'.id = tc.id
  index : tc'.function.index = tc.function.index
  name : tc'.function.name = tc.function.name
  arguments : (marshal tc.function.arguments).bind unmarshal = some tc'.function.arguments

theorem mapM_eq_some {β γ : Type} {f : β → Option γ} {xs : List β} {ys : List γ} :
    xs.mapM f = some ys ↔ List.Forall₂ (fun x y => f x = some y) xs ys := by
  induction xs generalizing ys with
  | nil => cases ys <;> simp
  | cons x xs ih =>
      cases ys with
      | nil => simp [Option.bind_eq_some_iff]
      | cons y ys => simp [Option.bind_eq_some_iff, ih]

theorem relayedCall_iff {marshal : α → Option Text} {unmarshal : Text → Option α}
    {tc tc' : ToolCall α} :
    (∃ line, encodeToolCall marshal tc = some line ∧ decodeToolCall unmarshal line = some tc') ↔
      RelayedCall marshal unmarshal tc tc' := by
  constructor
  · rintro ⟨line, encoded, decoded⟩
    obtain ⟨args, written, rfl⟩ := Option.map_eq_some_iff.mp encoded
    obtain ⟨args', read, rfl⟩ := Option.map_eq_some_iff.mp decoded
    exact ⟨rfl, rfl, rfl, by rw [written]; exact read⟩
  rintro ⟨hid, hindex, hname, hargs⟩
  obtain ⟨args, written, read⟩ := Option.bind_eq_some_iff.mp hargs
  refine ⟨_, by rw [encodeToolCall, written]; rfl, ?_⟩
  rw [decodeToolCall, read]
  obtain ⟨id', ⟨index', name', args'⟩⟩ := tc'
  simp_all

/-- What comes out of a line is the response with other arguments. -/
theorem relay_eq_some {marshal : α → Option Text} {unmarshal : Text → Option α}
    {r r' : ChatResponse α} :
    relay marshal unmarshal r = some r' ↔
      ∃ tcs, List.Forall₂ (RelayedCall marshal unmarshal) r.message.toolCalls tcs ∧
        r' = { r with message := { r.message with toolCalls := tcs } } := by
  have calls : ∀ tcs tcs' : List (ToolCall α),
      (∃ lines, List.Forall₂ (fun tc line => encodeToolCall marshal tc = some line) tcs lines ∧
        List.Forall₂ (fun line tc' => decodeToolCall unmarshal line = some tc') lines tcs') ↔
        List.Forall₂ (RelayedCall marshal unmarshal) tcs tcs' := by
    intro tcs tcs'
    constructor
    · rintro ⟨lines, encoded, decoded⟩
      induction encoded generalizing tcs' with
      | nil => cases decoded; exact .nil
      | cons one _ ih =>
          cases decoded with
          | cons one' rest' => exact .cons (relayedCall_iff.mp ⟨_, one, one'⟩) (ih _ rest')
    · intro h
      induction h with
      | nil => exact ⟨[], .nil, .nil⟩
      | cons one _ ih =>
          obtain ⟨line, encoded, decoded⟩ := relayedCall_iff.mpr one
          obtain ⟨lines, encoded', decoded'⟩ := ih
          exact ⟨line :: lines, .cons encoded encoded', .cons decoded decoded'⟩
  rw [relay, Option.bind_eq_some_iff]
  constructor
  · rintro ⟨line, encoded, decoded⟩
    obtain ⟨lines, written, rfl⟩ := Option.map_eq_some_iff.mp encoded
    obtain ⟨tcs, read, rfl⟩ := Option.map_eq_some_iff.mp decoded
    exact ⟨tcs, (calls _ _).mp ⟨lines, mapM_eq_some.mp written, mapM_eq_some.mp read⟩, rfl⟩
  · rintro ⟨tcs, relayed, rfl⟩
    obtain ⟨lines, encoded, decoded⟩ := (calls _ _).mpr relayed
    refine ⟨_, by rw [encodeResponse, mapM_eq_some.mpr encoded]; rfl, ?_⟩
    rw [Line.toResponse, mapM_eq_some.mpr decoded]
    rfl

end Ollama.Server
