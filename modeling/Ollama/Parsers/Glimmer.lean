import Ollama.Api
import Ollama.Parsers.Parser

/-!
# The glimmer parser

`model/parsers/glimmer.go`: messages with a header that names the recipient and a body, which is
thinking, content or a tool call. What is read out of the body of a tool call is a parameter.
-/

namespace Ollama.Parsers

open Lib List
open Api (ToolCall)

def glimmerStartTag : Text := "<|start|>".toList

def glimmerMessageTag : Text := "<|message|>".toList

def glimmerEndMessageTag : Text := "<|eom|>".toList

def glimmerEndTurnTag : Text := "<|eot|>".toList

def glimmerAssistantHeaderPrefix : Text := glimmerStartTag ++ "assistant".toList

def glimmerATEMCallsOpen : Text := "<atem:function_calls>".toList

def glimmerATEMCallsClose : Text := "</atem:function_calls>".toList

/-! ## §1  Tools -/

/-- A tool of the request: its name, and what `parseGlimmerATEM` reads of it. -/
structure GlimmerTool (T : Type) where
  name : Text
  definition : T

variable {T α : Type}

/-- `glimmerToolsByName`: the map, with the later of two entries first. -/
def glimmerToolsByName (tools : List (GlimmerTool T)) : List (Text × GlimmerTool T) :=
  ((tools.filter fun tool => trimSpace tool.name ≠ []).map fun tool =>
    (trimSpace tool.name, tool)).reverse

/-- `tools[name].Function.Name != ""` -/
def declared (tools : List (Text × GlimmerTool T)) (name : Text) : Bool :=
  match tools.lookup name with
  | some tool => tool.name ≠ []
  | none => false

def glimmerResolveToolName (tools : List (Text × GlimmerTool T)) (name : Text) : Option Text :=
  if declared tools name then some name
  else
    match cut name ['.'] with
    | none => none
    | some (ns, fn) =>
        if declared tools fn then
          let fnNS := match cut fn ['.'] with
            | some (fnNS, _) => fnNS
            | none => fn
          if ns = fnNS then some fn else none
        else none

/-- What is read out of the body of a tool call: the name and the arguments, and the name alone;
and `%q`. -/
structure ATEM (T α : Type) where
  parseGlimmerATEM : Text → T → Except Error (Text × α)
  glimmerATEMInvokeName : Text → Text
  quote : Text → String

inductive GlimmerParserState
  | header
  | content
  | thinking
  | tool
  deriving DecidableEq

structure GlimmerParser (T : Type) where
  state : GlimmerParserState
  buffer : Text
  recipient : Text
  tools : List (Text × GlimmerTool T)
  callIndex : ℤ
  emitThinking : Bool
  contentStreamed : Bool

inductive GlimmerEvent (α : Type)
  | content (content : Text)
  | thinking (thinking : Text)
  | toolCall (toolCall : ToolCall α)
  | failed (e : Error)

namespace GlimmerParser

/-- `Init`, after `SetThinkValue` -/
def init (tools : List (GlimmerTool T)) (think : Option Bool) : GlimmerParser T :=
  { state := .header
    buffer := []
    recipient := []
    tools := glimmerToolsByName tools
    callIndex := 0
    emitThinking := think.getD true
    contentStreamed := false }

/-! ## §2  Headers -/

def setStateForRecipient (p : GlimmerParser T) : GlimmerParser T :=
  { p with
    state :=
      if p.recipient = "self".toList then .thinking
      else if (glimmerResolveToolName p.tools p.recipient).isSome then .tool
      else .content }

/-- The rest of `consumeHeader`: whether there is progress, and the text that is content since no
header came. -/
def readHeader (done : Bool) (p : GlimmerParser T) : Bool × Text × GlimmerParser T :=
  match cut p.buffer glimmerMessageTag with
  | none => if done then (p.buffer ≠ [], p.buffer, { p with buffer := [] }) else (false, [], p)
  | some (header, body) =>
      let recipient := trimSpace header
      let recipient :=
        if "to=".toList <+: recipient then recipient.drop "to=".toList.length else recipient
      (true, [], setStateForRecipient { p with buffer := body, recipient := trimSpace recipient })

def consumeHeader (done : Bool) (p : GlimmerParser T) : Bool × Text × GlimmerParser T :=
  if glimmerAssistantHeaderPrefix <+: p.buffer then
    readHeader done { p with buffer := p.buffer.drop glimmerAssistantHeaderPrefix.length }
  else if p.buffer <+: glimmerAssistantHeaderPrefix ∧ ['<'] <+: p.buffer ∧ done = false then
    (false, [], p)
  else readHeader done p

inductive GlimmerHeaderStatus
  | invalid
  | pending
  | valid
  deriving DecidableEq

def validAssistantRecipient (p : GlimmerParser T) (recipient : Text) : Bool :=
  recipient = "self".toList ∨ recipient = "user".toList ∨ declared p.tools recipient = true

/-- The cutset of `strings.TrimLeft` and the characters of `strings.ContainsAny`. -/
def isBlankChar (r : Char) : Bool := r = ' ' ∨ r = '\t' ∨ r = '\r' ∨ r = '\n'

/-- A recipient that no message tag follows yet. -/
def recipientStatus (recipientAndAfter : Text) : GlimmerHeaderStatus :=
  if recipientAndAfter = [] then .pending
  else if recipientAndAfter.any isBlankChar then .invalid
  else
    match cut recipientAndAfter ['<'] with
    | some (_, after) => if '<' :: after <+: glimmerMessageTag then .pending else .invalid
    | none => .pending

def assistantHeaderStatus (p : GlimmerParser T) (s : Text) (done : Bool) : GlimmerHeaderStatus :=
  let recipientPrefix := " to=".toList
  if s.length < glimmerAssistantHeaderPrefix.length then
    if done = false ∧ s <+: glimmerAssistantHeaderPrefix then .pending else .invalid
  else if ¬glimmerAssistantHeaderPrefix <+: s then .invalid
  else
    let rest := s.drop glimmerAssistantHeaderPrefix.length
    if glimmerMessageTag <+: rest then .valid
    else if done = false ∧ rest <+: glimmerMessageTag then .pending
    else if rest = [] then if done then .invalid else .pending
    else if rest.length < recipientPrefix.length then
      if done = false ∧ rest <+: recipientPrefix then .pending else .invalid
    else if ¬recipientPrefix <+: rest then .invalid
    else
      let recipientAndAfter := rest.drop recipientPrefix.length
      match cut recipientAndAfter glimmerMessageTag with
      | some (recipient, _) => if validAssistantRecipient p recipient then .valid else .invalid
      | none => if done then .invalid else recipientStatus recipientAndAfter

/-- The loop of `implicitHeaderStart`: the position, and whether it waits. Every turn searches
behind a start tag, so that `s.length + 1` turns are enough. -/
def findImplicitHeader (p : GlimmerParser T) (done : Bool) (s : Text) : ℕ → ℕ → Option (ℕ × Bool)
  | 0, _ => none
  | fuel + 1, search =>
      match index (s.drop search) glimmerStartTag with
      | some i =>
          let i := search + i
          match assistantHeaderStatus p (s.drop i) done with
          | .valid => some (i, false)
          | .pending => some (i, true)
          | .invalid => findImplicitHeader p done s fuel (i + glimmerStartTag.length)
      | none =>
          let keep := overlap (s.drop search) glimmerAssistantHeaderPrefix
          if done = false ∧ 0 < keep then some (s.length - keep, true) else none

def implicitHeaderStart (p : GlimmerParser T) (s : Text) (search : ℕ) (done : Bool) :
    Option (ℕ × Bool) :=
  findImplicitHeader p done s (s.length + 1) search

/-! ## §3  Bodies -/

def earlier : Option (ℕ × ℕ) → Option (ℕ × ℕ) → Option (ℕ × ℕ)
  | none, m => m
  | some m, none => some m
  | some m, some m' => if m'.1 < m.1 then some m' else some m

def glimmerBodyTerminator (s : Text) : Option (ℕ × ℕ) :=
  earlier ((index s glimmerEndMessageTag).map fun i => (i, glimmerEndMessageTag.length))
    ((index s glimmerEndTurnTag).map fun i => (i, glimmerEndTurnTag.length))

def holdContent (p : GlimmerParser T) (acc : Text) : Bool :=
  if p.state ≠ .content ∨ p.contentStreamed = true ∨ p.tools = [] then false
  else
    let trimmed := acc.dropWhile isBlankChar
    trimmed <+: glimmerATEMCallsOpen ∨ glimmerATEMCallsOpen <+: trimmed

/-- What `consumeBody` returns. -/
structure Body where
  progress : Bool
  body : Text
  complete : Bool
  deriving DecidableEq

def takeBody (p : GlimmerParser T) (stop rest : ℕ) : Body × GlimmerParser T :=
  (⟨true, p.buffer.take stop, true⟩, { p with buffer := p.buffer.drop rest })

def takePart (p : GlimmerParser T) (stop : ℕ) : Body × GlimmerParser T :=
  (⟨p.buffer.take stop ≠ [], p.buffer.take stop, false⟩, { p with buffer := p.buffer.drop stop })

/-- `consumeBody` when neither a terminator nor an implicit header ends the body. `wait`: where
an implicit header may begin. -/
def consumeOpen (done hold : Bool) (wait : Option ℕ) (p : GlimmerParser T) :
    Body × GlimmerParser T :=
  if done then (⟨p.buffer ≠ [] ∨ p.state = .tool, p.buffer, true⟩, { p with buffer := [] })
  else if hold then (⟨false, [], false⟩, p)
  else
    match wait with
    | some i => takePart p i
    | none =>
        let keep := max (overlap p.buffer glimmerEndMessageTag) (overlap p.buffer glimmerEndTurnTag)
        if p.buffer.length = keep then (⟨false, [], false⟩, p)
        else takePart p (p.buffer.length - keep)

def consumeBody (done : Bool) (p : GlimmerParser T) : Body × GlimmerParser T :=
  let hold := p.state = .tool ∨ holdContent p p.buffer = true
  let controlStart :=
    if hold then
      match index p.buffer glimmerATEMCallsClose with
      | some close => close + glimmerATEMCallsClose.length
      | none => p.buffer.length
    else 0
  let terminator := (glimmerBodyTerminator (p.buffer.drop controlStart)).map fun m =>
    (controlStart + m.1, m.2)
  match implicitHeaderStart p p.buffer controlStart done, terminator with
  | some (i, false), none => takeBody p i i
  | some (i, false), some (idx, markerLen) =>
      if i < idx then takeBody p i i else takeBody p idx (idx + markerLen)
  | _, some (idx, markerLen) => takeBody p idx (idx + markerLen)
  | some (i, true), none => consumeOpen done hold (some i) p
  | none, none => consumeOpen done hold none p

/-! ## §4  The parser -/

variable (atem : ATEM T α)

def newToolCall (p : GlimmerParser T) (name : Text) (args : α) : ToolCall α × GlimmerParser T :=
  ({ function := { name := name, arguments := args, index := p.callIndex } },
    { p with callIndex := p.callIndex + 1 })

/-- `contentToolCallFallback`, with `none` for `false`. -/
def contentToolCallFallback (p : GlimmerParser T) (body : Text) (complete : Bool) :
    Option (ToolCall α × GlimmerParser T) :=
  if complete = false ∨ p.contentStreamed = true ∨ p.tools = [] then none
  else
    let trimmed := trimSpace body
    if ¬glimmerATEMCallsOpen <+: trimmed ∨ ¬glimmerATEMCallsClose <:+ trimmed then none
    else
      (glimmerResolveToolName p.tools (atem.glimmerATEMInvokeName trimmed)).bind fun resolved =>
        (p.tools.lookup resolved).bind fun tool =>
          match atem.parseGlimmerATEM trimmed tool.definition with
          | .ok (_, args) => some (newToolCall p resolved args)
          | .error _ => none

def parseToolCall (p : GlimmerParser T) (body : Text) :
    Except Error (ToolCall α × GlimmerParser T) :=
  if p.recipient = [] then .error "empty Glimmer function name"
  else
    match (glimmerResolveToolName p.tools p.recipient).bind fun recipient =>
        (p.tools.lookup recipient).map fun tool => (recipient, tool) with
    | none => .error ("undeclared Glimmer function " ++ atem.quote p.recipient)
    | some (recipient, tool) =>
        match atem.parseGlimmerATEM body tool.definition with
        | .error e => .error ("parse Glimmer call to " ++ String.ofList p.recipient ++ ": " ++ e)
        | .ok (name, args) =>
            if glimmerResolveToolName p.tools name = some recipient then
              .ok (newToolCall p recipient args)
            else
              .error ("Glimmer recipient " ++ atem.quote p.recipient ++
                " does not match ATEM invoke " ++ atem.quote name)

def finish (p : GlimmerParser T) (complete : Bool) : GlimmerParser T :=
  if complete then { p with state := .header, recipient := [], contentStreamed := false } else p

def contentEvent (content : Text) : List (GlimmerEvent α) :=
  if content = [] then [] else [.content content]

/-- What `Add` does with a body. An error ends the loop. -/
def useBody (p : GlimmerParser T) (body : Body) :
    List (GlimmerEvent α) × GlimmerParser T × Bool :=
  match p.state with
  | .content =>
      match contentToolCallFallback atem p body.body body.complete with
      | some (call, p) => ([.toolCall call], finish p body.complete, body.progress)
      | none =>
          if body.body = [] then ([], finish p body.complete, body.progress)
          else ([.content body.body], finish { p with contentStreamed := true } body.complete,
            body.progress)
  | .thinking =>
      (if p.emitThinking then [.thinking body.body] else [], finish p body.complete, body.progress)
  | .tool =>
      if body.complete then
        match parseToolCall atem p body.body with
        | .error e => ([.failed e], p, false)
        | .ok (call, p) => ([.toolCall call], finish p true, body.progress)
      else ([], p, body.progress)
  | .header => ([], finish p body.complete, body.progress)

/-- One turn of the loop of `Add`. -/
def turn (done : Bool) (p : GlimmerParser T) : List (GlimmerEvent α) × GlimmerParser T × Bool :=
  if p.state = .header then
    let (progress, fallback, p) := consumeHeader done p
    (contentEvent fallback, p, progress)
  else
    let (body, p) := consumeBody done p
    useBody atem p body

/-- The turns that the loop still goes on for, at most. -/
def turns (p : GlimmerParser T) : ℕ := 2 * p.buffer.length + if p.state = .header then 0 else 1

def collect : List (GlimmerEvent α) → Response (ToolCall α)
  | [] => .none
  | .content content :: events => ⟨content, [], [], none⟩ ++ collect events
  | .thinking thinking :: events => ⟨[], thinking, [], none⟩ ++ collect events
  | .toolCall call :: events => ⟨[], [], [call], none⟩ ++ collect events
  | .failed e :: events => ⟨[], [], [], some e⟩ ++ collect events

def add (s : Text) (done : Bool) (p : GlimmerParser T) :
    Response (ToolCall α) × GlimmerParser T :=
  let p := { p with buffer := p.buffer ++ s }
  let out := drain (turn atem done) (turns p + 1) p
  (collect out.1, out.2)

/-! ## §5  Its loop ends -/

variable {atem} {done : Bool} {p : GlimmerParser T}

theorem turns_le (p : GlimmerParser T) : turns p ≤ 2 * p.buffer.length + 1 := by
  unfold turns
  split <;> omega

theorem readHeader_turns (h : (readHeader done p).1 = true) :
    turns (readHeader done p).2.2 < 2 * p.buffer.length := by
  unfold readHeader at h ⊢
  cases hcut : cut p.buffer glimmerMessageTag with
  | some x =>
    have hlen := cut_length (by decide) hcut
    have htag : glimmerMessageTag.length = 11 := by decide
    refine Nat.lt_of_le_of_lt (turns_le _) ?_
    show 2 * x.2.length + 1 < _
    omega
  | none =>
    rw [hcut] at h
    cases done with
    | false => cases h
    | true =>
      rw [if_pos rfl] at h ⊢
      have hne : p.buffer ≠ [] := of_decide_eq_true h
      have hpos := length_pos_iff.mpr hne
      unfold turns
      dsimp only [length_nil]
      split <;> omega

theorem consumeHeader_turns (hp : p.state = .header) (h : (consumeHeader done p).1 = true) :
    turns (consumeHeader done p).2.2 < turns p := by
  have here : turns p = 2 * p.buffer.length := by rw [turns, if_pos hp, Nat.add_zero]
  rw [here]
  unfold consumeHeader at h ⊢
  split
  · next hpre =>
    rw [if_pos hpre] at h
    refine Nat.lt_of_lt_of_le (readHeader_turns h) (Nat.mul_le_mul_left 2 ?_)
    exact (drop_sublist _ _).length_le
  rename_i hpre
  rw [if_neg hpre] at h
  split
  · next hwait =>
    rw [if_pos hwait] at h
    cases h
  · next hwait =>
    rw [if_neg hwait] at h
    exact readHeader_turns h

def Taken (p : GlimmerParser T) (out : Body × GlimmerParser T) : Prop :=
  out.1.progress = true →
    out.2.buffer.length < p.buffer.length ∨
      (out.2.buffer.length ≤ p.buffer.length ∧ out.1.complete = true)

theorem takePart_taken (p : GlimmerParser T) (stop : ℕ) : Taken p (takePart p stop) := by
  intro hprogress
  left
  have hne : p.buffer.take stop ≠ [] := of_decide_eq_true hprogress
  have hpos := length_pos_iff.mpr hne
  have hlen := congrArg List.length (take_append_drop stop p.buffer)
  rw [length_append] at hlen
  show (p.buffer.drop stop).length < _
  omega

theorem consumeOpen_taken (done hold : Bool) (wait : Option ℕ) (p : GlimmerParser T) :
    Taken p (consumeOpen done hold wait p) := by
  unfold consumeOpen
  split
  · exact fun _ => .inr ⟨Nat.zero_le _, rfl⟩
  split
  · exact nofun
  split
  · exact takePart_taken p _
  · dsimp only
    split
    · exact nofun
    · exact takePart_taken p _

theorem consumeBody_taken (done : Bool) (p : GlimmerParser T) : Taken p (consumeBody done p) := by
  have whole : ∀ stop rest, Taken p (takeBody p stop rest) := fun _ _ _ =>
    .inr ⟨(drop_sublist _ _).length_le, rfl⟩
  unfold consumeBody
  dsimp only
  split
  · exact whole _ _
  · split <;> exact whole _ _
  · exact whole _ _
  · exact consumeOpen_taken _ _ _ p
  · exact consumeOpen_taken _ _ _ p

theorem consumeOpen_state (done hold : Bool) (wait : Option ℕ) (p : GlimmerParser T) :
    (consumeOpen done hold wait p).2.state = p.state := by
  unfold consumeOpen
  split
  · rfl
  split
  · rfl
  · split
    · rfl
    · dsimp only
      split <;> rfl

theorem consumeBody_state (done : Bool) (p : GlimmerParser T) :
    (consumeBody done p).2.state = p.state := by
  unfold consumeBody
  dsimp only
  split
  · rfl
  · split <;> rfl
  · rfl
  · exact consumeOpen_state _ _ _ p
  · exact consumeOpen_state _ _ _ p

theorem turns_finish (p : GlimmerParser T) (complete : Bool) :
    turns (finish p complete) = if complete then 2 * p.buffer.length else turns p := by
  cases complete <;> rfl

theorem contentToolCallFallback_some {body : Text} {complete : Bool} {call : ToolCall α}
    {q : GlimmerParser T} (h : contentToolCallFallback atem p body complete = some (call, q)) :
    complete = true ∧ ∃ name args, (call, q) = newToolCall p name args := by
  unfold contentToolCallFallback at h
  split at h
  · cases h
  rename_i hno
  dsimp only at h
  split at h
  · cases h
  obtain ⟨resolved, -, h⟩ := Option.bind_eq_some_iff.mp h
  obtain ⟨tool, -, h⟩ := Option.bind_eq_some_iff.mp h
  split at h
  · next args _ =>
    refine ⟨by simpa using fun hc => hno (.inl hc), resolved, args, ?_⟩
    exact (Option.some.inj h).symm
  · cases h

theorem parseToolCall_ok {body : Text} {call : ToolCall α} {q : GlimmerParser T}
    (h : parseToolCall atem p body = .ok (call, q)) :
    ∃ name args, (call, q) = newToolCall p name args := by
  unfold parseToolCall at h
  split at h
  · cases h
  split at h
  · cases h
  · split at h
    · cases h
    · split at h
      · exact ⟨_, _, (Except.ok.inj h).symm⟩
      · cases h

/-- What becomes of a body: it is returned as it is, a call is made of it, or an error. -/
theorem useBody_cases (atem : ATEM T α) (p : GlimmerParser T) (body : Body) :
    (∃ es streamed, (∀ e ∈ es, ∃ s, e = .content s ∨ e = .thinking s) ∧
      useBody atem p body = (es, finish { p with contentStreamed := streamed } body.complete,
        body.progress)) ∨
    (∃ name args, body.complete = true ∧ useBody atem p body =
      ([.toolCall (newToolCall p name args).1], finish (newToolCall p name args).2 true,
        body.progress)) ∨
    ∃ e, useBody atem p body = ([.failed e], p, false) := by
  obtain ⟨state, buffer, recipient, tools, callIndex, emitThinking, streamed⟩ := p
  unfold useBody
  cases state with
  | header => exact .inl ⟨[], streamed, nofun, rfl⟩
  | content =>
    cases hcall : contentToolCallFallback atem
        ⟨.content, buffer, recipient, tools, callIndex, emitThinking, streamed⟩ body.body
        body.complete with
    | some x =>
      obtain ⟨hc, name, args, heq⟩ := contentToolCallFallback_some hcall
      right
      left
      refine ⟨name, args, hc, ?_⟩
      rw [← heq, hc]
    | none =>
      left
      dsimp only
      split
      · exact ⟨[], streamed, nofun, rfl⟩
      · refine ⟨[.content body.body], true, fun e he => ⟨body.body, .inl ?_⟩, rfl⟩
        exact mem_singleton.mp he
  | thinking =>
    left
    dsimp only
    split
    · refine ⟨[.thinking body.body], streamed, fun e he => ⟨body.body, .inr ?_⟩, rfl⟩
      exact mem_singleton.mp he
    · exact ⟨[], streamed, nofun, rfl⟩
  | tool =>
    cases hc : body.complete with
    | false => exact .inl ⟨[], streamed, nofun, rfl⟩
    | true =>
      right
      rw [if_pos rfl]
      cases hcall : parseToolCall atem
          ⟨.tool, buffer, recipient, tools, callIndex, emitThinking, streamed⟩ body.body with
      | error e => exact .inr ⟨e, rfl⟩
      | ok x =>
        obtain ⟨name, args, heq⟩ := parseToolCall_ok hcall
        left
        refine ⟨name, args, rfl, ?_⟩
        rw [← heq]

theorem useBody_turns {q : GlimmerParser T} {body : Body} (hp : p.state ≠ .header)
    (hq : q.state = p.state) (htaken : Taken p (body, q)) (h : (useBody atem q body).2.2 = true) :
    turns (useBody atem q body).2.1 < turns p := by
  have here : turns p = 2 * p.buffer.length + 1 := by rw [turns, if_neg hp]
  rw [here]
  have ended : body.progress = true → ∀ r : GlimmerParser T, r.state = q.state →
      r.buffer = q.buffer → turns (finish r body.complete) < 2 * p.buffer.length + 1 := by
    intro hprogress r hr hb
    have hr' : turns r = 2 * q.buffer.length + 1 := by
      rw [turns, if_neg (by rwa [hr, hq]), hb]
    rw [turns_finish, hr', hb]
    rcases htaken hprogress with hlt | ⟨hle, hc⟩
    · dsimp only at hlt
      split <;> omega
    · dsimp only at hle hc
      rw [if_pos hc]
      omega
  rcases useBody_cases atem q body with ⟨es, streamed, -, heq⟩ | ⟨name, args, hc, heq⟩ | ⟨e, heq⟩
  · rw [heq] at h ⊢
    exact ended h _ rfl rfl
  · rw [heq] at h ⊢
    have := ended h (newToolCall q name args).2 rfl rfl
    rwa [hc] at this
  · rw [heq] at h
    cases h

theorem turn_turns (h : (turn atem done p).2.2 = true) :
    turns (turn atem done p).2.1 < turns p := by
  unfold turn at h ⊢
  by_cases hp : p.state = .header
  · rw [if_pos hp] at h ⊢
    exact consumeHeader_turns hp h
  · rw [if_neg hp] at h ⊢
    exact useBody_turns hp (consumeBody_state done p) (consumeBody_taken done p) h

end GlimmerParser

end Ollama.Parsers
