import Ollama.Lib.Blocks
import Ollama.Server.Respond

/-!
# The event stream of the Anthropic interface

`anthropic/anthropic.go`: the responses of the chat handler as the events of a message.
What writes the arguments of a tool call as JSON (`marshal`) and the identifiers that
`toolUseID` draws, one after the other, are parameters.
-/

namespace Ollama.Anthropic

open Api Lib.Blocks

variable {α : Type}

/-! ## §1  Messages and events -/

/-- A content block of an answer. The input of a tool use is `none` for the empty object with
which the block starts in a stream. -/
inductive ContentBlock (α : Type)
  | text (text : Text)
  | thinking (thinking : Text)
  | toolUse (id name : Text) (input : Option α)
  deriving DecidableEq

inductive Delta
  | text (text : Text)
  | thinking (thinking : Text)
  | inputJson (partialJSON : Text)
  deriving DecidableEq

structure Usage where
  inputTokens : ℤ
  outputTokens : ℤ
  deriving DecidableEq

structure MessagesResponse (α : Type) where
  id : Text
  model : Text
  content : List (ContentBlock α)
  stopReason : Text
  usage : Usage
  deriving DecidableEq

/-- A `StreamEvent`. The marks are `content_block_start`, `content_block_delta` and
`content_block_stop`. -/
inductive StreamEvent (α : Type)
  | messageStart (message : MessagesResponse α)
  | contentBlock (mark : Mark (ContentBlock α) Delta)
  | messageDelta (stopReason : Text) (outputTokens : ℤ)
  | messageStop
  deriving DecidableEq

/-- The `Event` of a stream event. -/
def StreamEvent.event : StreamEvent α → Text
  | .messageStart _ => "message_start".toList
  | .contentBlock (.start _ _) => "content_block_start".toList
  | .contentBlock (.piece _ _) => "content_block_delta".toList
  | .contentBlock (.stop _) => "content_block_stop".toList
  | .messageDelta _ _ => "message_delta".toList
  | .messageStop => "message_stop".toList

/-- The delta's type is that of the block. -/
inductive Fits : ContentBlock α → Delta → Prop
  | text (s t : Text) : Fits (.text s) (.text t)
  | thinking (s t : Text) : Fits (.thinking s) (.thinking t)
  | toolUse (id name : Text) (input : Option α) (t : Text) :
      Fits (.toolUse id name input) (.inputJson t)

/-! ## §2  The whole response -/

/-- `mapStopReason` -/
def mapStopReason (reason : Text) (hasToolCalls : Bool) : Text :=
  if hasToolCalls then "tool_use".toList
  else if reason = "stop".toList then "end_turn".toList
  else if reason = "length".toList then "max_tokens".toList
  else if reason ≠ [] then "stop_sequence".toList
  else []

/-- The `tool_use` blocks of `ToMessagesResponse`: `toolUseID` is drawn for a call without an
identifier. -/
def toolUseBlocks (toolUseID : ℕ → Text) : ℕ → List (ToolCall α) → List (ContentBlock α)
  | _, [] => []
  | drawn, tc :: tcs =>
      if tc.id = [] then
        .toolUse (toolUseID drawn) tc.function.name (some tc.function.arguments) ::
          toolUseBlocks toolUseID (drawn + 1) tcs
      else
        .toolUse tc.id tc.function.name (some tc.function.arguments) ::
          toolUseBlocks toolUseID drawn tcs

/-- `ToMessagesResponse` -/
def toMessagesResponse (toolUseID : ℕ → Text) (id : Text) (r : ChatResponse α) :
    MessagesResponse α :=
  { id := id
    model := r.model
    content :=
      (if r.message.thinking = [] then [] else [.thinking r.message.thinking]) ++
      (if r.message.content = [] then [] else [.text r.message.content]) ++
      toolUseBlocks toolUseID 0 r.message.toolCalls
    stopReason := mapStopReason r.doneReason (!r.message.toolCalls.isEmpty)
    usage := ⟨r.metrics.promptEvalCount, r.metrics.evalCount⟩ }

/-! ## §3  The stream converter -/

/-- `StreamConverter`. `drawn` counts the identifiers that `toolUseID` has given. -/
structure StreamConverter where
  id : Text
  model : Text
  firstWrite : Bool := true
  contentIndex : ℕ := 0
  inputTokens : ℤ := 0
  outputTokens : ℤ := 0
  thinkingStarted : Bool := false
  thinkingDone : Bool := false
  textStarted : Bool := false
  toolCallsSent : List ℕ := []
  toolCallIDs : ℕ → Option Text := fun _ => none
  drawn : ℕ := 0

/-- `NewStreamConverter` -/
def newStreamConverter (id model : Text) : StreamConverter := { id, model }

/-- A part of `Process` that writes the marks of content blocks. -/
abbrev Part (α : Type) :=
  StreamConverter → List (Mark (ContentBlock α) Delta) × StreamConverter

def Part.andThen (f g : Part α) : Part α := fun c =>
  ((f c).1 ++ (g (f c).2).1, (g (f c).2).2)

namespace StreamConverter

/-- The first event of a stream. -/
def messageStart (r : ChatResponse α) (c : StreamConverter) :
    List (StreamEvent α) × StreamConverter :=
  if c.firstWrite then
    ([.messageStart
        { id := c.id, model := c.model, content := [], stopReason := []
          usage := ⟨r.metrics.promptEvalCount, 0⟩ }],
      { c with firstWrite := false, inputTokens := r.metrics.promptEvalCount })
  else ([], c)

def thinking (thinking : Text) : Part α := fun c =>
  if thinking ≠ [] ∧ c.thinkingDone = false then
    ((if c.thinkingStarted then [] else [.start c.contentIndex (.thinking [])]) ++
        [.piece c.contentIndex (.thinking thinking)],
      { c with thinkingStarted := true })
  else ([], c)

def closeThinking : Part α := fun c =>
  if c.thinkingStarted = true ∧ c.thinkingDone = false then
    ([.stop c.contentIndex], { c with thinkingDone := true, contentIndex := c.contentIndex + 1 })
  else ([], c)

def addText (content : Text) : Part α := fun c =>
  ((if c.textStarted then [] else [.start c.contentIndex (.text [])]) ++
      [.piece c.contentIndex (.text content)],
    { c with textStarted := true })

def content (content : Text) : Part α :=
  if content = [] then fun c => ([], c) else closeThinking.andThen (addText content)

/-- Get or generate a stable ID for a tool call. -/
def toolCallID (toolUseID : ℕ → Text) (i : ℕ) (tc : ToolCall α) (c : StreamConverter) :
    Text × StreamConverter :=
  if tc.id = [] then
    match c.toolCallIDs i with
    | some existing => (existing, c)
    | none =>
        (toolUseID c.drawn, { c with
            toolCallIDs := Function.update c.toolCallIDs i (some (toolUseID c.drawn))
            drawn := c.drawn + 1 })
  else (tc.id, c)

def closeText : Part α := fun c =>
  if c.textStarted then
    ([.stop c.contentIndex], { c with contentIndex := c.contentIndex + 1, textStarted := false })
  else ([], c)

/-- The three events of a tool call, when its arguments can be written. -/
def addToolUse (marshal : α → Option Text) (i : ℕ) (tcID : Text) (tc : ToolCall α) : Part α :=
  fun c =>
    match marshal tc.function.arguments with
    | none => ([], c)
    | some argsJSON =>
        ([.start c.contentIndex (.toolUse tcID tc.function.name none),
          .piece c.contentIndex (.inputJson argsJSON), .stop c.contentIndex],
          { c with
            toolCallsSent := i :: c.toolCallsSent
            contentIndex := c.contentIndex + 1 })

def toolCall (marshal : α → Option Text) (toolUseID : ℕ → Text) (i : ℕ) (tc : ToolCall α) :
    Part α := fun c =>
  if i ∈ c.toolCallsSent then ([], c)
  else
    let (tcID, c) := c.toolCallID toolUseID i tc
    (closeText.andThen (addToolUse marshal i tcID tc)) c

def toolCalls (marshal : α → Option Text) (toolUseID : ℕ → Text) : ℕ → List (ToolCall α) → Part α
  | _, [] => fun c => ([], c)
  | i, tc :: tcs =>
      (toolCall marshal toolUseID i tc).andThen (toolCalls marshal toolUseID (i + 1) tcs)

def closeLast (done : Bool) : Part α := fun c =>
  if done = true ∧ (c.textStarted = true ∨ c.thinkingStarted = true ∧ c.thinkingDone = false) then
    ([.stop c.contentIndex], c)
  else ([], c)

/-- The content blocks of one response. -/
def blocks (marshal : α → Option Text) (toolUseID : ℕ → Text) (r : ChatResponse α) : Part α :=
  (thinking r.message.thinking).andThen <| (content r.message.content).andThen <|
      (toolCalls marshal toolUseID 0 r.message.toolCalls).andThen <| closeLast r.done

/-- The last events of a stream. -/
def messageStop (r : ChatResponse α) (c : StreamConverter) :
    List (StreamEvent α) × StreamConverter :=
  if r.done then
    ([.messageDelta (mapStopReason r.doneReason (!c.toolCallsSent.isEmpty)) r.metrics.evalCount,
        .messageStop],
      { c with outputTokens := r.metrics.evalCount })
  else ([], c)

/-- `Process` -/
def process (marshal : α → Option Text) (toolUseID : ℕ → Text) (c : StreamConverter)
    (r : ChatResponse α) : List (StreamEvent α) × StreamConverter :=
  let (start, c) := c.messageStart r
  let (marks, c) := blocks marshal toolUseID r c
  let (stop, c) := c.messageStop r
  (start ++ marks.map .contentBlock ++ stop, c)

/-- The events of the responses, in order. -/
def processAll (marshal : α → Option Text) (toolUseID : ℕ → Text) :
    StreamConverter → List (ChatResponse α) → List (StreamEvent α) × StreamConverter
  | c, [] => ([], c)
  | c, r :: rs =>
      let (events, c) := c.process marshal toolUseID r
      let (later, c) := processAll marshal toolUseID c rs
      (events ++ later, c)

end StreamConverter

end Ollama.Anthropic
