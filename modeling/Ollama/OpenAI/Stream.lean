import Ollama.Api

/-!
# Chat completions

`openai/openai.go`: a response of the chat handler as a chat completion, or as a chunk of a
streamed one. The identifiers that `toolCallId` draws, one after the other, are a parameter.
-/

namespace Ollama.OpenAI

open Api

variable {α : Type}

structure ToolCall where
  id : Text
  index : ℤ
  name : Text
  arguments : Text
  deriving DecidableEq

structure Message where
  role : Text
  content : Text
  toolCalls : List ToolCall
  reasoning : Text
  deriving DecidableEq

/-- A `Choice`, or the `ChunkChoice` of a chunk, whose message is called `Delta`. -/
structure Choice where
  index : ℤ := 0
  message : Message
  finishReason : Option Text
  deriving DecidableEq

structure Usage where
  promptTokens : ℤ
  completionTokens : ℤ
  totalTokens : ℤ
  deriving DecidableEq

structure ChatCompletion where
  id : Text
  model : Text
  choices : List Choice
  usage : Usage
  deriving DecidableEq

structure ChatCompletionChunk where
  id : Text
  model : Text
  choices : List Choice
  usage : Option Usage := none
  deriving DecidableEq

/-- `NewError`: the type and the text of the error. -/
def newError (code : ℤ) (message : Text) : Text × Text :=
  (if code = 400 then "invalid_request_error".toList
    else if code = 404 then "not_found_error".toList
    else "api_error".toList,
    message)

/-- `ToUsage` -/
def toUsage (r : ChatResponse α) : Usage :=
  ⟨r.metrics.promptEvalCount, r.metrics.evalCount, r.metrics.promptEvalCount + r.metrics.evalCount⟩

/-- `ToToolCalls`. Arguments that cannot be written stay empty. -/
def toToolCalls (marshal : α → Option Text) (toolCallId : ℕ → Text) :
    ℕ → List (Api.ToolCall α) → List ToolCall
  | _, [] => []
  | drawn, tc :: tcs =>
      { id := toolCallId drawn
        index := tc.function.index
        name := tc.function.name
        arguments := (marshal tc.function.arguments).getD [] } ::
        toToolCalls marshal toolCallId (drawn + 1) tcs

/-- `ToChatCompletion` -/
def toChatCompletion (marshal : α → Option Text) (toolCallId : ℕ → Text) (drawn : ℕ) (id : Text)
    (r : ChatResponse α) : ChatCompletion :=
  let toolCalls := toToolCalls marshal toolCallId drawn r.message.toolCalls
  { id := id
    model := r.model
    choices := [
      { message := ⟨r.message.role, r.message.content, toolCalls, r.message.thinking⟩
        finishReason :=
          let reason := if toolCalls ≠ [] then "tool_calls".toList else r.doneReason
          if reason ≠ [] then some reason else none }]
    usage := toUsage r }

/-- `ToChunk` -/
def toChunk (marshal : α → Option Text) (toolCallId : ℕ → Text) (drawn : ℕ) (id : Text)
    (r : ChatResponse α) (toolCallSent : Bool) : ChatCompletionChunk :=
  let toolCalls := toToolCalls marshal toolCallId drawn r.message.toolCalls
  { id := id
    model := r.model
    choices := [
      { message := ⟨"assistant".toList, r.message.content, toolCalls, r.message.thinking⟩
        finishReason :=
          if r.doneReason ≠ [] then
            if toolCallSent = true ∨ toolCalls ≠ [] then some "tool_calls".toList
            else some r.doneReason
          else none }] }

theorem toToolCalls_eq_nil (marshal : α → Option Text) (toolCallId : ℕ → Text) (drawn : ℕ)
    {tcs : List (Api.ToolCall α)} :
    toToolCalls marshal toolCallId drawn tcs = [] ↔ tcs = [] := by
  cases tcs <;> simp [toToolCalls]

end Ollama.OpenAI
