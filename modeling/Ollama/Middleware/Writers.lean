import Ollama.OpenAI.Stream
import Ollama.Anthropic.Lossless

/-!
# The writers of the OpenAI and the Anthropic interface

`middleware/openai.go` and `middleware/anthropic.go`: each line of the chat handler is decoded
again and sent on in the other interface's form.
-/

namespace Ollama.Middleware

open Api Server

variable {α : Type} (marshal : α → Option Text) (unmarshal : Text → Option α)

/-! ## §1  OpenAI -/

/-- What `ChatWriter` sends: `data:` with a chunk or `[DONE]`, the JSON of a completion, or of
an error. -/
inductive ChatEvent
  | chunk (c : OpenAI.ChatCompletionChunk)
  | done
  | completion (c : OpenAI.ChatCompletion)
  | error (error : Text × Text)
  deriving DecidableEq

/-- `ChatWriter`. Of the stream options only `IncludeUsage` is read; `drawn` counts the
identifiers of tool calls. -/
structure ChatWriter where
  stream : Bool
  includeUsage : Bool
  id : Text
  toolCallSent : Bool := false
  drawn : ℕ := 0

/-- `StatusError.Error`, of an error without a status -/
def statusErrorText (errorMessage : Text) : Text :=
  if errorMessage ≠ [] then errorMessage
  else "something went wrong, please see the ollama server logs for details".toList

namespace ChatWriter

/-- The streaming branch of `writeResponse`. -/
def writeChunk (toolCallId : ℕ → Text) (w : ChatWriter) (chatResponse : ChatResponse α) :
    ChatWriter × List ChatEvent :=
  let c := OpenAI.toChunk marshal toolCallId w.drawn w.id chatResponse w.toolCallSent
  ({ w with
      toolCallSent := w.toolCallSent || !chatResponse.message.toolCalls.isEmpty
      drawn := w.drawn + chatResponse.message.toolCalls.length },
    [.chunk c] ++
      if chatResponse.done then
        (if w.includeUsage then
          [.chunk { c with usage := some (OpenAI.toUsage chatResponse), choices := [] }]
        else []) ++ [.done]
      else [])

/-- `writeResponse` -/
def writeResponse (toolCallId : ℕ → Text) (w : ChatWriter) (data : Line) :
    Option (ChatWriter × List ChatEvent) :=
  (data.toResponse unmarshal).map fun chatResponse =>
    if w.stream then w.writeChunk marshal toolCallId chatResponse
    else
      (w, [.completion (OpenAI.toChatCompletion marshal toolCallId w.drawn w.id chatResponse)])

/-- `Write` -/
def write (toolCallId : ℕ → Text) : Server.Writer ChatWriter ChatEvent where
  write code w data :=
    if code ≠ 200 then some (w, [.error (OpenAI.newError 500 (statusErrorText data.errorText))])
    else w.writeResponse marshal unmarshal toolCallId data

end ChatWriter

/-! ## §2  Anthropic -/

/-- The type of the error of `anthropic.NewError`. -/
def errorType (code : ℤ) : Text :=
  if code = 400 then "invalid_request_error".toList
  else if code = 401 then "authentication_error".toList
  else if code = 403 then "permission_error".toList
  else if code = 404 then "not_found_error".toList
  else if code = 429 then "rate_limit_error".toList
  else if code = 503 ∨ code = 529 then "overloaded_error".toList
  else "api_error".toList

inductive AnthropicEvent (α : Type)
  | event (e : Anthropic.StreamEvent α)
  | message (m : Anthropic.MessagesResponse α)
  | error (type message : Text)

structure AnthropicWriter where
  stream : Bool
  id : Text
  converter : Anthropic.StreamConverter

namespace AnthropicWriter

/-- `writeResponse` -/
def writeResponse (toolUseID : ℕ → Text) (w : AnthropicWriter) (data : Line) :
    Option (AnthropicWriter × List (AnthropicEvent α)) :=
  (data.toResponse unmarshal).map fun chatResponse =>
    if w.stream then
      let (events, converter) := w.converter.process marshal toolUseID chatResponse
      ({ w with converter := converter }, events.map .event)
    else (w, [.message (Anthropic.toMessagesResponse toolUseID w.id chatResponse)])

/-- `Write` -/
def write (toolUseID : ℕ → Text) : Server.Writer AnthropicWriter (AnthropicEvent α) where
  write code w data :=
    if code ≠ 200 then some (w, [.error (errorType code) data.errorText])
    else w.writeResponse marshal unmarshal toolUseID data

end AnthropicWriter

end Ollama.Middleware
