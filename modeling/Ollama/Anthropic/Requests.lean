import Ollama.Api

/-!
# Anthropic requests

`anthropic/anthropic.go`: a request as the messages of a chat request. `strings.ToLower`, the
`%q` of a string, and the decoders of base64 and of a tool's schema are parameters. The options of the request
(temperature and so on) are not modelled.
-/

namespace Ollama.Anthropic

open Api

/-! The types of blocks, and the roles of messages. -/

def typeText : Text := "text".toList

def typeImage : Text := "image".toList

def typeToolUse : Text := "tool_use".toList

def typeToolResult : Text := "tool_result".toList

def typeThinking : Text := "thinking".toList

def roleSystem : Text := "system".toList

def roleTool : Text := "tool".toList

def roleAssistant : Text := "assistant".toList

/-- The arguments of a tool call; `none` is the nil map. -/
abbrev Arguments := Option (List (Text × Any))

structure MessageParam where
  role : Text
  content : Any

structure Tool where
  name : Text
  inputSchema : Text

structure MessagesRequest where
  messages : List MessageParam
  system : Any := .null
  tools : List Tool := []

/-- What the request depends on outside of the package. `unmarshalSchema` gives the error. -/
structure Codec where
  toLower : Text → Text
  quote : Text → Text
  decodeBase64 : Text → Except Error ImageData
  unmarshalSchema : Text → Option Error

/-- The text of a list of blocks: the `text` of every `text` block. -/
def textOfBlocks (blocks : List Any) : Text :=
  blocks.flatMap fun block =>
    match block.asObject with
    | none => []
    | some fields =>
        if (field fields "type").asString = some typeText then
          ((field fields "text").asString).getD []
        else []

/-- The accumulators of `convertMessage`. -/
structure Converted where
  textContent : Text := []
  images : List ImageData := []
  toolCalls : List (ToolCall Arguments) := []
  thinking : Text := []
  toolResults : List (Message Arguments) := []

def resultContent : Any → Text
  | .string s => s
  | .array blocks => textOfBlocks blocks
  | _ => []

variable (codec : Codec)

/-- The case of an image. -/
def convertImage (fields : List (Text × Any)) (c : Converted) : Except Error Converted :=
  match (field fields "source").asObject with
  | none => .error "invalid image source".toList
  | some source =>
      let sourceType := ((field source "type").asString).getD []
      if sourceType = "base64".toList then
        match codec.decodeBase64 (((field source "data").asString).getD []) with
        | .error e => .error ("invalid base64 image data: ".toList ++ e)
        | .ok decoded => .ok { c with images := c.images ++ [decoded] }
      else
        .error ("invalid image source type: ".toList ++ sourceType ++
          ". Only base64 images are supported.".toList)

/-- The case of a tool use. -/
def convertToolUse (fields : List (Text × Any)) (c : Converted) : Except Error Converted :=
  match (field fields "id").asString, (field fields "name").asString with
  | none, _ => .error "tool_use block missing required 'id' field".toList
  | some _, none => .error "tool_use block missing required 'name' field".toList
  | some id, some name =>
      .ok { c with
        toolCalls := c.toolCalls ++
          [{ id, function := { name, arguments := (field fields "input").asObject } }] }

/-- One turn of the loop over the blocks. -/
def convertBlock (c : Converted) (block : Any) : Except Error Converted :=
  match block.asObject with
  | none => .error "invalid content block format".toList
  | some fields =>
      let blockType := ((field fields "type").asString).getD []
      if blockType = typeText then
        match (field fields "text").asString with
        | some text => .ok { c with textContent := c.textContent ++ text }
        | none => .ok c
      else if blockType = typeImage then convertImage codec fields c
      else if blockType = typeToolUse then convertToolUse fields c
      else if blockType = typeToolResult then
        .ok { c with
          toolResults := c.toolResults ++
            [{ role := roleTool
               content := resultContent (field fields "content")
               toolCallID := ((field fields "tool_use_id").asString).getD [] }] }
      else if blockType = typeThinking then
        match (field fields "thinking").asString with
        | some t => .ok { c with thinking := t }
        | none => .ok c
      else .ok c

/-- The messages of the accumulators. -/
def Converted.messages (c : Converted) (role : Text) : List (Message Arguments) :=
  (if c.textContent ≠ [] ∨ c.images ≠ [] ∨ c.toolCalls ≠ [] ∨ c.thinking ≠ [] then
    [{ role := role, content := c.textContent, images := c.images, toolCalls := c.toolCalls
       thinking := c.thinking }]
  else []) ++ c.toolResults

/-- `convertMessage` -/
def convertMessage (msg : MessageParam) : Except Error (List (Message Arguments)) :=
  let role := codec.toLower msg.role
  match msg.content with
  | .string content => .ok [{ role := role, content := content }]
  | .array blocks => do
      let c ← blocks.foldlM (convertBlock codec) {}
      return c.messages role
  | content => .error ("invalid message content type: ".toList ++ content.typeName)

/-- The message of the system prompt. -/
def systemMessages : Any → List (Message Arguments)
  | .string sys => if sys ≠ [] then [{ role := roleSystem, content := sys }] else []
  | .array blocks =>
      if textOfBlocks blocks ≠ [] then
        [{ role := roleSystem, content := textOfBlocks blocks }]
      else []
  | _ => []

/-- The error of `convertTool`. -/
def convertTool (t : Tool) : Except Error Unit :=
  match if t.inputSchema ≠ [] then codec.unmarshalSchema t.inputSchema else none with
  | some e =>
      .error ("invalid input_schema for tool ".toList ++ codec.quote t.name ++ ": ".toList ++ e)
  | none => .ok ()

/-- `FromMessagesRequest`: the messages of the chat request. -/
def fromMessagesRequest (r : MessagesRequest) : Except Error (List (Message Arguments)) := do
  let converted ← r.messages.mapM (convertMessage codec)
  r.tools.forM (convertTool codec)
  return systemMessages r.system ++ converted.flatten

end Ollama.Anthropic
