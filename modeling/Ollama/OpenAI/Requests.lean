import Ollama.OpenAI.Stream
import Mathlib.Data.List.Forall2

/-!
# Chat completion requests

`openai/openai.go`: a request as the messages of a chat request. `strings.ToLower` and the
decoders of base64 and of the arguments of a tool call are parameters. The options of the
request (temperature and so on) are not modelled.
-/

namespace Ollama.OpenAI

open Api List

-- membership in a list of texts is decided by their equality
local instance lawfulText : LawfulBEq (List Char) := List.instLawfulBEq

variable {α : Type}

/-! ## §1  Requests -/

/-- A `Message` of a request. No tool calls (`none`) are not the same as an empty list. -/
structure RequestMessage where
  role : Text
  content : Any := .null
  reasoning : Text := []
  toolCalls : Option (List ToolCall) := none
  name : Text := []
  toolCallID : Text := []

/-- Of the other fields only the effort of the reasoning can make the request fail. -/
structure ChatCompletionRequest where
  messages : List RequestMessage
  reasoning : Option Text := none
  reasoningEffort : Option Text := none

structure Codec (α : Type) where
  toLower : Text → Text
  decodeBase64 : Text → Option ImageData
  unmarshal : Text → Option α

/-- `len(msg.ToolCalls) > 0`, and the calls -/
def RequestMessage.calls (msg : RequestMessage) : List ToolCall := msg.toolCalls.getD []

/-- `nameFromToolCallID`: the last message with such a call wins. -/
def nameFromToolCallID (messages : List RequestMessage) (toolCallID : Text) : Text :=
  (messages.reverse.findSome? fun msg =>
    (msg.calls.find? fun tc => tc.id = toolCallID).map (·.name)).getD []

variable (codec : Codec α)

/-- One call of `FromCompletionToolCall`. -/
def fromToolCall (tc : ToolCall) : Except Error (Api.ToolCall α) :=
  match codec.unmarshal tc.arguments with
  | none => .error "invalid tool call arguments".toList
  | some arguments => .ok { function := { name := tc.name, arguments } }

/-- `FromCompletionToolCall` -/
def fromCompletionToolCall (tcs : List ToolCall) : Except Error (List (Api.ToolCall α)) :=
  tcs.mapM (fromToolCall codec)

def roleTool : Text := "tool".toList

def toolNameOf (messages : List RequestMessage) (msg : RequestMessage) : Text :=
  if codec.toLower msg.role = roleTool then
    if msg.name = [] ∧ msg.toolCallID ≠ [] then nameFromToolCallID messages msg.toolCallID
    else msg.name
  else []

def blankPrefix : Text := "data:;base64,".toList

def imagePrefixes : List Text :=
  ["jpeg", "jpg", "png", "webp"].map fun t =>
    "data:image/".toList ++ t.toList ++ ";base64,".toList

def imageData (url : Text) : Option Text :=
  let blank := blankPrefix.isPrefixOf url
  let url := if blank then url.drop blankPrefix.length else url
  match imagePrefixes.find? (·.isPrefixOf url) with
  | some p => some (url.drop p.length)
  | none => if blank then some url else none

def invalidFormat : Error := "invalid message format".toList

/-- The address of an image: `image_url` is a string, or an object with one. -/
def imageUrl (data : List (Text × Any)) : Option Text :=
  match (field data "image_url").asObject with
  | some urlMap => (field urlMap "url").asString
  | none => (field data "image_url").asString

def typeText : Text := "text".toList

def typeImageUrl : Text := "image_url".toList

/-- The content and the images of the message for one part. -/
def fromPart (part : Any) : Except Error (Text × List ImageData) :=
  match part.asObject with
  | none => .error invalidFormat
  | some data =>
      if (field data "type").asString = some typeText then
        match (field data "text").asString with
        | none => .error invalidFormat
        | some text => .ok (text, [])
      else if (field data "type").asString = some typeImageUrl then
        match imageUrl data with
        | none => .error invalidFormat
        | some url =>
            match imageData url with
            | none => .error "invalid image input".toList
            | some data =>
                match codec.decodeBase64 data with
                | none => .error invalidFormat
                | some img => .ok ([], [img])
      else .error invalidFormat

/-- The last message gets the tool calls of `msg`. -/
def amendLast (msg : RequestMessage) (toolName : Text) (toolCalls : List (Api.ToolCall α))
    (messages : List (Api.Message α)) : List (Api.Message α) :=
  match messages.getLast? with
  | none => messages
  | some last => messages.dropLast ++ [{ last with
          toolCalls := toolCalls
          toolName := if toolName ≠ [] then toolName else last.toolName
          thinking := msg.reasoning }]

/-- One turn of the loop over the messages of the request. -/
def addMessage (all : List RequestMessage) (messages : List (Api.Message α))
    (msg : RequestMessage) : Except Error (List (Api.Message α)) :=
  let toolName := toolNameOf codec all msg
  match msg.content with
  | .string content => do
      let toolCalls ← fromCompletionToolCall codec msg.calls
      return messages ++
        [{ role := msg.role, content, thinking := msg.reasoning, toolCalls, toolName }]
  | .array content => do
      let parts ← content.mapM (fromPart codec)
      let messages := messages ++ parts.map fun p =>
        { role := msg.role, content := p.1, images := p.2 }
      if messages ≠ [] ∧ msg.calls ≠ [] then
        let toolCalls ← fromCompletionToolCall codec msg.calls
        return amendLast msg toolName toolCalls messages
      else return messages
  | content =>
      match msg.toolCalls with
      | none => .error ("invalid message content type: ".toList ++ content.typeName)
      | some tcs => do
          let toolCalls ← fromCompletionToolCall codec tcs
          return messages ++ [{ role := msg.role, thinking := msg.reasoning, toolCalls }]

def effortOf (r : ChatCompletionRequest) : Text :=
  match r.reasoning with
  | some effort => effort
  | none => r.reasoningEffort.getD []

/-- `FromChatRequest`: the messages of the chat request. -/
def fromChatRequest (r : ChatCompletionRequest) : Except Error (List (Api.Message α)) := do
  let messages ← r.messages.foldlM (addMessage codec r.messages) []
  if effortOf r ≠ [] ∧
      effortOf r ∉ ["high".toList, "medium".toList, "low".toList, "none".toList] then
    .error ("invalid reasoning value: '".toList ++ effortOf r ++
      "' (must be \"high\", \"medium\", \"low\", or \"none\")".toList)
  else return messages

/-! ## §2  Groups -/

inductive IsPart : Any → Text × List ImageData → Prop
  | text (data : List (Text × Any)) (t : Text) (type : (field data "type").asString = some typeText)
      (text : (field data "text").asString = some t) : IsPart (.object data) (t, [])
  | image (data : List (Text × Any)) (url base64 : Text) (img : ImageData)
      (type : (field data "type").asString = some typeImageUrl)
      (address : imageUrl data = some url) (found : imageData url = some base64)
      (decoded : codec.decodeBase64 base64 = some img) : IsPart (.object data) ([], [img])

structure Converts (tc : ToolCall) (call : Api.ToolCall α) : Prop where
  name : call.function.name = tc.name
  arguments : codec.unmarshal tc.arguments = some call.function.arguments

def partOf (m : Api.Message α) : Text × List ImageData := (m.content, m.images)

def HasParts (msg : RequestMessage) (g : List (Api.Message α)) : Prop :=
  match msg.content with
  | .string content => g.map partOf = [(content, [])]
  | .array content => List.Forall₂ (IsPart codec) content (g.map partOf)
  | _ => g.map partOf = [([], [])]

def Any.IsContent : Any → Prop
  | .string _ => True
  | .array _ => True
  | _ => False

structure GroupOf (all : List RequestMessage) (msg : RequestMessage)
    (g : List (Api.Message α)) : Prop where
  role : ∀ m ∈ g, m.role = msg.role
  parts : HasParts codec msg g
  toolCalls : ∃ calls, List.Forall₂ (Converts codec) msg.calls calls ∧
    (g.map (·.toolCalls)).filter (!·.isEmpty) = [calls].filter (!·.isEmpty)
  reasoning : msg.reasoning ≠ [] → ∃ m ∈ g, m.thinking = msg.reasoning
  ownReasoning : ∀ m ∈ g, m.thinking = [] ∨ m.thinking = msg.reasoning
  toolName : Any.IsContent msg.content → toolNameOf codec all msg ≠ [] →
    ∃ m ∈ g, m.toolName = toolNameOf codec all msg

/-- Each message of the request has a group of its own. -/
def KeepsGroups (r : ChatCompletionRequest) (ms : List (Api.Message α)) : Prop :=
  ∃ groups : List (List (Api.Message α)), ms = groups.flatten ∧
    List.Forall₂ (GroupOf codec r.messages) r.messages groups

/-! ## §3  When a request keeps its groups -/

/-- With a list of parts: without tool calls there is no reasoning and no name of a tool, and
with tool calls there is a part. -/
def Carried (all : List RequestMessage) (msg : RequestMessage) : Prop :=
  match msg.content with
  | .array content =>
      if msg.calls = [] then msg.reasoning = [] ∧ toolNameOf codec all msg = [] else content ≠ []
  | _ => True

def Uncarried (msg : RequestMessage) : Prop :=
  msg.calls ≠ [] ∧ ∃ content, msg.content = .array content ∧ content = []

def width (msg : RequestMessage) : ℕ :=
  match msg.content with
  | .array content => content.length
  | _ => 1

theorem mapM_ok {ε β γ : Type} {f : β → Except ε γ} {xs : List β} {ys : List γ} :
    xs.mapM f = .ok ys ↔ List.Forall₂ (fun x y => f x = .ok y) xs ys := by
  induction xs generalizing ys with
  | nil =>
      refine ⟨fun h => ?_, fun h => ?_⟩
      · cases h
        exact .nil
      · cases h
        rfl
  | cons x xs ih =>
      rw [mapM_cons]
      refine ⟨fun h => ?_, fun h => ?_⟩
      · rcases hx : f x with e | y
        · rw [hx] at h
          cases h
        rcases hxs : xs.mapM f with e | zs
        · rw [hx, hxs] at h
          cases h
        · rw [hx, hxs] at h
          cases h
          exact .cons hx (ih.mp hxs)
      · obtain _ | ⟨hx, hxs⟩ := h
        rw [hx, ih.mpr hxs]
        rfl

theorem isPart_of_fromPart {part : Any} {p : Text × List ImageData}
    (h : fromPart codec part = .ok p) : IsPart codec part p := by
  cases part with
  | object data =>
      simp only [fromPart, Any.asObject] at h
      split at h
      · next type =>
        split at h
        · cases h
        · next t text =>
          cases h
          exact .text data t type text
      · split at h
        · next type =>
          split at h
          · cases h
          rename_i url address
          split at h
          · cases h
          rename_i base64 found
          split at h
          · cases h
          · next img decoded =>
            cases h
            exact .image data url base64 img type address found decoded
        · cases h
  | _ => cases h

theorem converts_of_fromCompletionToolCall {tcs : List ToolCall} {calls : List (Api.ToolCall α)}
    (h : fromCompletionToolCall codec tcs = .ok calls) :
    List.Forall₂ (Converts codec) tcs calls := by
  refine (mapM_ok.mp h).imp fun tc call hc => ?_
  rw [fromToolCall] at hc
  rcases ha : codec.unmarshal tc.arguments with - | arguments
  · rw [ha] at hc
    cases hc
  · rw [ha] at hc
    cases hc
    exact ⟨rfl, ha⟩

variable {g : List (Api.Message α)}

theorem amendLast_append (msg : RequestMessage) (toolName : Text)
    (toolCalls : List (Api.ToolCall α)) (before : List (Api.Message α))
    (some : g ≠ []) :
    amendLast msg toolName toolCalls (before ++ g) =
      before ++ amendLast msg toolName toolCalls g := by
  obtain ⟨g, last, rfl⟩ := (eq_nil_or_concat g).resolve_left some
  simp [amendLast, getLast?_append]

variable {msg : RequestMessage}

/-- A message that carries its tool calls leaves the messages before it alone. -/
theorem addMessage_append (all : List RequestMessage) (before : List (Api.Message α))
    (carried : ¬Uncarried msg) :
    addMessage codec all before msg = (addMessage codec all [] msg).map (before ++ ·) := by
  rw [addMessage, addMessage]
  rcases hc : msg.content with - | b | n | content | content | fields
  case string =>
    rcases fromCompletionToolCall codec msg.calls with e | calls <;> rfl
  case array =>
    simp only
    rcases hp : content.mapM (fromPart codec) with e | parts
    · rfl
    have length := (mapM_ok.mp hp).length_eq
    simp only [bind, Except.bind, pure, Except.pure]
    by_cases calls : msg.calls = []
    · rw [if_neg (by simp [calls]), if_neg (by simp [calls])]
      rfl
    · have some : parts.map (fun p =>
          ({ role := msg.role, content := p.1, images := p.2 } : Api.Message α)) ≠ [] := by
        intro none
        rw [map_eq_nil_iff] at none
        rw [none] at length
        exact carried ⟨calls, content, hc, eq_nil_of_length_eq_zero length⟩
      rw [if_pos ⟨by simp [some], calls⟩, if_pos ⟨by simp [some], calls⟩, nil_append]
      rcases fromCompletionToolCall codec msg.calls with e | calls
      · rfl
      · simp only [Except.map]
        rw [amendLast_append _ _ _ _ some]
  all_goals
    rcases msg.toolCalls with - | tcs
    · rfl
    · simp only
      rcases fromCompletionToolCall codec tcs with e | calls <;> rfl

theorem foldlM_addMessage (all : List RequestMessage) {msgs : List RequestMessage}
    (carried : ∀ msg ∈ msgs, ¬Uncarried msg) (before : List (Api.Message α)) :
    msgs.foldlM (addMessage codec all) before =
      (msgs.mapM (addMessage codec all [])).map fun groups => before ++ groups.flatten := by
  induction msgs generalizing before with
  | nil => simp [Except.map, pure, Except.pure]
  | cons msg msgs ih =>
      obtain ⟨first, rest⟩ := forall_mem_cons.mp carried
      rw [foldlM_cons, mapM_cons, addMessage_append codec all before first]
      rcases addMessage codec all [] msg with e | g
      · rfl
      · simp only [Except.map, bind, Except.bind]
        rw [ih rest]
        rcases msgs.mapM (addMessage codec all []) with e | groups
        · rfl
        · simp [Except.map, pure, Except.pure]

def partMessages (msg : RequestMessage) (parts : List (Text × List ImageData)) :
    List (Api.Message α) :=
  parts.map fun p => { role := msg.role, content := p.1, images := p.2 }

theorem partMessages_parts (msg : RequestMessage) (parts : List (Text × List ImageData)) :
    (partMessages (α := α) msg parts).map partOf = parts := by
  rw [partMessages, map_map]
  exact map_id _

theorem partMessages_plain {parts : List (Text × List ImageData)}
    {m : Api.Message α} (hm : m ∈ partMessages msg parts) :
    m.role = msg.role ∧ m.thinking = [] ∧ m.toolCalls = [] ∧ m.toolName = [] := by
  obtain ⟨p, -, rfl⟩ := mem_map.mp hm
  exact ⟨rfl, rfl, rfl, rfl⟩

variable {all : List RequestMessage}

/-- The three shapes of a content. -/
theorem addMessage_cases
    (h : addMessage codec all [] msg = .ok g) :
    (∃ content calls, msg.content = .string content ∧
      List.Forall₂ (Converts codec) msg.calls calls ∧
      g = [{ role := msg.role, content, thinking := msg.reasoning, toolCalls := calls
             toolName := toolNameOf codec all msg }]) ∨
    (∃ content parts, msg.content = .array content ∧ List.Forall₂ (IsPart codec) content parts ∧
      (msg.calls = [] ∧ g = partMessages msg parts ∨
        msg.calls ≠ [] ∧ (content ≠ [] → ∃ calls, List.Forall₂ (Converts codec) msg.calls calls ∧
          g = amendLast msg (toolNameOf codec all msg) calls (partMessages msg parts)))) ∨
    (∃ calls, ¬Any.IsContent msg.content ∧ List.Forall₂ (Converts codec) msg.calls calls ∧
      g = [{ role := msg.role, thinking := msg.reasoning, toolCalls := calls }]) := by
  rw [addMessage] at h
  rcases hc : msg.content with - | b | n | content | content | fields
  case string =>
    rw [hc] at h
    rcases hf : fromCompletionToolCall codec msg.calls with e | calls
    · rw [hf] at h
      cases h
    · rw [hf] at h
      cases h
      exact Or.inl ⟨content, calls, rfl, converts_of_fromCompletionToolCall codec hf, rfl⟩
  case array =>
    rw [hc] at h
    simp only at h
    rcases hp : content.mapM (fromPart codec) with e | parts
    · rw [hp] at h
      cases h
    have isParts := (mapM_ok.mp hp).imp fun _ _ hx => isPart_of_fromPart codec hx
    rw [hp] at h
    refine Or.inr (Or.inl ⟨content, parts, rfl, isParts, ?_⟩)
    simp only [bind, Except.bind, pure, Except.pure, nil_append] at h
    by_cases calls : msg.calls = []
    · rw [if_neg (by simp [calls])] at h
      cases h
      exact Or.inl ⟨calls, rfl⟩
    · refine Or.inr ⟨calls, fun some => ?_⟩
      have parts_ne : parts ≠ [] := by
        rintro rfl
        exact some (eq_nil_of_length_eq_zero isParts.length_eq)
      rw [if_pos ⟨by simpa using parts_ne, calls⟩] at h
      rcases hf : fromCompletionToolCall codec msg.calls with e | tcs
      · rw [hf] at h
        cases h
      · rw [hf] at h
        cases h
        exact ⟨tcs, converts_of_fromCompletionToolCall codec hf, rfl⟩
  all_goals
    refine Or.inr (Or.inr ?_)
    rw [hc] at h
    rcases ht : msg.toolCalls with - | tcs
    · rw [ht] at h
      cases h
    rw [ht] at h
    simp only at h
    rcases hf : fromCompletionToolCall codec tcs with e | calls
    · rw [hf] at h
      cases h
    · rw [hf] at h
      cases h
      have converts := converts_of_fromCompletionToolCall codec hf
      exact ⟨calls, id, by rwa [RequestMessage.calls, ht], rfl⟩

theorem amendLast_some (msg : RequestMessage) (toolName : Text) (calls : List (Api.ToolCall α))
    (some : g ≠ []) :
    ∃ before last, g = before ++ [last] ∧ amendLast msg toolName calls g = before ++ [{ last with
          toolCalls := calls, toolName := if toolName ≠ [] then toolName else last.toolName
          thinking := msg.reasoning }] := by
  obtain ⟨before, last, rfl⟩ := (eq_nil_or_concat g).resolve_left some
  exact ⟨before, last, concat_eq_append, by simp [amendLast]⟩

/-- Own messages are a group exactly when they carry what the message has. -/
theorem groupOf_iff
    (h : addMessage codec all [] msg = .ok g)
    (carried : ¬Uncarried msg) : GroupOf codec all msg g ↔ Carried codec all msg := by
  rcases addMessage_cases codec h with ⟨content, calls, hc, converts, rfl⟩ |
    ⟨content, parts, hc, isParts, hcalls⟩ | ⟨calls, hc, converts, rfl⟩
  · -- a string
    refine iff_of_true ⟨?_, ?_, ⟨calls, converts, rfl⟩, ?_, ?_, ?_⟩ ?_
    · simp
    · rw [HasParts, hc]
      rfl
    · exact fun _ => ⟨_, mem_singleton_self _, rfl⟩
    · intro m hm
      rw [mem_singleton.mp hm]
      exact Or.inr rfl
    · exact fun _ _ => ⟨_, mem_singleton_self _, rfl⟩
    · rw [Carried, hc]
      trivial
  · -- a list of parts
    rcases hcalls with ⟨none, rfl⟩ | ⟨some, hg⟩
    · rw [Carried, hc]
      simp only
      rw [if_pos none]
      constructor
      · intro group
        refine ⟨?_, ?_⟩
        · by_contra reasoning
          obtain ⟨m, hm, has⟩ := group.reasoning reasoning
          exact reasoning (has.symm.trans (partMessages_plain hm).2.1)
        · by_contra name
          obtain ⟨m, hm, has⟩ := group.toolName (by rw [hc]; trivial) name
          exact name (has.symm.trans (partMessages_plain hm).2.2.2)
      · rintro ⟨reasoning, name⟩
        refine ⟨fun m hm => (partMessages_plain hm).1, ?_, ⟨[], ?_, ?_⟩, fun h => absurd reasoning h,
          fun m hm => Or.inl (partMessages_plain hm).2.1, fun _ h => absurd name h⟩
        · rw [HasParts, hc]
          rwa [partMessages_parts]
        · rw [none]
          exact .nil
        have noCalls : (partMessages (α := α) msg parts).map (·.toolCalls) =
            List.replicate (partMessages (α := α) msg parts).length [] := by
          refine eq_replicate_iff.mpr ⟨by simp, fun tcs htcs => ?_⟩
          obtain ⟨m, hm, rfl⟩ := mem_map.mp htcs
          exact (partMessages_plain hm).2.2.1
        rw [noCalls]
        simp
    · have content_ne : content ≠ [] := fun none => carried ⟨some, content, hc, none⟩
      obtain ⟨calls, converts, rfl⟩ := hg content_ne
      have parts_ne : partMessages (α := α) msg parts ≠ [] := by
        intro none
        have length := isParts.length_eq
        rw [partMessages, map_eq_nil_iff] at none
        rw [none] at length
        exact content_ne (eq_nil_of_length_eq_zero length)
      obtain ⟨before, last, split, amended⟩ :=
        amendLast_some msg (toolNameOf codec all msg) calls parts_ne
      have plain : ∀ m ∈ before, m.role = msg.role ∧ m.thinking = [] ∧ m.toolCalls = [] ∧
          m.toolName = [] :=
        fun m hm => partMessages_plain (split ▸ mem_append_left _ hm)
      have lastPlain : last.role = msg.role :=
        (partMessages_plain (split ▸ mem_append_right _ (mem_singleton_self _))).1
      rw [amended]
      refine iff_of_true ⟨?_, ?_, ⟨calls, converts, ?_⟩, ?_, ?_, ?_⟩ ?_
      · intro m hm
        rcases mem_append.mp hm with hm | hm
        · exact (plain m hm).1
        · rw [mem_singleton.mp hm]
          exact lastPlain
      · rw [HasParts, hc]
        have same : (before ++ [{ last with
            toolCalls := calls
            toolName := if toolNameOf codec all msg ≠ [] then toolNameOf codec all msg
              else last.toolName
            thinking := msg.reasoning }]).map partOf = parts := by
          rw [map_append, ← partMessages_parts (α := α) msg parts, split, map_append]
          rfl
        rwa [same]
      · have noCalls : before.map (·.toolCalls) = List.replicate before.length [] := by
          refine eq_replicate_iff.mpr ⟨by simp, fun tcs htcs => ?_⟩
          obtain ⟨m, hm, rfl⟩ := mem_map.mp htcs
          exact (plain m hm).2.2.1
        rw [map_append, noCalls, filter_append]
        simp
      · exact fun _ => ⟨_, mem_append_right _ (mem_singleton_self _), rfl⟩
      · intro m hm
        rcases mem_append.mp hm with hm | hm
        · exact Or.inl (plain m hm).2.1
        · rw [mem_singleton.mp hm]
          exact Or.inr rfl
      · intro _ name
        exact ⟨_, mem_append_right _ (mem_singleton_self _), if_pos name⟩
      · rw [Carried, hc]
        simp only
        rwa [if_neg some]
  · -- no content
    refine iff_of_true ⟨?_, ?_, ⟨calls, converts, rfl⟩, ?_, ?_, ?_⟩ ?_
    · simp
    · rw [HasParts]
      rcases hc' : msg.content with - | b | n | content | content | fields
      all_goals first
        | rfl
        | (rw [hc'] at hc; exact absurd trivial hc)
    · exact fun _ => ⟨_, mem_singleton_self _, rfl⟩
    · intro m hm
      rw [mem_singleton.mp hm]
      exact Or.inr rfl
    · exact fun isContent => absurd isContent hc
    · rw [Carried]
      rcases hc' : msg.content with - | b | n | content | content | fields
      all_goals first
        | trivial
        | (rw [hc'] at hc; exact absurd trivial hc)

theorem GroupOf.length
    (h : GroupOf codec all msg g) : g.length = width msg := by
  have parts := h.parts
  rw [HasParts] at parts
  rw [width, ← length_map (f := partOf)]
  rcases hc : msg.content with - | b | n | content | content | fields
  case array =>
    rw [hc] at parts
    exact parts.length_eq.symm
  all_goals
    rw [hc] at parts
    exact congrArg List.length parts

theorem addMessage_length
    (h : addMessage codec all [] msg = .ok g)
    (carried : ¬Uncarried msg) : g.length = width msg := by
  rcases addMessage_cases codec h with ⟨content, calls, hc, -, rfl⟩ |
    ⟨content, parts, hc, isParts, ⟨-, rfl⟩ | ⟨some, hg⟩⟩ | ⟨calls, hc, -, rfl⟩
  · rw [width, hc]
    rfl
  · rw [width, hc, partMessages, length_map]
    exact isParts.length_eq.symm
  · obtain ⟨calls, -, rfl⟩ := hg fun none => carried ⟨some, content, hc, none⟩
    have length : (partMessages (α := α) msg parts).length = content.length := by
      rw [partMessages, length_map]
      exact isParts.length_eq.symm
    have parts_ne : partMessages (α := α) msg parts ≠ [] := by
      intro none
      rw [none] at length
      exact carried ⟨some, content, hc, eq_nil_of_length_eq_zero length.symm⟩
    obtain ⟨before, last, split, amended⟩ :=
      amendLast_some msg (toolNameOf codec all msg) calls parts_ne
    rw [width, hc, amended]
    simp only
    rw [← length, split, length_append, length_append]
    rfl
  · rw [width]
    rcases hc' : msg.content with - | b | n | content | content | fields
    all_goals first
      | rfl
      | (rw [hc'] at hc; exact absurd trivial hc)

/-- A message whose tool calls have no part to carry them has no group. -/
theorem not_groupOf_uncarried
    (uncarried : Uncarried msg) (g : List (Api.Message α)) : ¬GroupOf codec all msg g := by
  intro group
  obtain ⟨calls, content, hc, rfl⟩ := uncarried
  obtain ⟨converted, converts, kept⟩ := group.toolCalls
  have none : g = [] := by
    have length := group.length codec
    rw [width, hc] at length
    exact eq_nil_of_length_eq_zero length
  have some : converted ≠ [] := by
    rintro rfl
    exact calls (eq_nil_of_length_eq_zero converts.length_eq)
  rw [none] at kept
  simp [some] at kept

theorem flatten_inj_of_length {β : Type} {xs ys : List (List β)}
    (lengths : List.Forall₂ (fun x y => x.length = y.length) xs ys)
    (same : xs.flatten = ys.flatten) : xs = ys := by
  induction lengths with
  | nil => rfl
  | cons first _ ih =>
      obtain ⟨rfl, rest⟩ := append_inj same first
      rw [ih rest]

theorem fromChatRequest_messages {r : ChatCompletionRequest} {ms : List (Api.Message α)}
    (h : fromChatRequest codec r = .ok ms) :
    r.messages.foldlM (addMessage codec r.messages) [] = .ok ms := by
  rw [fromChatRequest] at h
  rcases hm : r.messages.foldlM (addMessage codec r.messages) [] with e | messages
  · rw [hm] at h
    cases h
  · rw [hm] at h
    split at h
    · cases h
    · exact h

theorem forall_of_forall₂ {β γ : Type} {q : β → Prop} {R : β → γ → Prop} {xs : List β}
    {ys : List γ} (h : List.Forall₂ R xs ys) (imp : ∀ x y, R x y → q x) : ∀ x ∈ xs, q x :=
  ((forall₂_and_left xs ys).mp (h.imp fun x y hR => ⟨imp x y hR, hR⟩)).1

theorem forall₂_both {β γ δ : Type} {R : β → γ → Prop} {S : β → δ → Prop} {q : γ → δ → Prop}
    {xs : List β} {ys : List γ} {zs : List δ} (h : List.Forall₂ R xs ys)
    (h' : List.Forall₂ S xs zs) (imp : ∀ x y z, R x y → S x z → q y z) : List.Forall₂ q ys zs := by
  induction h generalizing zs with
  | nil =>
      cases h'
      exact .nil
  | cons one _ ih =>
      obtain _ | ⟨one', rest'⟩ := h'
      exact .cons (imp _ _ _ one one') (ih rest')

theorem keepsGroups_iff {r : ChatCompletionRequest} {ms : List (Api.Message α)}
    (accepted : fromChatRequest codec r = .ok ms) :
    KeepsGroups codec r ms ↔ ∀ msg ∈ r.messages, Carried codec r.messages msg := by
  have messages := fromChatRequest_messages codec accepted
  -- with a part for all tool calls, each message adds messages of its own
  have own : (∀ msg ∈ r.messages, ¬Uncarried msg) → ∃ groups : List (List (Api.Message α)),
      ms = groups.flatten ∧ List.Forall₂ (fun msg g =>
        ¬Uncarried msg ∧ addMessage codec r.messages [] msg = .ok g) r.messages groups := by
    intro carried
    rw [foldlM_addMessage codec r.messages carried] at messages
    rcases hg : r.messages.mapM (addMessage codec r.messages []) with e | groups
    · rw [hg] at messages
      cases messages
    · rw [hg] at messages
      cases messages
      exact ⟨groups, rfl, (forall₂_and_left _ _).mpr ⟨carried, mapM_ok.mp hg⟩⟩
  constructor
  · rintro ⟨groups, same, each⟩
    have carried : ∀ msg ∈ r.messages, ¬Uncarried msg :=
      forall_of_forall₂ each fun msg g group uncarried =>
        not_groupOf_uncarried codec uncarried g group
    obtain ⟨groups', same', each'⟩ := own carried
    have lengths : List.Forall₂ (fun x y : List (Api.Message α) => x.length = y.length)
        groups' groups :=
      forall₂_both each' each fun msg g' g h group =>
        (addMessage_length codec h.2 h.1).trans (group.length codec).symm
    obtain rfl := flatten_inj_of_length lengths (same'.symm.trans same)
    have both : List.Forall₂ (fun msg g => (¬Uncarried msg ∧
        addMessage codec r.messages [] msg = .ok g) ∧ GroupOf codec r.messages msg g)
        r.messages groups' :=
      List.Forall₂.mp (fun msg g h group => ⟨h, group⟩) each' each
    exact forall_of_forall₂ both fun msg g h => (groupOf_iff codec h.1.2 h.1.1).mp h.2
  · intro h
    have carried : ∀ msg ∈ r.messages, ¬Uncarried msg := by
      rintro msg hmsg ⟨calls, content, hc, rfl⟩
      have here := h msg hmsg
      rw [Carried, hc] at here
      simp only at here
      rw [if_neg calls] at here
      exact here rfl
    obtain ⟨groups, same, each⟩ := own carried
    refine ⟨groups, same, ?_⟩
    have all := (forall₂_and_left r.messages groups).mpr ⟨h, each⟩
    exact all.imp fun msg g hg => (groupOf_iff codec hg.2.2 hg.2.1).mpr hg.1

/-- **Chat completion requests.** Each message of the request has a group of its own exactly
when every list of parts without tool calls goes without reasoning and without the name of a
tool, and every list of parts with tool calls has a part. -/
theorem fromChatRequest_keepsGroups (r : ChatCompletionRequest) (ms : List (Api.Message α))
    (accepted : fromChatRequest codec r = .ok ms) :
    KeepsGroups codec r ms ↔ ∀ msg ∈ r.messages, Carried codec r.messages msg :=
  keepsGroups_iff codec accepted

def plainCodec : Codec Text where
  toLower := id
  decodeBase64 _ := some []
  unmarshal s := some s

/-- A call of a tool, and its answer as a string. -/
theorem fromChatRequest_keepsGroups_string : KeepsGroups plainCodec { messages := [ { role := ['a'], toolCalls := some [⟨['i'], 0, ['f'], ['{', '}']⟩] },
          { role := roleTool, content := .string ['x'], toolCallID := ['i'] }] }
      [{ role := ['a'], toolCalls := [{ function := { name := ['f'], arguments := ['{', '}'] } }] },
        { role := roleTool, content := ['x'], toolName := ['f'] }] :=
  (fromChatRequest_keepsGroups plainCodec _ _ rfl).mpr (by
    intro msg hmsg
    rcases mem_cons.mp hmsg with rfl | hmsg
    · trivial
    · obtain rfl := mem_singleton.mp hmsg
      trivial)

/-- The answer as a list of parts loses the name of the tool. -/
theorem fromChatRequest_notKeepsGroups : fromChatRequest plainCodec { messages := [{
            role := roleTool, name := ['f']
            content := .array [
              .object [("type".toList, .string typeText), ("text".toList, .string ['x'])]] }] } =
      .ok [{ role := roleTool, content := ['x'] }] ∧
    ¬KeepsGroups plainCodec { messages := [{
            role := roleTool, name := ['f']
            content := .array [
              .object [("type".toList, .string typeText), ("text".toList, .string ['x'])]] }] }
        [{ role := roleTool, content := ['x'] }] := by
  refine ⟨rfl, fun keeps => ?_⟩
  have carried := (keepsGroups_iff plainCodec rfl).mp keeps _ mem_cons_self
  revert carried
  show ¬([] = [] ∧ ['f'] = [])
  decide

end Ollama.OpenAI
