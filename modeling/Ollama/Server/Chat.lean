import Ollama.Server.Respond
import Ollama.Thinking.Parser
import Ollama.Tools.Parser

/-!
# The chat handler

`ChatHandler` of `server/routes.go`, without a response format: the callback that gets the
runner's chunks and puts responses on the channel. A built-in parser takes the place of the
generic ones; of these, the thinking parser may be missing, and the tool parser is asked only
when the request has tools. What a parser does with a chunk is a parameter.
-/

namespace Ollama.Server

open Api List

variable {α β θ τ : Type}

/-! ## §1  Parsers -/

/-- `parsers.Parser`: the content, the thinking and the tool calls of a chunk, or an error. -/
structure BuiltinParser (α β : Type) where
  add : β → Text → Bool → Except Error (Text × Text × List (ToolCall α)) × β

/-- `thinking.Parser`: the thinking and the remaining content. -/
structure ThinkingParser (θ : Type) where
  addContent : θ → Text → (Text × Text) × θ

/-- `tools.Parser` -/
structure ToolParser (α τ : Type) where
  add : τ → Text → (List (ToolCall α) × Text) × τ
  content : τ → Text

structure Handler (α β θ τ : Type) where
  model : Text
  tools : Bool
  builtinParser : Option (BuiltinParser α β)
  thinkingState : Option (ThinkingParser θ)
  toolParser : ToolParser α τ

/-- The states of the parsers. -/
structure Parsing (β θ τ : Type) where
  builtin : β
  thinking : θ
  tool : τ

/-! ## §2  The callback -/

/-- `llm.CompletionResponse`. `doneReason` is its text. -/
structure CompletionResponse where
  content : Text
  doneReason : Text := []
  done : Bool := false
  metrics : Metrics := {}

def roleAssistant : Text := ['a', 's', 's', 'i', 's', 't', 'a', 'n', 't']

namespace Handler

variable (h : Handler α β θ τ)

def res (r : CompletionResponse) : ChatResponse α :=
  { model := h.model
    message := { role := roleAssistant, content := r.content }
    done := r.done
    doneReason := if r.done then r.doneReason else []
    metrics := r.metrics }

/-- The part with the built-in parser. -/
def builtin (p : BuiltinParser α β) (s : Parsing β θ τ) (r : CompletionResponse) :
    Parsing β θ τ × List (Value α) :=
  let (out, state) := p.add s.builtin r.content r.done
  let s := { s with builtin := state }
  match out with
  | .error err => (s, [.error err none])
  | .ok (content, thinking, toolCalls) =>
      let res := { h.res r with
        message := { (h.res r).message with
          content := content, thinking := thinking, toolCalls := toolCalls } }
      if content ≠ [] ∨ thinking ≠ [] ∨ toolCalls ≠ [] ∨ r.done then (s, [.response res])
      else (s, [])

/-- The part with the tool parser. -/
def callTools (s : Parsing β θ τ) (res : ChatResponse α) : Parsing β θ τ × List (Value α) :=
  if h.tools then
    let ((toolCalls, content), state) := h.toolParser.add s.tool res.message.content
    let s := { s with tool := state }
    if content ≠ [] then
      (s, [.response { res with message := { res.message with content := content } }])
    else if toolCalls ≠ [] then
      (s, [.response { res with
        message := { res.message with toolCalls := toolCalls, content := [] } }])
    else if res.message.thinking ≠ [] then (s, [.response res])
    else if res.done then
      (s, [.response { res with
        message := { res.message with content := h.toolParser.content s.tool } }])
    else (s, [])
  else (s, [.response res])

/-- The callback. -/
def callback (s : Parsing β θ τ) (r : CompletionResponse) : Parsing β θ τ × List (Value α) :=
  match h.builtinParser with
  | some p => h.builtin p s r
  | none =>
      match h.thinkingState with
      | some p =>
          let ((thinking, remaining), state) := p.addContent s.thinking r.content
          let s := { s with thinking := state }
          if thinking = [] ∧ remaining = [] ∧ !r.done then (s, [])
          else h.callTools s { h.res r with
            message := { (h.res r).message with thinking := thinking, content := remaining } }
      | none => h.callTools s (h.res r)

/-- What a sequence of chunks puts on the channel. -/
def channel : Parsing β θ τ → List CompletionResponse → List (Value α)
  | _, [] => []
  | s, r :: rs => (h.callback s r).2 ++ channel (h.callback s r).1 rs

end Handler

/-! ## §3  What the parsers return -/

structure Output (α : Type) where
  content : Text := []
  thinking : Text := []
  toolCalls : List (ToolCall α) := []

namespace Handler

variable (h : Handler α β θ τ)

/-- The thinking and the content that the tool parser, if there is one, gets. `none`: the
thinking parser needs more to decide. -/
def thought (s : Parsing β θ τ) (r : CompletionResponse) : Option (Text × Text) × θ :=
  match h.thinkingState with
  | none => (some ([], r.content), s.thinking)
  | some p =>
      let (out, state) := p.addContent s.thinking r.content
      (if out.1 = [] ∧ out.2 = [] ∧ !r.done then none else some out, state)

/-- What the last parser returns for a chunk, and the parsers after it. A parser that is not
asked, and one that fails, returns nothing. -/
def returned (s : Parsing β θ τ) (r : CompletionResponse) : Output α × Parsing β θ τ :=
  match h.builtinParser with
  | some p =>
      let (out, state) := p.add s.builtin r.content r.done
      match out with
      | .error _ => ({}, { s with builtin := state })
      | .ok (content, thinking, toolCalls) =>
          (⟨content, thinking, toolCalls⟩, { s with builtin := state })
  | none =>
      let (thought, state) := h.thought s r
      let s := { s with thinking := state }
      match thought with
      | none => ({}, s)
      | some (thinking, remaining) =>
          if h.tools then
            let ((toolCalls, content), state) := h.toolParser.add s.tool remaining
            (⟨content, thinking, toolCalls⟩, { s with tool := state })
          else (⟨remaining, thinking, []⟩, s)

def outputs : Parsing β θ τ → List CompletionResponse → List (Output α)
  | _, [] => []
  | s, r :: rs => (h.returned s r).1 :: outputs (h.returned s r).2 rs

def after (s : Parsing β θ τ) (rs : List CompletionResponse) : Parsing β θ τ :=
  rs.foldl (fun s r => (h.returned s r).2) s

def kept (s : Parsing β θ τ) (rs : List CompletionResponse) : Text :=
  if h.builtinParser.isNone ∧ h.tools ∧ (h.outputs s rs).flatMap (·.toolCalls) = [] then
    h.toolParser.content (h.after s rs).tool
  else []

end Handler

/-! ## §4  Delivery -/

/-- `Done` exactly on the last chunk. -/
def Completion (rs : List CompletionResponse) : Prop :=
  ∃ init last, rs = init ++ [last] ∧ (∀ r ∈ init, r.done = false) ∧ last.done = true

theorem Completion.inner {rs pre post : List CompletionResponse} {r : CompletionResponse}
    (hr : Completion rs) (hrs : rs = pre ++ r :: post) (hpost : post ≠ []) : r.done = false := by
  obtain ⟨init, last, rfl, inner, -⟩ := hr
  rcases eq_nil_or_concat post with rfl | ⟨post, l, rfl⟩
  · exact absurd rfl hpost
  · have split : init ++ [last] = (pre ++ r :: post) ++ [l] := by simpa using hrs
    obtain ⟨rfl, -⟩ := append_inj' split rfl
    exact inner r (mem_append_right _ mem_cons_self)

def responses (vs : List (Value α)) : List (ChatResponse α) :=
  vs.filterMap fun
    | .response r => some r
    | .error _ _ => none

@[simp] theorem responses_response (rs : List (ChatResponse α)) :
    responses (rs.map .response) = rs := by
  rw [responses, filterMap_map]
  exact filterMap_some

theorem map_responses {vs : List (Value α)} (ok : ∀ msg status, Value.error msg status ∉ vs) :
    (responses vs).map .response = vs := by
  induction vs with
  | nil => rfl
  | cons v vs ih =>
      cases v with
      | response r =>
          exact congrArg (Value.response r :: ·)
            (ih fun msg status h => ok msg status (mem_cons_of_mem _ h))
      | error msg status => exact absurd mem_cons_self (ok msg status)

theorem responses_append (vs ws : List (Value α)) :
    responses (vs ++ ws) = responses vs ++ responses ws :=
  filterMap_append

/-- Everything that the parsers return is delivered. -/
structure Handler.Delivers (h : Handler α β θ τ) (s : Parsing β θ τ)
    (rs : List CompletionResponse) : Prop where
  content : (responses (h.channel s rs)).flatMap (·.message.content) =
    (h.outputs s rs).flatMap (·.content) ++ h.kept s rs
  thinking : (responses (h.channel s rs)).flatMap (·.message.thinking) =
    (h.outputs s rs).flatMap (·.thinking)
  toolCalls : (responses (h.channel s rs)).flatMap (·.message.toolCalls) =
    (h.outputs s rs).flatMap (·.toolCalls)
  /-- What the parsers have not returned yet is not sent. -/
  unheld : ∀ pre post, rs = pre ++ post → post ≠ [] →
    (responses (h.channel s pre)).flatMap (·.message.content) =
      (h.outputs s pre).flatMap (·.content)
  done : ∃ r, (responses (h.channel s rs)).getLast? = some r ∧ r.done = true
  /-- The response to a request that is not streamed. -/
  whole : ∃ body, collect h.tools {} (h.channel s rs) = .ok body ∧
    body.message.content = (responses (h.channel s rs)).flatMap (·.message.content) ∧
    body.message.thinking = (responses (h.channel s rs)).flatMap (·.message.thinking) ∧
    body.message.toolCalls = (responses (h.channel s rs)).flatMap (·.message.toolCalls)

/-! ## §5  One chunk -/

namespace Handler

variable {h : Handler α β θ τ}

/-- What the tool parser keeps after a chunk, on the last one and when no call was found.
`found`: one was, before the chunk, for which `o` is returned. -/
def rest (h : Handler α β θ τ) (found : Prop) [Decidable found] (r : CompletionResponse)
    (o : Output α) (s' : Parsing β θ τ) : Text :=
  if h.builtinParser.isNone ∧ h.tools ∧ r.done ∧ ¬found ∧ o.toolCalls = [] then
    h.toolParser.content s'.tool
  else []

/-- A chunk of which nothing is lost and nothing is sent too early. A built-in parser does not
fail; without tools it returns calls on the last chunk only. The tool parser does not return
content and calls together; when it returns neither, but there is thinking, it got what it
keeps to the end, which is nothing unless this is the end. -/
def Separate (h : Handler α β θ τ) (s : Parsing β θ τ) (found : Prop) [Decidable found]
    (r : CompletionResponse) : Prop :=
  match h.builtinParser with
  | some p => ∃ content thinking toolCalls,
      (p.add s.builtin r.content r.done).1 = .ok (content, thinking, toolCalls) ∧
        (h.tools = false → r.done = false → toolCalls = [])
  | none =>
      match h.tools, (h.thought s r).1 with
      | true, some (thinking, remaining) =>
          let ((toolCalls, content), state) := h.toolParser.add s.tool remaining
          let rest :=
            if r.done ∧ ¬found ∧ toolCalls = [] then h.toolParser.content state else []
          (content ≠ [] → toolCalls = [] ∧ rest = []) ∧
            (content = [] → toolCalls = [] → thinking ≠ [] → remaining = rest) ∧
            (content = [] → toolCalls = [] → thinking = [] → r.done →
              h.toolParser.content state = rest)
      | _, _ => True

def answer (h : Handler α β θ τ) (r : CompletionResponse) (content thinking : Text)
    (toolCalls : List (ToolCall α)) : ChatResponse α :=
  { h.res r with
    message := { (h.res r).message with
      content := content, thinking := thinking, toolCalls := toolCalls } }

/-- What the callback does with a chunk: the values that it sends, what the last parser
returned, and the parsers after it. -/
inductive Turn (h : Handler α β θ τ) (s : Parsing β θ τ) (r : CompletionResponse) :
    List (Value α) → Output α → Parsing β θ τ → Prop
  | failed (p : BuiltinParser α β) (err : Error) (state : β) (hb : h.builtinParser = some p)
      (hp : p.add s.builtin r.content r.done = (.error err, state)) :
      Turn h s r [.error err none] {} { s with builtin := state }
  | parsed (p : BuiltinParser α β) (content thinking : Text) (toolCalls : List (ToolCall α))
      (state : β) (hb : h.builtinParser = some p)
      (hp : p.add s.builtin r.content r.done = (.ok (content, thinking, toolCalls), state)) :
      Turn h s r [.response (h.answer r content thinking toolCalls)] ⟨content, thinking, toolCalls⟩
        { s with builtin := state }
  | silent (p : BuiltinParser α β) (state : β) (hb : h.builtinParser = some p)
      (hp : p.add s.builtin r.content r.done = (.ok ([], [], []), state)) (hd : r.done = false) :
      Turn h s r [] {} { s with builtin := state }
  | undecided (state : θ) (hb : h.builtinParser = none) (ht : h.thought s r = (none, state))
      (hd : r.done = false) : Turn h s r [] {} { s with thinking := state }
  | plain (thinking remaining : Text) (state : θ) (hb : h.builtinParser = none)
      (tools : h.tools = false) (ht : h.thought s r = (some (thinking, remaining), state)) :
      Turn h s r [.response (h.answer r remaining thinking [])] ⟨remaining, thinking, []⟩
        { s with thinking := state }
  | content (thinking remaining content : Text) (toolCalls : List (ToolCall α)) (state : θ)
      (state' : τ) (hb : h.builtinParser = none) (tools : h.tools = true)
      (ht : h.thought s r = (some (thinking, remaining), state))
      (ha : h.toolParser.add s.tool remaining = ((toolCalls, content), state'))
      (hc : content ≠ []) :
      Turn h s r [.response (h.answer r content thinking [])] ⟨content, thinking, toolCalls⟩
        { s with thinking := state, tool := state' }
  | calls (thinking remaining : Text) (toolCalls : List (ToolCall α)) (state : θ)
      (state' : τ) (hb : h.builtinParser = none) (tools : h.tools = true)
      (ht : h.thought s r = (some (thinking, remaining), state))
      (ha : h.toolParser.add s.tool remaining = ((toolCalls, []), state')) (hc : toolCalls ≠ []) :
      Turn h s r [.response (h.answer r [] thinking toolCalls)] ⟨[], thinking, toolCalls⟩
        { s with thinking := state, tool := state' }
  | raw (thinking remaining : Text) (state : θ) (state' : τ) (hb : h.builtinParser = none)
      (tools : h.tools = true) (ht : h.thought s r = (some (thinking, remaining), state))
      (ha : h.toolParser.add s.tool remaining = (([], []), state')) (hc : thinking ≠ []) :
      Turn h s r [.response (h.answer r remaining thinking [])] ⟨[], thinking, []⟩
        { s with thinking := state, tool := state' }
  | kept (remaining : Text) (state : θ) (state' : τ) (hb : h.builtinParser = none)
      (tools : h.tools = true) (ht : h.thought s r = (some ([], remaining), state))
      (ha : h.toolParser.add s.tool remaining = (([], []), state')) (hd : r.done = true) :
      Turn h s r [.response (h.answer r (h.toolParser.content state') [] [])] {}
        { s with thinking := state, tool := state' }
  | waiting (remaining : Text) (state : θ) (state' : τ) (hb : h.builtinParser = none)
      (tools : h.tools = true) (ht : h.thought s r = (some ([], remaining), state))
      (ha : h.toolParser.add s.tool remaining = (([], []), state')) (hd : r.done = false) :
      Turn h s r [] {} { s with thinking := state, tool := state' }

theorem callback_builtin (s : Parsing β θ τ) (r : CompletionResponse) {p : BuiltinParser α β}
    (hb : h.builtinParser = some p) : h.callback s r = h.builtin p s r := by
  rw [callback, hb]

/-- Without a built-in parser, the callback goes on with what the thinking parser decided. -/
theorem callback_generic (s : Parsing β θ τ) (r : CompletionResponse)
    (hb : h.builtinParser = none) :
    h.callback s r =
      match h.thought s r with
      | (none, state) => ({ s with thinking := state }, [])
      | (some (thinking, remaining), state) =>
          h.callTools { s with thinking := state } (h.answer r remaining thinking []) := by
  rcases ht : h.thinkingState with - | p
  · simp only [callback, thought, hb, ht]
    rfl
  simp only [callback, thought, hb, ht]
  by_cases none : (p.addContent s.thinking r.content).1.1 = [] ∧
      (p.addContent s.thinking r.content).1.2 = [] ∧ (!r.done) = true
  · rw [if_pos none, if_pos none]
  · rw [if_neg none, if_neg none]
    rfl

variable {s : Parsing β θ τ} {r : CompletionResponse}

theorem done_of_undecided (undecided : (h.thought s r).1 = none) : r.done = false := by
  rw [thought] at undecided
  split at undecided
  · cases undecided
  · dsimp only at undecided
    split at undecided
    · next none => simpa using none.2.2
    · cases undecided

/-- What the tool parser returned decides which response is sent. -/
theorem callTools_answer
    {thinking remaining content : Text} {toolCalls : List (ToolCall α)} {state : τ}
    (tools : h.tools = true)
    (ha : h.toolParser.add s.tool remaining = ((toolCalls, content), state)) :
    h.callTools s (h.answer r remaining thinking []) =
      if content ≠ [] then ({ s with tool := state }, [.response (h.answer r content thinking [])])
      else if toolCalls ≠ [] then
        ({ s with tool := state }, [.response (h.answer r [] thinking toolCalls)])
      else if thinking ≠ [] then
        ({ s with tool := state }, [.response (h.answer r remaining thinking [])])
      else if r.done then
        ({ s with tool := state },
          [.response (h.answer r (h.toolParser.content state) thinking [])])
      else ({ s with tool := state }, []) := by
  have sent : (h.answer r remaining thinking []).message.content = remaining := rfl
  simp only [callTools, tools, if_true, sent, ha]
  rfl

theorem returned_tools
    {thinking remaining content : Text} {toolCalls : List (ToolCall α)} {state : θ} {state' : τ}
    (hb : h.builtinParser = none) (tools : h.tools = true)
    (ht : h.thought s r = (some (thinking, remaining), state))
    (ha : h.toolParser.add s.tool remaining = ((toolCalls, content), state')) :
    h.returned s r =
      (⟨content, thinking, toolCalls⟩, { s with thinking := state, tool := state' }) := by
  simp only [returned, hb, ht, tools, if_true, ha]

theorem callback_turn (s : Parsing β θ τ) (r : CompletionResponse) :
    h.Turn s r (h.callback s r).2 (h.returned s r).1 (h.callback s r).1 ∧
      (h.callback s r).1 = (h.returned s r).2 := by
  rcases hb : h.builtinParser with - | p
  · have generic := callback_generic s r hb
    rcases ht : h.thought s r with ⟨- | ⟨thinking, remaining⟩, state⟩
    · have hd := done_of_undecided (congrArg Prod.fst ht)
      have ret : h.returned s r = ({}, { s with thinking := state }) := by
        simp only [returned, hb, ht]
      rw [ht] at generic
      rw [generic, ret]
      exact ⟨.undecided state hb ht hd, rfl⟩
    · rw [ht] at generic
      rw [generic]
      rcases tools : h.tools
      · have sent : h.callTools { s with thinking := state } (h.answer r remaining thinking []) =
            ({ s with thinking := state }, [.response (h.answer r remaining thinking [])]) := by
          rw [callTools, tools]
          rfl
        have ret : h.returned s r = (⟨remaining, thinking, []⟩, { s with thinking := state }) := by
          simp only [returned, hb, ht, tools]
          rfl
        dsimp only
        rw [sent, ret]
        exact ⟨.plain thinking remaining state hb tools ht, rfl⟩
      · rcases ha : h.toolParser.add s.tool remaining with ⟨⟨toolCalls, content⟩, state'⟩
        rw [returned_tools hb tools ht ha]
        dsimp only
        rw [callTools_answer (s := { s with thinking := state }) tools ha]
        by_cases hc : content = []
        · subst hc
          by_cases hcalls : toolCalls = []
          · subst hcalls
            by_cases hthink : thinking = []
            · subst hthink
              rcases hd : r.done
              · exact ⟨.waiting remaining state state' hb tools ht ha hd, rfl⟩
              · exact ⟨.kept remaining state state' hb tools ht ha hd, rfl⟩
            · rw [if_pos hthink]
              exact ⟨.raw thinking remaining state state' hb tools ht ha hthink, rfl⟩
          · rw [if_pos hcalls]
            exact ⟨.calls thinking remaining toolCalls state state' hb tools ht ha hcalls, rfl⟩
        · rw [if_pos hc]
          exact ⟨.content thinking remaining content toolCalls state state' hb tools ht ha hc, rfl⟩
  · rcases hp : p.add s.builtin r.content r.done with ⟨err | ⟨content, thinking, toolCalls⟩, state⟩
    · have ret : h.returned s r = ({}, { s with builtin := state }) := by
        simp only [returned, hb, hp]
      rw [ret, callback_builtin s r hb, builtin, hp]
      exact ⟨.failed p err state hb hp, rfl⟩
    have ret : h.returned s r = (⟨content, thinking, toolCalls⟩, { s with builtin := state }) := by
      simp only [returned, hb, hp]
    rw [ret, callback_builtin s r hb, builtin, hp]
    dsimp only
    split
    · exact ⟨.parsed p content thinking toolCalls state hb hp, rfl⟩
    · next empty =>
      simp only [not_or, not_not, Bool.not_eq_true] at empty
      obtain ⟨rfl, rfl, rfl, hd⟩ := empty
      exact ⟨.silent p state hb hp hd, rfl⟩

namespace Turn

variable {s s' : Parsing β θ τ} {r : CompletionResponse} {v : List (Value α)} {o : Output α}

theorem thinking (t : h.Turn s r v o s') :
    (responses v).flatMap (·.message.thinking) = o.thinking := by
  cases t <;> simp [responses, answer]

theorem toolCalls (t : h.Turn s r v o s') :
    (responses v).flatMap (·.message.toolCalls) = o.toolCalls ∨
      (responses v).flatMap (·.message.toolCalls) = [] := by
  cases t <;> simp [responses, answer]

theorem last (t : h.Turn s r v o s') (hd : r.done = true)
    (ok : ∀ msg status, Value.error msg status ∉ v) :
    ∃ res : ChatResponse α, v = [.response res] ∧ res.done = true := by
  cases t with
  | failed p err state hb hp => exact absurd mem_cons_self (ok err none)
  | silent p state hb hp hd' => rw [hd] at hd'; cases hd'
  | undecided state hb ht hd' => rw [hd] at hd'; cases hd'
  | waiting remaining state state' hb tools ht ha hd' => rw [hd] at hd'; cases hd'
  | _ => exact ⟨_, rfl, hd⟩

/-- A chunk is separate exactly when no error is sent, without tools the calls wait for the
last chunk, and what is sent is what is returned. -/
theorem separate_iff (t : h.Turn s r v o s') (found : Prop) [Decidable found] :
    h.Separate s found r ↔ (∀ msg status, Value.error msg status ∉ v) ∧
      (h.tools = false → r.done = false → o.toolCalls = []) ∧
      (responses v).flatMap (·.message.content) = o.content ++ h.rest found r o s' ∧
      (responses v).flatMap (·.message.toolCalls) = o.toolCalls := by
  cases t with
  | failed p err state hb hp =>
      simp [Separate, hb, hp]
  | parsed p content thinking toolCalls state hb hp =>
      simp [Separate, hb, hp, responses, answer, rest]
  | silent p state hb hp hd =>
      simp [Separate, hb, hp, responses, rest]
  | undecided state hb ht hd =>
      simp [Separate, hb, ht, responses, rest, hd]
  | plain thinking remaining state hb tools ht =>
      simp [Separate, hb, ht, tools, responses, answer, rest]
  | content thinking remaining content toolCalls state state' hb tools ht ha hc =>
      simp [Separate, hb, ht, tools, ha, hc, responses, answer, rest]
      exact and_comm
  | calls thinking remaining toolCalls state state' hb tools ht ha hc =>
      simp [Separate, hb, ht, tools, ha, hc, responses, answer, rest]
  | raw thinking remaining state state' hb tools ht ha hc =>
      simp [Separate, hb, ht, tools, ha, hc, responses, answer, rest]
  | kept remaining state state' hb tools ht ha hd =>
      simp [Separate, hb, ht, tools, ha, hd, responses, answer, rest]
  | waiting remaining state state' hb tools ht ha hd =>
      simp [Separate, hb, ht, tools, ha, hd, responses, rest]

end Turn

/-! ## §6  A completion -/

/-- Every chunk is separate. -/
def Separates (h : Handler α β θ τ) (s : Parsing β θ τ) (rs : List CompletionResponse) : Prop :=
  ∀ pre r post, rs = pre ++ r :: post →
    h.Separate (h.after s pre) ((h.outputs s pre).flatMap (·.toolCalls) ≠ []) r

section

variable (s : Parsing β θ τ)

theorem channel_append (xs ys : List CompletionResponse) :
    h.channel s (xs ++ ys) = h.channel s xs ++ h.channel (h.after s xs) ys := by
  induction xs generalizing s with
  | nil => rfl
  | cons r xs ih =>
      rw [cons_append, channel, channel, ih, (callback_turn s r).2, append_assoc]
      rfl

theorem outputs_append (xs ys : List CompletionResponse) :
    h.outputs s (xs ++ ys) = h.outputs s xs ++ h.outputs (h.after s xs) ys := by
  induction xs generalizing s with
  | nil => rfl
  | cons r xs ih =>
      rw [cons_append, outputs, outputs, ih]
      rfl

/-- The chunk at a place of the sequence. -/
theorem turn_at (pre : List CompletionResponse) (r : CompletionResponse) :
    ∃ v o s', h.Turn (h.after s pre) r v o s' ∧ h.channel s (pre ++ [r]) = h.channel s pre ++ v ∧
      h.outputs s (pre ++ [r]) = h.outputs s pre ++ [o] ∧ h.after s (pre ++ [r]) = s' := by
  obtain ⟨t, state⟩ := callback_turn (h := h) (h.after s pre) r
  rw [state] at t
  refine ⟨_, _, _, t, ?_, ?_, ?_⟩
  · rw [channel_append]
    simp [channel]
  · rw [outputs_append]
    rfl
  · simp [after]

theorem sent_thinking (rs : List CompletionResponse) :
    (responses (h.channel s rs)).flatMap (·.message.thinking) =
      (h.outputs s rs).flatMap (·.thinking) := by
  induction rs using List.reverseRecOn with
  | nil => rfl
  | append_singleton rs r ih =>
      obtain ⟨v, o, s', t, sent, out, -⟩ := turn_at (h := h) s rs r
      rw [sent, out, responses_append, flatMap_append, flatMap_append, ih, t.thinking]
      simp

/-- Not more calls are sent than are returned. -/
theorem sent_toolCalls_le (rs : List CompletionResponse) :
    ((responses (h.channel s rs)).flatMap (·.message.toolCalls)).length ≤
      ((h.outputs s rs).flatMap (·.toolCalls)).length := by
  induction rs using List.reverseRecOn with
  | nil => exact Nat.le_refl 0
  | append_singleton rs r ih =>
      obtain ⟨v, o, s', t, sent, out, -⟩ := turn_at (h := h) s rs r
      rw [sent, out, responses_append, flatMap_append, flatMap_append, length_append, length_append]
      have one : ((responses v).flatMap (·.message.toolCalls)).length ≤ o.toolCalls.length := by
        rcases t.toolCalls with h | h <;> simp [h]
      simpa using Nat.add_le_add ih one

end

theorem kept_last {s s' : Parsing β θ τ} {init : List CompletionResponse}
    {o : Output α} (hd : r.done = true) (out : h.outputs s (init ++ [r]) = h.outputs s init ++ [o])
    (state : h.after s (init ++ [r]) = s') :
    h.kept s (init ++ [r]) = h.rest ((h.outputs s init).flatMap (·.toolCalls) ≠ []) r o s' := by
  simp only [kept, rest, out, state, hd, flatMap_append, append_eq_nil_iff, not_not,
    true_and, flatMap_cons, flatMap_nil, append_nil]

theorem rest_inner {found : Prop} [Decidable found] {o : Output α}
    {s' : Parsing β θ τ} (hd : r.done = false) : h.rest found r o s' = [] := by
  simp [rest, hd]

variable {s : Parsing β θ τ} {rs : List CompletionResponse}

/-- As long as every chunk is separate, there is no error, every call is sent, and before the
end all content is. -/
theorem Separates.front
    (sep : h.Separates s rs) (hr : Completion rs) {pre post : List CompletionResponse}
    (hrs : rs = pre ++ post) :
    (∀ msg status, Value.error msg status ∉ h.channel s pre) ∧
    (responses (h.channel s pre)).flatMap (·.message.toolCalls) =
      (h.outputs s pre).flatMap (·.toolCalls) ∧
    (post ≠ [] → (responses (h.channel s pre)).flatMap (·.message.content) =
          (h.outputs s pre).flatMap (·.content) ∧
        (h.tools = false → (h.outputs s pre).flatMap (·.toolCalls) = [])) := by
  induction pre using List.reverseRecOn generalizing post with
  | nil => simp [channel, outputs, responses]
  | append_singleton pre r ih =>
      have here : rs = pre ++ r :: post := by simpa using hrs
      obtain ⟨noError, calls, inner⟩ := ih here
      obtain ⟨content, plain⟩ := inner (cons_ne_nil r post)
      obtain ⟨v, o, s', t, sent, out, -⟩ := turn_at (h := h) s pre r
      obtain ⟨noError', plain', content', calls'⟩ := (t.separate_iff _).mp (sep pre r post here)
      rw [sent, out]
      refine ⟨?_, ?_, fun hpost => ?_⟩
      · intro msg status hmem
        rcases mem_append.mp hmem with hmem | hmem
        · exact noError msg status hmem
        · exact noError' msg status hmem
      · rw [responses_append, flatMap_append, flatMap_append, calls, calls']
        simp
      have hd : r.done = false := hr.inner here hpost
      rw [rest_inner hd, append_nil] at content'
      constructor
      · rw [responses_append, flatMap_append, flatMap_append, content, content']
        simp
      · intro tools
        simp [plain tools, plain' tools hd]

theorem Separates.delivers (hr : Completion rs) (sep : h.Separates s rs) : h.Delivers s rs := by
  obtain ⟨noError, calls, -⟩ := sep.front hr (append_nil rs).symm
  obtain ⟨init, last, hrs, -, hd⟩ := id hr
  obtain ⟨-, calls', inner⟩ := sep.front hr hrs
  obtain ⟨content, plain⟩ := inner (cons_ne_nil last [])
  obtain ⟨v, o, s', t, sent, out, state⟩ := turn_at (h := h) s init last
  obtain ⟨noError', -, content', -⟩ := (t.separate_iff _).mp (sep init last [] hrs)
  obtain ⟨res, rfl, hres⟩ := t.last hd noError'
  have ends : responses (h.channel s rs) = responses (h.channel s init) ++ [res] := by
    rw [hrs, sent, responses_append]
    rfl
  refine ⟨?_, sent_thinking s rs, calls, ?_, ⟨res, ?_, hres⟩, ?_⟩
  · rw [ends, hrs, out, kept_last hd out state, flatMap_append, flatMap_append, content,
      append_assoc]
    exact congrArg _ (content'.trans (by simp))
  · intro pre post split hpost
    exact ((sep.front hr split).2.2 hpost).1
  · rw [ends, getLast?_concat]
  refine ⟨aggregate h.tools (responses (h.channel s rs)), ?_, ?_, ?_, ?_⟩
  · have collected := collect_response h.tools (responses (h.channel s rs)) {}
    rw [map_responses noError] at collected
    exact collected
  · rw [aggregate_content]
  · rw [aggregate_thinking]
  · rcases tools : h.tools
    · rw [aggregate_lastToolCalls, ends, getLast?_concat, flatMap_append, calls', plain tools]
      simp
    · rw [aggregate_toolCalls]

theorem Delivers.separates (hr : Completion rs) (del : h.Delivers s rs) : h.Separates s rs := by
  intro pre r post hrs
  obtain ⟨v, o, s', t, sent, out, state⟩ := turn_at (h := h) s pre r
  have split : rs = (pre ++ [r]) ++ post := by simpa using hrs
  have whole : h.channel s rs = h.channel s pre ++ v ++ h.channel s' post := by
    rw [split, channel_append, sent, state]
  have outs : h.outputs s rs = h.outputs s pre ++ [o] ++ h.outputs s' post := by
    rw [split, outputs_append, out, state]
  obtain ⟨body, ok, -, -, bodyCalls⟩ := del.whole
  obtain ⟨xs, hxs⟩ := collect_ok ok
  -- no error on the channel
  have noError : ∀ msg status, Value.error msg status ∉ h.channel s rs := by
    intro msg status hmem
    rw [hxs] at hmem
    obtain ⟨x, -, hx⟩ := mem_map.mp hmem
    cases hx
  have noError' : ∀ msg status, Value.error msg status ∉ v := by
    intro msg status hmem
    refine noError msg status ?_
    rw [whole]
    exact mem_append_left _ (mem_append_right _ hmem)
  -- no call of the chunk is lost, as none is of all of them
  have calls : (responses v).flatMap (·.message.toolCalls) = o.toolCalls := by
    have total := congrArg List.length del.toolCalls
    rw [whole, outs] at total
    simp only [responses_append, flatMap_append, length_append, flatMap_cons,
      flatMap_nil, append_nil] at total
    have before := sent_toolCalls_le (h := h) s pre
    have later := sent_toolCalls_le (h := h) s' post
    rcases t.toolCalls with same | none
    · exact same
    · rw [none, length_nil] at total
      have empty : o.toolCalls.length = 0 := by omega
      rw [none, length_eq_zero_iff.mp empty]
  refine (t.separate_iff _).mpr ⟨noError', fun tools hd => ?_, ?_, calls⟩
  · -- only the calls of the last response are in the one that is made of all
    obtain ⟨init, last, hinit, -, hlast⟩ := hr
    obtain ⟨vₗ, oₗ, sₗ, tₗ, sentₗ, -, -⟩ := turn_at (h := h) s init last
    have noErrorₗ : ∀ msg status, Value.error msg status ∉ vₗ := by
      intro msg status hmem
      refine noError msg status ?_
      rw [hinit, sentₗ]
      exact mem_append_right _ hmem
    obtain ⟨res, rfl, -⟩ := tₗ.last hlast noErrorₗ
    have ends : responses (h.channel s rs) = responses (h.channel s init) ++ [res] := by
      rw [hinit, sentₗ, responses_append]
      rfl
    have made : body = aggregate false (responses (h.channel s rs)) := by
      have collected := collect_response h.tools xs {}
      rw [← hxs, ok, tools] at collected
      rw [hxs, responses_response]
      exact Except.ok.inj collected
    rw [made, aggregate_lastToolCalls, ends, getLast?_concat, flatMap_append] at bodyCalls
    have inner : (responses (h.channel s init)).flatMap (·.message.toolCalls) = [] := by
      simpa using bodyCalls
    have front : ∃ post', init = (pre ++ [r]) ++ post' := by
      rcases eq_nil_or_concat post with rfl | ⟨post', l, rfl⟩
      · obtain ⟨-, same⟩ := append_inj' (hrs.symm.trans hinit) rfl
        cases same
        rw [hd] at hlast
        cases hlast
      · have eq : (pre ++ [r] ++ post') ++ [l] = init ++ [last] := by
          rw [← hinit, split]
          simp
        exact ⟨post', (append_inj' eq rfl).1.symm⟩
    obtain ⟨post', rfl⟩ := front
    rw [channel_append, sent, responses_append, responses_append, flatMap_append,
      flatMap_append, append_eq_nil_iff, append_eq_nil_iff] at inner
    rw [← calls, inner.1.2]
  · have before := del.unheld pre (r :: post) hrs (cons_ne_nil r post)
    rcases post with - | ⟨l, post⟩
    · have hd : r.done = true := by
        obtain ⟨init, last, hinit, -, hlast⟩ := hr
        obtain ⟨-, same⟩ := append_inj' (hrs.symm.trans hinit) rfl
        cases same
        exact hlast
      have total := del.content
      rw [hrs, sent, out, kept_last hd out state, responses_append, flatMap_append,
        flatMap_append, before, append_assoc] at total
      simpa using append_cancel_left total
    · have later := del.unheld (pre ++ [r]) (l :: post) split (cons_ne_nil l post)
      rw [sent, out, responses_append, flatMap_append, flatMap_append, before] at later
      rw [rest_inner (hr.inner hrs (cons_ne_nil l post))]
      simpa using append_cancel_left later

/-- Everything that the parsers return is delivered exactly when every chunk is separate. -/
theorem delivers_iff (s : Parsing β θ τ) (rs : List CompletionResponse) (hr : Completion rs) :
    h.Delivers s rs ↔ h.Separates s rs :=
  ⟨fun del => del.separates hr, fun sep => sep.delivers hr⟩

end Handler

/-! ## §7  The generic parsers -/

/-- The handler with a thinking parser and a tool parser. -/
def generic (findArguments : Text → Text → Option (α × ℕ)) :
    Handler α Unit Thinking.Parser Tools.Parser :=
  { model := []
    tools := true
    builtinParser := none
    thinkingState := some ⟨Thinking.Parser.addContent⟩
    toolParser := ⟨fun p s => p.add findArguments s, Tools.Parser.content⟩ }

def genericStart (tag : Text) (names : List Text) : Parsing Unit Thinking.Parser Tools.Parser :=
  ⟨(), .new "<think>".toList "</think>".toList, Tools.newParserWithTag (names.map .mk) tag⟩

def apartChunks : List CompletionResponse :=
  [{ content := "<think>a</think>b".toList }, { content := [], done := true }]

theorem delivers_iff_apart : (generic (α := Unit) fun _ _ => none).Delivers
      (genericStart "<tool_call>".toList ["get".toList]) apartChunks := by
  refine (Handler.delivers_iff _ _ ⟨[_], _, rfl, by decide, rfl⟩).mpr fun pre r post split => ?_
  rcases pre with - | ⟨a, - | ⟨b, pre⟩⟩
  · cases split
    exact ⟨by decide +kernel, by decide +kernel, by decide +kernel⟩
  · cases split
    exact ⟨by decide +kernel, by decide +kernel, by decide +kernel⟩
  · have := congrArg List.length split
    simp at this

/-- What may begin a tag is sent with the thinking, and once more when it turns out to be
content. -/
theorem notDelivers_overlap :
    Completion [{ content := "<think>a</think><".toList }, { content := ['b'], done := true }] ∧
      ¬(generic (α := Unit) fun _ _ => none).Delivers
        (genericStart "<tool_call>".toList ["get".toList])
        [{ content := "<think>a</think><".toList }, { content := ['b'], done := true }] :=
  ⟨⟨[_], _, rfl, by decide, rfl⟩, fun del => absurd del.content (by decide +kernel)⟩

end Ollama.Server
