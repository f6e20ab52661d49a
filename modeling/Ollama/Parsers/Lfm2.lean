import Ollama.Api
import Ollama.Parsers.Parser

/-!
# The LFM2 parser

`model/parsers/lfm2.go`: an optional thinking block, content, and tool calls between two tags,
written as calls of Python functions. What `parsePythonArgs` makes of the text between the
parentheses is a parameter, `noArgs` the empty map.
-/

namespace Ollama.Parsers

open Lib
open Api (ToolCall)

-- membership in a list of texts is decided by their equality
local instance lawfulText : LawfulBEq (List Char) := List.instLawfulBEq

variable {α : Type}

def lfm2ThinkingOpenTag : Text := "<think>".toList

def lfm2ThinkingCloseTag : Text := "</think>".toList

def lfm2ToolCallStartTag : Text := "<|tool_call_start|>".toList

def lfm2ToolCallEndTag : Text := "<|tool_call_end|>".toList

/-! ## §1  Tool calls -/

/-- What stands in a call of a Python function: the arguments of the model's calls. -/
structure PythonArgs (α : Type) where
  noArgs : α
  parsePythonArgs : Text → Except Error α

/-- The loop of `findMatchingParen` from the index `i` on. `quote`: within a quoted string. -/
def findMatchingParen : ℕ → Option Char → ℕ → Text → Option ℕ
  | _, _, _, [] => none
  | depth, some quote, i, c :: s =>
      if c = quote then findMatchingParen depth none (i + 1) s
      else if c = '\\' then
        match s with
        | [] => none
        | _ :: s => findMatchingParen depth (some quote) (i + 2) s
      else findMatchingParen depth (some quote) (i + 1) s
  | depth, none, i, c :: s =>
      if c = '(' then findMatchingParen (depth + 1) none (i + 1) s
      else if c = ')' then
        if depth = 1 then some i else findMatchingParen (depth - 1) none (i + 1) s
      else if c = '\'' ∨ c = '"' then findMatchingParen depth (some c) (i + 1) s
      else findMatchingParen depth none (i + 1) s

/-- `strings.TrimPrefix` -/
def trimPrefix (s tag : Text) : Text := if tag <+: s then s.drop tag.length else s

/-- `strings.TrimSuffix` -/
def trimSuffix (s tag : Text) : Text := if tag <:+ s then s.take (s.length - tag.length) else s

def skipComma (content : Text) : Text :=
  if [','] <+: content then trimSpace (content.drop 1) else content

/-- One turn of the loop of `parsePythonStyleToolCalls`: the call, and what follows it. -/
def parsePythonStyleToolCall (args : PythonArgs α) (content : Text) :
    Except Error (ToolCall α × Text) :=
  match cut content ['('] with
  | none => .error "invalid tool call: no opening parenthesis"
  | some (before, after) =>
      let funcName := trimSpace before
      if funcName = [] then .error "invalid tool call: empty function name"
      else
        match findMatchingParen 1 none 0 after with
        | none => .error "invalid tool call: no matching closing parenthesis"
        | some closeIdx =>
            let argsStr := after.take closeIdx
            (if argsStr = [] then .ok args.noArgs else args.parsePythonArgs argsStr).map
              fun arguments =>
                ({ function := { name := funcName, arguments := arguments } },
                  after.drop (closeIdx + 1))

/-- The loop of `parsePythonStyleToolCalls`, with the calls so far. Every turn shortens the
content, so that `content.length + 1` turns are enough. -/
def parsePythonCalls (args : PythonArgs α) :
    ℕ → Text → List (ToolCall α) → Except Error (List (ToolCall α))
  | 0, _, toolCalls => .ok toolCalls
  | fuel + 1, content, toolCalls =>
      let content := skipComma (trimSpace content)
      if content = [] then .ok toolCalls
      else
        match parsePythonStyleToolCall args content with
        | .error e => .error e
        | .ok (call, content) => parsePythonCalls args fuel content (toolCalls ++ [call])

def stripBrackets (content : Text) : Text :=
  if ['['] <+: content ∧ [']'] <:+ content then (content.take (content.length - 1)).drop 1
  else content

def parsePythonStyleToolCalls (args : PythonArgs α) (content : Text) :
    Except Error (List (ToolCall α)) :=
  let content := stripBrackets (trimSpace content)
  match parsePythonCalls args (content.length + 1) content [] with
  | .error e => .error e
  | .ok toolCalls => if toolCalls = [] then .error "no tool calls found" else .ok toolCalls

def parseToolCallsContent (args : PythonArgs α) (content : Text) :
    Except Error (List (ToolCall α)) :=
  let content := trimSpace content
  let content := trimSpace (trimPrefix content lfm2ToolCallStartTag)
  let content := trimSpace (trimSuffix content lfm2ToolCallEndTag)
  parsePythonStyleToolCalls args content

/-! ## §2  The parser -/

inductive LFM2ParserState
  | lookingForThinking
  | collectingThinking
  | collectingContent
  | collectingToolCalls
  deriving DecidableEq

structure LFM2Parser where
  state : LFM2ParserState
  buffer : Text
  callIndex : ℤ
  needsThinkingLeadingTrim : Bool
  needsContentLeadingTrim : Bool
  toolNames : List Text
  hasTools : Bool
  deriving DecidableEq

inductive LFM2Event (α : Type)
  | thinkingContent (content : Text)
  | content (content : Text)
  | toolCall (toolCall : ToolCall α)

namespace LFM2Parser

/-- `Init`. `tools`: the names of the tools; `prefilled`: the last message is the assistant's,
and has content. -/
def init (hasThinkingSupport : Bool) (tools : List Text) (prefilled : Bool) : LFM2Parser :=
  { state :=
      if !hasThinkingSupport then .collectingContent
      else if prefilled then .collectingContent
      else .lookingForThinking
    buffer := []
    callIndex := 0
    needsThinkingLeadingTrim := false
    needsContentLeadingTrim := false
    toolNames := tools.filter (· ≠ [])
    hasTools := tools ≠ [] }

def toolCallsAllowed (p : LFM2Parser) (calls : List (ToolCall α)) : Bool :=
  if calls = [] then false
  else if p.toolNames = [] then true
  else calls.all fun call => call.function.name ∈ p.toolNames

def contentEvent (content : Text) : List (LFM2Event α) :=
  if content = [] then [] else [.content content]

def thinkingEvent (content : Text) : List (LFM2Event α) :=
  if content = [] then [] else [.thinkingContent content]

def eatLooking (p : LFM2Parser) : List (LFM2Event α) × LFM2Parser × Bool :=
  let trimmed := trimLeft p.buffer
  if lfm2ThinkingOpenTag <+: trimmed then
    ([], { p with
      buffer := trimmed.drop lfm2ThinkingOpenTag.length
      state := .collectingThinking
      needsThinkingLeadingTrim := true }, true)
  else if trimmed = [] ∨ trimmed <+: lfm2ThinkingOpenTag then ([], p, false)
  else ([], { p with buffer := trimmed, state := .collectingContent }, true)

def stripOpenTag (p : LFM2Parser) : LFM2Parser :=
  if lfm2ThinkingOpenTag <+: p.buffer then
    { p with
      buffer := p.buffer.drop lfm2ThinkingOpenTag.length
      needsThinkingLeadingTrim := true }
  else p

def trimThinking (p : LFM2Parser) : LFM2Parser :=
  if p.needsThinkingLeadingTrim then
    let trimmed := trimLeft p.buffer
    { p with buffer := trimmed, needsThinkingLeadingTrim := trimmed = [] }
  else p

/-- Thinking, after what may stand in front of it. Without a partial tag the overlap is 0, and
only the white space at the end is held back. -/
def eatThought (p : LFM2Parser) : List (LFM2Event α) × LFM2Parser × Bool :=
  match cut p.buffer lfm2ThinkingCloseTag with
  | some (before, after) =>
      let remaining := trimLeft after
      (thinkingEvent (trimRight before), { p with
          buffer := remaining
          state := .collectingContent
          needsThinkingLeadingTrim := false
          needsContentLeadingTrim := remaining = [] }, true)
  | none =>
      let hold := ambiguousStart p.buffer (overlap p.buffer lfm2ThinkingCloseTag)
      (thinkingEvent (p.buffer.take hold), { p with buffer := p.buffer.drop hold }, false)

def eatThinking (p : LFM2Parser) : List (LFM2Event α) × LFM2Parser × Bool :=
  eatThought (trimThinking (stripOpenTag p))

def trimContent (p : LFM2Parser) : LFM2Parser :=
  if p.needsContentLeadingTrim then
    let trimmed := trimLeft p.buffer
    { p with buffer := trimmed, needsContentLeadingTrim := trimmed = [] }
  else p

def eatContent (p : LFM2Parser) : List (LFM2Event α) × LFM2Parser × Bool :=
  let p := trimContent p
  match cut p.buffer lfm2ToolCallStartTag with
  | some (before, remaining) =>
      (contentEvent (trimRight before),
        { p with buffer := remaining, state := .collectingToolCalls }, true)
  | none => (contentEvent p.buffer, { p with buffer := [] }, false)

/-- A body that cannot be parsed stays in the buffer. -/
def eatToolCalls (args : PythonArgs α) (p : LFM2Parser) : List (LFM2Event α) × LFM2Parser × Bool :=
  match cut p.buffer lfm2ToolCallEndTag with
  | none => ([], p, false)
  | some (toolCallContent, remaining) =>
      match parseToolCallsContent args toolCallContent with
      | .error _ => ([], p, false)
      | .ok toolCalls =>
          if toolCalls = [] then ([], p, false)
          else if lfm2ToolCallStartTag <+: remaining then
            (toolCalls.map .toolCall,
              { p with buffer := remaining.drop lfm2ToolCallStartTag.length }, true)
          else
            (toolCalls.map .toolCall,
              { p with buffer := trimLeft remaining, state := .collectingContent }, true)

def eat (args : PythonArgs α) (p : LFM2Parser) : List (LFM2Event α) × LFM2Parser × Bool :=
  if p.buffer = [] then ([], p, false)
  else
    match p.state with
    | .lookingForThinking => eatLooking p
    | .collectingThinking => eatThinking p
    | .collectingContent => eatContent p
    | .collectingToolCalls => eatToolCalls args p

/-! ## §3  Its loop -/

/-- The turns that the loop still goes on for, at most. -/
def turns (p : LFM2Parser) : ℕ :=
  p.buffer.length + if p.state = .lookingForThinking then 1 else 0

def parseEvents (args : PythonArgs α) (p : LFM2Parser) : List (LFM2Event α) × LFM2Parser :=
  drain (eat args) (turns p + 1) p

def collect : List (LFM2Event α) → Response (ToolCall α)
  | [] => .none
  | .toolCall toolCall :: events => ⟨[], [], [toolCall], none⟩ ++ collect events
  | .thinkingContent content :: events => ⟨[], content, [], none⟩ ++ collect events
  | .content content :: events => ⟨content, [], [], none⟩ ++ collect events

/-! ## §4  Calls of `Add` -/

def commit (done : Bool) (p : LFM2Parser) : LFM2Parser :=
  if done ∧ p.state = .lookingForThinking ∧ ¬lfm2ThinkingOpenTag <+: trimLeft p.buffer then
    { p with buffer := trimLeft p.buffer, state := .collectingContent }
  else p

/-- The calls that the content is read as, when it is all that is left. -/
def fallback (args : PythonArgs α) (done : Bool) (p : LFM2Parser)
    (r : Response (ToolCall α)) : Response (ToolCall α) :=
  if done ∧ r.calls = [] ∧ p.hasTools then
    match parseToolCallsContent args (trimSpace r.content) with
    | .error _ => r
    | .ok calls =>
        if toolCallsAllowed p calls then { r with content := [], calls := calls } else r
  else r

def number : ℤ → List (ToolCall α) → List (ToolCall α)
  | _, [] => []
  | i, call :: calls =>
      { call with function := { call.function with index := i } } :: number (i + 1) calls

def add (args : PythonArgs α) (s : Text) (done : Bool) (p : LFM2Parser) :
    Response (ToolCall α) × LFM2Parser :=
  let out := parseEvents args (commit done { p with buffer := p.buffer ++ s })
  let r := fallback args done out.2 (collect out.1)
  ({ r with calls := number out.2.callIndex r.calls },
    { out.2 with callIndex := out.2.callIndex + r.calls.length })

/-! ## §5  The loop ends -/

variable {args : PythonArgs α} {p q : LFM2Parser}

theorem stripOpenTag_length_le (p : LFM2Parser) :
    (stripOpenTag p).buffer.length ≤ p.buffer.length := by
  unfold stripOpenTag
  split
  · exact (List.drop_sublist _ _).length_le
  · exact Nat.le_refl _

theorem trimThinking_length_le (p : LFM2Parser) :
    (trimThinking p).buffer.length ≤ p.buffer.length := by
  unfold trimThinking
  split
  · exact trimLeft_length_le _
  · exact Nat.le_refl _

theorem trimContent_length_le (p : LFM2Parser) :
    (trimContent p).buffer.length ≤ p.buffer.length := by
  unfold trimContent
  split
  · exact trimLeft_length_le _
  · exact Nat.le_refl _

theorem turns_of_state (h : p.state ≠ .lookingForThinking) : turns p = p.buffer.length := by
  rw [turns, if_neg h, Nat.add_zero]

theorem eatLooking_turns (hp : p.state = .lookingForThinking)
    (h : (eatLooking (α := α) p).2.2 = true) :
    turns (eatLooking (α := α) p).2.1 < turns p := by
  have hle := trimLeft_length_le p.buffer
  have here : turns p = p.buffer.length + 1 := by rw [turns, if_pos hp]
  rw [here]
  unfold eatLooking at h ⊢
  simp only at h ⊢
  split
  · exact Nat.lt_succ_of_le (((List.drop_sublist _ _).length_le).trans hle)
  rename_i hopen
  rw [if_neg hopen] at h
  split
  · next hwait =>
    rw [if_pos hwait] at h
    cases h
  · exact Nat.lt_succ_of_le hle

theorem eatThinking_turns (h : (eatThinking (α := α) p).2.2 = true) :
    turns (eatThinking (α := α) p).2.1 < p.buffer.length := by
  have hle := (trimThinking_length_le (stripOpenTag p)).trans (stripOpenTag_length_le p)
  unfold eatThinking eatThought at h ⊢
  cases hcut : cut (trimThinking (stripOpenTag p)).buffer lfm2ThinkingCloseTag with
  | some x =>
    have hlen := cut_length (by decide) hcut
    have htag : lfm2ThinkingCloseTag.length = 8 := by decide
    have htrim := trimLeft_length_le x.2
    show (trimLeft x.2).length < _
    omega
  | none =>
    rw [hcut] at h
    cases h

theorem eatContent_turns (h : (eatContent (α := α) p).2.2 = true) :
    turns (eatContent (α := α) p).2.1 < p.buffer.length := by
  have hle := trimContent_length_le p
  unfold eatContent at h ⊢
  dsimp only at h ⊢
  cases hcut : cut (trimContent p).buffer lfm2ToolCallStartTag with
  | some x =>
    have hlen := cut_length (by decide) hcut
    have htag : lfm2ToolCallStartTag.length = 19 := by decide
    show x.2.length < _
    omega
  | none =>
    rw [hcut] at h
    cases h

theorem eatToolCalls_turns (hp : p.state = .collectingToolCalls)
    (h : (eatToolCalls args p).2.2 = true) :
    turns (eatToolCalls args p).2.1 < p.buffer.length := by
  unfold eatToolCalls at h ⊢
  cases hcut : cut p.buffer lfm2ToolCallEndTag with
  | none =>
    rw [hcut] at h
    cases h
  | some x =>
    have hlen := cut_length (by decide) hcut
    have htag : lfm2ToolCallEndTag.length = 17 := by decide
    have htrim := trimLeft_length_le x.2
    rw [hcut] at h
    dsimp only at h ⊢
    cases hcalls : parseToolCallsContent args x.1 with
    | error e =>
      rw [hcalls] at h
      cases h
    | ok toolCalls =>
      rw [hcalls] at h
      dsimp only at h ⊢
      split
      · next hnil =>
        rw [if_pos hnil] at h
        cases h
      split
      · rw [turns_of_state (by rw [hp]; nofun)]
        rw [List.length_drop]
        omega
      · show (trimLeft x.2).length < _
        omega

/-- Every turn after which the loop goes on uses something up. -/
theorem eat_turns (h : (eat args p).2.2 = true) : turns (eat args p).2.1 < turns p := by
  have hle : p.buffer.length ≤ turns p := Nat.le_add_right _ _
  unfold eat at h ⊢
  by_cases hne : p.buffer = []
  · rw [if_pos hne] at h
    cases h
  rw [if_neg hne] at h ⊢
  cases hp : p.state with
  | lookingForThinking =>
    rw [hp] at h
    exact eatLooking_turns hp h
  | collectingThinking =>
    rw [hp] at h
    exact Nat.lt_of_lt_of_le (eatThinking_turns h) hle
  | collectingContent =>
    rw [hp] at h
    exact Nat.lt_of_lt_of_le (eatContent_turns h) hle
  | collectingToolCalls =>
    rw [hp] at h
    exact Nat.lt_of_lt_of_le (eatToolCalls_turns hp h) hle

theorem parseEvents_eq (args : PythonArgs α) (p : LFM2Parser) : parseEvents args p =
      if (eat args p).2.2 then
        ((eat args p).1 ++ (parseEvents args (eat args p).2.1).1,
          (parseEvents args (eat args p).2.1).2)
      else ((eat args p).1, (eat args p).2.1) := by
  have hμ : ∀ p, (eat args p).2.2 = true → turns (eat args p).2.1 < turns p :=
    fun _ h => eat_turns h
  unfold parseEvents
  rw [drain_succ]
  split
  · next h => rw [drain_enough turns hμ (turns p) _ (hμ p h)]
  · rfl

theorem parseEvents_more {es : List (LFM2Event α)} (h : eat args p = (es, q, true)) :
    parseEvents args p = (es ++ (parseEvents args q).1, (parseEvents args q).2) := by
  rw [parseEvents_eq, h]
  rfl

theorem parseEvents_last {es : List (LFM2Event α)} (h : eat args p = (es, q, false)) :
    parseEvents args p = (es, q) := by
  rw [parseEvents_eq, h]
  rfl

theorem parseEvents_nil (h : p.buffer = []) : parseEvents args p = ([], p) :=
  parseEvents_last (by rw [eat, if_pos h])

theorem collect_append (es es' : List (LFM2Event α)) :
    collect (es ++ es') = collect es ++ collect es' := by
  induction es with
  | nil => rfl
  | cons e es ih => cases e <;> simp only [List.cons_append, collect, ih, Response.append_assoc]

end LFM2Parser

end Ollama.Parsers
