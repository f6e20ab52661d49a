import Ollama.Parsers.Qwen3Coder

/-!
# The parser of qwen3.5

`model/parsers/qwen35.go`: thinking up to `</think>`, and then content, which is passed on to
the parser of qwen3-coder.
-/

namespace Ollama.Parsers

open Lib

/-! ## §1  The parser -/

inductive Qwen35ParserState
  | collectingThinking
  | thinkingDoneEatingWhitespace
  | collectingContent
  deriving DecidableEq

def qwen35ThinkingOpenTag : Text := "<think>".toList

def qwen35ThinkingCloseTag : Text := "</think>".toList

def qwen35ToolCallOpenTag : Text := "<tool_call>".toList

structure Qwen35Parser where
  toolParser : Qwen3CoderParser
  state : Qwen35ParserState
  buffer : Text
  allowLeadingThinkOpenTag : Bool
  trimLeadingThinkingSpace : Bool
  deriving DecidableEq

inductive Qwen35Event
  | content (content : Text)
  | thinkingContent (content : Text)
  deriving DecidableEq

namespace Qwen35Parser

variable {τ : Type}

/-- `Init` -/
def init (thinkingEnabled assistantPrefill : Bool) : Qwen35Parser :=
  if thinkingEnabled && !assistantPrefill then ⟨.init, .collectingThinking, [], true, false⟩
  else ⟨.init, .collectingContent, [], false, false⟩

def thinkingEvent (content : Text) : List Qwen35Event :=
  if content = [] then [] else [.thinkingContent content]

/-- `maybeConsumeLeadingThinkOpenTag`: when the text is handled, whether to go on. -/
def maybeConsumeLeadingThinkOpenTag (p : Qwen35Parser) : Qwen35Parser × Option Bool :=
  if p.allowLeadingThinkOpenTag then
    let trimmed := trimLeft p.buffer
    if qwen35ThinkingOpenTag <+: trimmed then
      let after := trimLeft (trimmed.drop qwen35ThinkingOpenTag.length)
      ({ p with
          buffer := after
          allowLeadingThinkOpenTag := false
          trimLeadingThinkingSpace := after = [] }, some (decide (after ≠ [])))
    else if trimmed <+: qwen35ThinkingOpenTag then (p, some false)
    else ({ p with allowLeadingThinkOpenTag := false }, none)
  else (p, none)

def tagOverlap (acc : Text) : ℕ :=
  max (overlap acc qwen35ThinkingCloseTag) (overlap acc qwen35ToolCallOpenTag)

/-- `eat` on thinking, after what may stand in front of it. Without a partial tag
`tagOverlap` is 0, and only the white space at the end is held back. -/
def eatBody (p : Qwen35Parser) : List Qwen35Event × Qwen35Parser × Bool :=
  match cut p.buffer qwen35ThinkingCloseTag with
  | some (before, after) =>
      let remaining := trimLeft after
      (thinkingEvent (trimRight before), { p with
          buffer := remaining
          state := if remaining = [] then .thinkingDoneEatingWhitespace else .collectingContent },
        true)
  | none =>
      let hold := ambiguousStart p.buffer (tagOverlap p.buffer)
      if 0 < tagOverlap p.buffer then
        (thinkingEvent (p.buffer.take hold), { p with buffer := p.buffer.drop hold }, false)
      else
        match cut p.buffer qwen35ToolCallOpenTag with
        | some (thinking, tooling) =>
            ([], { p with
              buffer := trimRight thinking ++ (qwen35ThinkingCloseTag ++
                (qwen35ToolCallOpenTag ++ trimLeft tooling)) }, true)
        | none =>
            (thinkingEvent (p.buffer.take hold), { p with buffer := p.buffer.drop hold }, false)

def eatSpace (p : Qwen35Parser) : List Qwen35Event × Qwen35Parser × Bool :=
  if p.trimLeadingThinkingSpace then
    let acc := trimLeft p.buffer
    if acc = [] then ([], { p with buffer := acc }, false)
    else eatBody { p with buffer := acc, trimLeadingThinkingSpace := false }
  else eatBody p

def eat (p : Qwen35Parser) : List Qwen35Event × Qwen35Parser × Bool :=
  match p.state with
  | .collectingThinking =>
      match maybeConsumeLeadingThinkOpenTag p with
      | (p, some continueNow) => ([], p, continueNow)
      | (p, none) => eatSpace p
  | .thinkingDoneEatingWhitespace =>
      let trimmed := trimLeft p.buffer
      if trimmed = [] then ([], { p with buffer := [] }, false)
      else ([], { p with buffer := trimmed, state := .collectingContent }, true)
  | .collectingContent =>
      if p.buffer = [] then ([], p, false)
      else ([.content p.buffer], { p with buffer := [] }, false)

/-! ## §2  Its loop -/

/-- The turns that the loop still goes on for, at most. -/
def turns (p : Qwen35Parser) : ℕ :=
  match p.state with
  | .collectingThinking =>
      (if p.allowLeadingThinkOpenTag then 2 else 0) +
        if cut p.buffer qwen35ThinkingCloseTag = none then 3 else 2
  | .thinkingDoneEatingWhitespace => 1
  | .collectingContent => 0

def parseEvents (p : Qwen35Parser) : List Qwen35Event × Qwen35Parser := drain eat (turns p + 1) p

/-- The loop of `Add` over the events. -/
def collect (parseToolCall : Text → Except Error τ) :
    List Qwen35Event → Qwen3CoderParser → Except Error (Response τ) × Qwen3CoderParser
  | [], toolParser => (.ok .none, toolParser)
  | .content content :: events, toolParser =>
      match toolParser.add parseToolCall content with
      | (.error e, toolParser) => (.error e, toolParser)
      | (.ok (parsedContent, parsedCalls), toolParser) =>
          let later := collect parseToolCall events toolParser
          (later.1.map (⟨parsedContent, [], parsedCalls, none⟩ ++ ·), later.2)
  | .thinkingContent content :: events, toolParser =>
      let later := collect parseToolCall events toolParser
      (later.1.map (⟨[], content, [], none⟩ ++ ·), later.2)

/-- `Add`: after an error nothing else is returned. -/
def add (parseToolCall : Text → Except Error τ) (s : Text) (_done : Bool) (p : Qwen35Parser) :
    Response τ × Qwen35Parser :=
  let out := parseEvents { p with buffer := p.buffer ++ s }
  let collected := collect parseToolCall out.1 out.2.toolParser
  (match collected.1 with
    | .ok r => r
    | .error e => .ofError e,
    { out.2 with toolParser := collected.2 })

end Qwen35Parser

end Ollama.Parsers
