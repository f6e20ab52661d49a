import Ollama.Api
import Ollama.Parsers.Parser

/-!
# The generic tool-call parser

`tools/tools.go`. A chunk is valid UTF-8, and so are the tag and the names of the tools: what
the source finds in the bytes of its buffer begins and ends between two characters, and the
buffer is a list of characters. `findArguments` decodes JSON and is a parameter: the arguments
that it finds for a tool's name in a buffer, and the end position.
-/

namespace Ollama.Tools

open Lib Api
open Parsers (trimSpace)

variable {α : Type}

inductive ToolsState
  | lookingForTag
  | toolCalling
  | done
  deriving DecidableEq

/-- A tool of the request, of which the parser reads `Function.Name`. -/
structure Tool where
  name : Text
  deriving DecidableEq

structure Parser where
  tag : Text
  tools : List Tool
  state : ToolsState
  buffer : Text
  n : ℤ
  deriving DecidableEq

/-- `NewParserWithTag` -/
def newParserWithTag (tools : List Tool) (tag : Text) : Parser :=
  ⟨tag, tools, .lookingForTag, [], 0⟩

/-! ## §1  Tags -/

def openBrace : Text := ['{']

def openBracket : Text := ['[']

/-- Where the text before the tag ends, `none` for -1, and whether the tag was found. -/
def Parser.findTag (p : Parser) : Option ℕ × Bool :=
  match cut p.buffer p.tag with
  | some (before, _) => (some before.length, true)
  | none =>
      let i := overlap p.buffer p.tag
      if 0 < i then (some (p.buffer.length - i), false) else (none, false)

/-- The loop of `done`: whether the count comes down to zero. -/
def closes (opening closing : Char) : ℤ → Text → Bool
  | _, [] => false
  | count, c :: rest =>
      if c = opening then closes opening closing (count + 1) rest
      else if c = closing then count - 1 = 0 || closes opening closing (count - 1) rest
      else closes opening closing count rest

/-- `done` -/
def Parser.isDone (p : Parser) : Bool :=
  if p.tag = openBrace then closes '{' '}' 0 p.buffer
  else if p.tag = openBracket then closes '[' ']' 0 p.buffer
  else false

def Parser.content (p : Parser) : Text :=
  if 0 < p.n then []
  else if p.tag = openBrace ∨ p.tag = openBracket then p.buffer
  else []

/-! ## §2  Tools -/

def endsWithPartialName (tools : List Tool) (buf : Text) : Bool :=
  buf.tails.any fun tail =>
    tail ≠ [] && tools.any fun t => tail.length < t.name.length && tail.isPrefixOf t.name

/-- The loop over the tools: the tool found so far with its `start` and its `end`. -/
def findName (buf : Text) : Option (Tool × ℕ × ℕ) → List Tool → Option (Tool × ℕ × ℕ)
  | found, [] => found
  | found, t :: tools =>
      match cut buf t.name with
      | none => findName buf found tools
      | some (before, _) =>
          let pos := before.length
          match found with
          | none => findName buf (some (t, pos, pos + t.name.length)) tools
          | some (best, start, last) =>
              if start < pos ∨ (pos = start ∧ t.name.length ≤ best.name.length) then
                findName buf (some (best, start, last)) tools
              else findName buf (some (t, pos, pos + t.name.length)) tools

def findTool (tools : List Tool) (buf : Text) : Option (Tool × ℕ) :=
  if buf = [] then none
  else if endsWithPartialName tools buf then none
  else (findName buf none tools).map fun (found, _, last) => (found, last)

/-! ## §3  The parser -/

/-- The next call, and the parser after it. -/
def Parser.parseToolCall (findArguments : Text → Text → Option (α × ℕ)) (p : Parser) :
    Option (ToolCall α × Parser) :=
  (findTool p.tools p.buffer).bind fun (tool, last) =>
    (findArguments tool.name p.buffer).map fun (args, i) =>
      ({ function := { name := tool.name, arguments := args, index := p.n } },
        { p with n := p.n + 1, buffer := p.buffer.drop (max last i) })

/-- The loop over `parseToolCall`. A call ends after the first character of the buffer, so
there are not more calls than characters. -/
def Parser.parseToolCalls (findArguments : Text → Text → Option (α × ℕ)) :
    ℕ → Parser → List (ToolCall α) × Parser
  | 0, p => ([], p)
  | fuel + 1, p =>
      match p.parseToolCall findArguments with
      | none => ([], p)
      | some (call, p) =>
          let rest := Parser.parseToolCalls findArguments fuel p
          (call :: rest.1, rest.2)

/-- `Add` in the state `toolsState_ToolCalling`, with the content so far. -/
def Parser.callTools (findArguments : Text → Text → Option (α × ℕ)) (p : Parser)
    (content : Text) : (List (ToolCall α) × Text) × Parser :=
  let (calls, p) := p.parseToolCalls findArguments (p.buffer.length + 1)
  if p.isDone then ((calls, p.buffer), { p with state := .done, buffer := [] })
  else ((calls, content), p)

/-- `Add` in the state `toolsState_LookingForTag`. -/
def Parser.lookForTag (findArguments : Text → Text → Option (α × ℕ)) (p : Parser) :
    (List (ToolCall α) × Text) × Parser :=
  let (i, found) := p.findTag
  let content := (i.map p.buffer.take).getD p.buffer
  let p := { p with buffer := (i.map p.buffer.drop).getD [] }
  if (p.tag = openBrace ∨ p.tag = openBracket) ∧ trimSpace content ≠ [] then
    (([], content ++ p.buffer), { p with state := .done })
  else if !found then (([], content), p)
  else Parser.callTools findArguments { p with state := .toolCalling } content

def Parser.add (findArguments : Text → Text → Option (α × ℕ)) (p : Parser) (s : Text) :
    (List (ToolCall α) × Text) × Parser :=
  match p.state with
  | .done => (([], s), p)
  | .lookingForTag => Parser.lookForTag findArguments { p with buffer := p.buffer ++ s }
  | .toolCalling => Parser.callTools findArguments { p with buffer := p.buffer ++ s } []

end Ollama.Tools
