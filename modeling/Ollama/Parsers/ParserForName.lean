import Ollama.Parsers.Gemma4
import Ollama.Parsers.Glimmer
import Ollama.Parsers.Lfm2
import Ollama.Parsers.Qwen35
import Ollama.Parsers.Qwen3VL
import Ollama.Tools.Parser

/-!
# The parsers by their names

`ParserForName` of `model/parsers/parsers.go`, for the parsers that return tool calls, and
`model/parsers/functiongemma.go`. What reads a tool call out of a text is a parameter.
-/

namespace Ollama.Parsers

open Lib
open Api (ToolCall ToolCallFunction)

variable {T α : Type}

/-! ## §1  The parser of functiongemma -/

/-- `strings.ReplaceAll(s, old, "")`; every turn takes `old` out of the text. -/
def removeAll : ℕ → Text → Text → Text
  | 0, s, _ => s
  | fuel + 1, s, old =>
      match cut s old with
      | none => s
      | some (before, after) => before ++ removeAll fuel after old

structure FunctionGemmaParser where
  parser : Tools.Parser
  deriving DecidableEq

namespace FunctionGemmaParser

/-- `Init` -/
def init (tools : List Tools.Tool) : FunctionGemmaParser :=
  ⟨Tools.newParserWithTag tools "<start_function_call>call:".toList⟩

def add (findArguments : Text → Text → Option (α × ℕ)) (s : Text) (done : Bool)
    (p : FunctionGemmaParser) : Response (ToolCall α) × FunctionGemmaParser :=
  let s := removeAll s.length s "<end_function_call>".toList
  let ((toolCalls, content), parser) := Tools.Parser.add findArguments p.parser s
  (⟨if done ∧ toolCalls = [] then content ++ parser.content else content, [], toolCalls, none⟩,
    ⟨parser⟩)

end FunctionGemmaParser

/-! ## §2  Readers of tool calls -/

/-- What reads a tool call: a name and arguments out of the text of a call of qwen3-coder and
gemma4, the JSON of qwen3-vl, the Python arguments of lfm2, the elements of glimmer, and JSON
arguments in a buffer of the generic parser. -/
structure Readers (T α : Type) where
  qwen3Coder : Text → Except Error (Text × α)
  qwen3VL : Text → Except Error (ToolCallFunction α)
  gemma4 : Text → Except Error (Text × α)
  lfm2 : PythonArgs α
  glimmer : ATEM T α
  findArguments : Text → Text → Option (α × ℕ)

/-- The last step of `parseToolCall` and of `parseGemma4ToolCall`. -/
def named (read : Text → Except Error (Text × α)) (raw : Text) : Except Error (ToolCall α) :=
  (read raw).map fun call => { function := { name := call.1, arguments := call.2 } }

/-! ## §3  The parsers -/

/-- The parsers that return tool calls. -/
inductive ToolCallParser (T : Type)
  | qwen3Coder (p : Qwen3CoderParser)
  | qwen3VL (p : Qwen3VLParser)
  | functionGemma (p : FunctionGemmaParser)
  | gemma4 (p : Gemma4Parser)
  | lfm2 (p : LFM2Parser)
  | qwen35 (p : Qwen35Parser)
  | glimmer (p : GlimmerParser T)

/-- What `Init` and `SetThinkValue` read of a request. `prefilled`: the last message is the
assistant's, and has content. -/
structure ParserRequest (T : Type) where
  tools : List (GlimmerTool T)
  prefilled : Bool
  think : Option Bool

namespace ToolCallParser

/-- `ParserForName` and `Init`; `none`: there is no parser of that name, or one that returns no
tool calls while streaming. -/
def parserForName (request : ParserRequest T) : String → Option (ToolCallParser T)
  | "qwen3-coder" => some (.qwen3Coder .init)
  | "qwen3-vl-instruct" => some (.qwen3VL (.init false request.prefilled))
  | "qwen3-vl-thinking" => some (.qwen3VL (.init true request.prefilled))
  | "qwen3.5" => some (.qwen3VL (.init true request.prefilled))
  | "functiongemma" => some (.functionGemma (.init (request.tools.map fun tool => ⟨tool.name⟩)))
  | "gemma4" => some (.gemma4 (.init true))
  | "gemma4-no-thinking" => some (.gemma4 (.init false))
  | "lfm2" => some (.lfm2 (.init false (request.tools.map (·.name)) request.prefilled))
  | "lfm2-thinking" => some (.lfm2 (.init true (request.tools.map (·.name)) request.prefilled))
  | "ornith" => some (.qwen35 (.init true request.prefilled))
  | "qwen3.8" => some (.qwen35 (.init (request.think.getD true) request.prefilled))
  | "glimmer" => some (.glimmer (.init request.tools request.think))
  | _ => none

def answer {τ : Type} : Except Error (Text × List τ) → Response τ
  | .ok (content, toolCalls) => ⟨content, [], toolCalls, none⟩
  | .error e => .ofError e

def add (readers : Readers T α) (s : Text) (done : Bool) :
    ToolCallParser T → Response (ToolCall α) × ToolCallParser T
  | qwen3Coder p =>
      let out := p.add (named readers.qwen3Coder) s
      (answer out.1, qwen3Coder out.2)
  | qwen3VL p =>
      let out := p.add readers.qwen3VL s done
      (out.1, qwen3VL out.2)
  | functionGemma p =>
      let out := p.add readers.findArguments s done
      (out.1, functionGemma out.2)
  | gemma4 p =>
      let out := p.add (named readers.gemma4) s done
      (out.1, gemma4 out.2)
  | lfm2 p =>
      let out := p.add readers.lfm2 s done
      (out.1, lfm2 out.2)
  | qwen35 p =>
      let out := p.add (named readers.qwen3Coder) s done
      (out.1, qwen35 out.2)
  | glimmer p =>
      let out := p.add readers.glimmer s done
      (out.1, glimmer out.2)

end ToolCallParser

end Ollama.Parsers
