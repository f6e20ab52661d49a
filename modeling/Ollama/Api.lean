import Mathlib.Data.Int.Notation
import Mathlib.Data.List.Basic

/-!
# The types of the API

`api/types.go`: the messages that go between the server, its middleware and its clients,
with the fields that the modelled functions read. The arguments of a tool call are of any
type `α` (a JSON object in the source). JSON that is decoded into `any` is an `Any`.
-/

namespace Ollama.Api

/-- A Go string that is valid UTF-8. -/
abbrev Text := List Char

abbrev ImageData := List UInt8

/-- The text of a Go error. -/
abbrev Error := Text

inductive Any
  | null
  | bool (b : Bool)
  | number (n : Text)
  | string (s : Text)
  | array (xs : List Any)
  | object (fields : List (Text × Any))

namespace Any

/-- `v.(string)` -/
def asString : Any → Option Text
  | .string s => some s
  | _ => none

/-- `v.(map[string]any)` -/
def asObject : Any → Option (List (Text × Any))
  | .object fields => some fields
  | _ => none

/-- The `%T` of a value. -/
def typeName : Any → Text
  | .null => "<nil>".toList
  | .bool _ => "bool".toList
  | .number _ => "float64".toList
  | .string _ => "string".toList
  | .array _ => "[]interface {}".toList
  | .object _ => "map[string]interface {}".toList

end Any

/-- `m[key]` -/
def field (fields : List (Text × Any)) (key : String) : Any :=
  (fields.lookup key.toList).getD .null

structure ToolCallFunction (α : Type) where
  index : ℤ := 0
  name : Text
  arguments : α
  deriving DecidableEq

structure ToolCall (α : Type) where
  id : Text := []
  function : ToolCallFunction α
  deriving DecidableEq

structure Message (α : Type) where
  role : Text := []
  content : Text := []
  thinking : Text := []
  images : List ImageData := []
  toolCalls : List (ToolCall α) := []
  toolCallID : Text := []
  toolName : Text := []
  deriving DecidableEq

structure Metrics where
  promptEvalCount : ℤ := 0
  evalCount : ℤ := 0
  deriving DecidableEq

structure ChatResponse (α : Type) where
  model : Text := []
  message : Message α := {}
  done : Bool := false
  doneReason : Text := []
  metrics : Metrics := {}
  deriving DecidableEq

end Ollama.Api
