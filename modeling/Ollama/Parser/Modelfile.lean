import Ollama.Parsers.Parser

/-!
# Modelfiles

`parser/parser.go`. A Modelfile is the list of its runes, decoded; `IsPrint` is `strconv.IsPrint`.
-/

namespace Ollama.Parser

open Lib
open Parsers (Text trimSpace)

-- membership in a list of texts is decided by their equality
local instance lawfulText : LawfulBEq (List Char) := List.instLawfulBEq

/-! ## §1  Printing -/

structure Command where
  Name : Text
  Args : Text
  deriving DecidableEq

def isAlpha (r : Char) : Bool := ('a' ≤ r && r ≤ 'z') || ('A' ≤ r && r ≤ 'Z')

def isNumber (r : Char) : Bool := '0' ≤ r && r ≤ '9'

def isSpace (r : Char) : Bool := r == ' ' || r == '\t'

def isNewline (r : Char) : Bool := r == '\r' || r == '\n'

def tripleQuote : Text := ['"', '"', '"']

/-- The condition of `quote`. -/
def needsQuotes (s : Text) : Bool :=
  s.any (· == '\n') || s.head? == some ' ' || s.getLast? == some ' '

def quote (s : Text) : Text :=
  if needsQuotes s then
    if s.any (· == '"') then tripleQuote ++ (s ++ tripleQuote) else '"' :: (s ++ ['"'])
  else s

/-- `strings.Cut(s, ": ")` -/
def cutRole (s : Text) : Text × Text := (cut s ": ".toList).getD (s, [])

def upperCommands : List Text :=
  ["license".toList, "template".toList, "system".toList, "adapter".toList, "renderer".toList,
    "parser".toList]

def Command.String (c : Command) : Text :=
  if c.Name = "model".toList then "FROM ".toList ++ c.Args
  else if c.Name ∈ upperCommands then c.Name.map Char.toUpper ++ ' ' :: quote c.Args
  else if c.Name = "message".toList then
    "MESSAGE ".toList ++ ((cutRole c.Args).1 ++ ' ' :: quote (cutRole c.Args).2)
  else "PARAMETER ".toList ++ (c.Name ++ ' ' :: quote c.Args)

/-- `Modelfile.String` -/
def print (cmds : List Command) : Text := cmds.flatMap fun c => c.String ++ ['\n']

/-! ## §2  Parsing -/

inductive State
  | stateNil | stateName | stateValue | stateParameter | stateMessage | stateComment
  deriving DecidableEq

inductive Error
  | unexpectedEOF (b : Text)
  | invalidCommand (line : ℕ)
  | invalidMessageRole (line : ℕ)
  | missingFrom
  deriving DecidableEq

/-- The two errors of `parseRuneForState`. -/
inductive RuneError
  | unexpectedEOF | invalidCommand
  deriving DecidableEq

def parseRuneForState (r : Char) : State → Except RuneError (State × Char)
  | .stateNil =>
      if r = '#' then .ok (.stateComment, '\x00')
      else if isSpace r || isNewline r then .ok (.stateNil, '\x00')
      else .ok (.stateName, r)
  | .stateName =>
      if isAlpha r then .ok (.stateName, r)
      else if isSpace r then .ok (.stateValue, '\x00')
      else .error .invalidCommand
  | .stateValue =>
      if isNewline r then .ok (.stateNil, r)
      else if isSpace r then .ok (.stateNil, r)
      else .ok (.stateValue, r)
  | .stateParameter =>
      if isAlpha r || isNumber r || r == '_' then .ok (.stateParameter, r)
      else if isSpace r then .ok (.stateValue, '\x00')
      else .error .unexpectedEOF
  | .stateMessage =>
      if isAlpha r then .ok (.stateMessage, r)
      else if isSpace r then .ok (.stateValue, '\x00')
      else .error .unexpectedEOF
  | .stateComment =>
      if isNewline r then .ok (.stateNil, '\x00') else .ok (.stateComment, '\x00')

/-- What is between the quotes, and whether they are closed. -/
def unquote (s : Text) : Text × Bool :=
  if 3 ≤ s.length ∧ s.take 3 = tripleQuote then
    if 6 ≤ s.length ∧ s.drop (s.length - 3) = tripleQuote then
      ((s.drop 3).take (s.length - 6), true)
    else ([], false)
  else if 1 ≤ s.length ∧ s.head? = some '"' then
    if 2 ≤ s.length ∧ s.getLast? = some '"' then ((s.drop 1).take (s.length - 2), true)
    else ([], false)
  else (s, true)

def isValidMessageRole (role : Text) : Bool :=
  role == "system".toList || role == "user".toList || role == "assistant".toList

def toLower (s : Text) : Text := s.map Char.toLower

def isValidCommand (cmd : Text) : Bool :=
  toLower cmd ∈ ["from".toList, "license".toList, "template".toList, "system".toList,
    "adapter".toList, "renderer".toList, "parser".toList, "parameter".toList, "message".toList]

/-- The variables of `ParseFile`. -/
@[ext] structure Scan where
  name : Text
  curr : State
  currLine : ℕ
  b : Text
  role : Text
  cmds : List Command

def Scan.init : Scan := ⟨[], .stateNil, 1, [], [], []⟩

variable (IsPrint : Char → Bool)

/-- A rune is written to the buffer, when it is printed. -/
def Scan.write (p : Scan) (r : Char) : Scan := if IsPrint r then { p with b := p.b ++ [r] } else p

def Scan.enter (p : Scan) (next : State) (r : Char) : Scan :=
  Scan.write IsPrint { p with b := [], curr := next } r

/-- The argument that was read, after its role. -/
def Scan.args (p : Scan) (s : Text) : Text :=
  if p.role ≠ [] then p.role ++ (": ".toList ++ s) else s

/-- One rune. -/
def Scan.step (p : Scan) (r : Char) : Except Error Scan :=
  let p := if isNewline r then { p with currLine := p.currLine + 1 } else p
  match parseRuneForState r p.curr with
  | .error .unexpectedEOF => .error (.unexpectedEOF p.b)
  | .error .invalidCommand => .error (.invalidCommand p.currLine)
  | .ok (next, r) =>
      if next = p.curr then .ok (p.write IsPrint r)
      else
        match p.curr with
        | .stateName =>
            if !isValidCommand p.b then .error (.invalidCommand p.currLine)
            else if toLower p.b = "from".toList then
              .ok (Scan.enter IsPrint { p with name := "model".toList } next r)
            else if toLower p.b = "parameter".toList then
              .ok (Scan.enter IsPrint p .stateParameter r)
            else if toLower p.b = "message".toList then
              .ok (Scan.enter IsPrint { p with name := toLower p.b } .stateMessage r)
            else .ok (Scan.enter IsPrint { p with name := toLower p.b } next r)
        | .stateParameter => .ok (Scan.enter IsPrint { p with name := p.b } next r)
        | .stateMessage =>
            if !isValidMessageRole p.b then .error (.invalidMessageRole p.currLine)
            else .ok (Scan.enter IsPrint { p with role := p.b } next r)
        | .stateComment => .ok (Scan.enter IsPrint p next r)
        | .stateNil => .ok (Scan.enter IsPrint p next r)
        | .stateValue =>
            let (s, ok) := unquote (trimSpace p.b)
            -- quotes that are open, and blanks, stay in the value
            if !ok || isSpace r then .ok { p with b := p.b ++ [r] }
            else
              .ok (Scan.enter IsPrint
                { p with role := [], cmds := p.cmds ++ [⟨p.name, p.args s⟩] } next r)

def Scan.feed : Scan → Text → Except Error Scan
  | p, [] => .ok p
  | p, r :: rs =>
      match p.step IsPrint r with
      | .ok p => Scan.feed p rs
      | .error e => .error e

/-- What is left in the buffer. -/
def Scan.flush (p : Scan) : Except Error (List Command) :=
  match p.curr with
  | .stateComment => .ok p.cmds
  | .stateNil => .ok p.cmds
  | .stateValue =>
      let (s, ok) := unquote (trimSpace p.b)
      if !ok then .error (.unexpectedEOF []) else .ok (p.cmds ++ [⟨p.name, p.args s⟩])
  | _ => .error (.unexpectedEOF [])

def dropBOM : Text → Text
  | '\uFEFF' :: rs => rs
  | rs => rs

def ParseFile (text : Text) : Except Error (List Command) :=
  match Scan.feed IsPrint Scan.init (dropBOM text) with
  | .error e => .error e
  | .ok p =>
      match p.flush with
      | .error e => .error e
      | .ok cmds => if cmds.any fun c => c.Name = "model".toList then .ok cmds else .error .missingFrom

end Ollama.Parser
