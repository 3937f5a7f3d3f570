import ImportAlias.Text.Basic

/-! JSON documents and the faults a reader can find in a text. -/
namespace ImportAlias

/-- A JSON value. Members stand in the order in which their keys first occur, and a number is kept
as it was written. -/
inductive Json where
  | null
  | bool (b : Bool)
  | number (literal : Text)
  | string (value : Text)
  | array (items : List Json)
  | object (members : List (Text × Json))
  deriving Repr, Inhabited

namespace Json

def member? (key : Text) : Json → Option Json
  | object members => members.lookup key
  | _ => none

def string? : Json → Option Text
  | string value => some value
  | _ => none

/-- Sets a member. A key that is there already keeps its place. -/
def setMember (key : Text) (value : Json) : List (Text × Json) → List (Text × Json)
  | [] => [(key, value)]
  | (k, v) :: rest => if k = key then (k, value) :: rest else (k, v) :: setMember key value rest

/-- Why a text is not a JSON document. -/
inductive Cause where
  | endInValue
  | endInList
  | endInObject
  | endInString
  | colonExpected
  | listSeparatorExpected
  | objectSeparatorExpected
  | wordExpected
  | valueExpected
  | keyExpected
  | trailingComma
  | trailingCharacters
  | invalidNumber
  | numberOutOfRange
  | invalidEscape
  | endOfSurrogate
  | loneSurrogate
  | controlCharacter
  | nestedTooDeeply
  deriving DecidableEq, Repr

def Cause.message : Cause → String
  | endInValue => "EOF while parsing a value"
  | endInList => "EOF while parsing a list"
  | endInObject => "EOF while parsing an object"
  | endInString => "EOF while parsing a string"
  | colonExpected => "expected `:`"
  | listSeparatorExpected => "expected `,` or `]`"
  | objectSeparatorExpected => "expected `,` or `\x7d`"
  | wordExpected => "expected ident"
  | valueExpected => "expected value"
  | keyExpected => "key must be a string"
  | trailingComma => "trailing comma"
  | trailingCharacters => "trailing characters"
  | invalidNumber => "invalid number"
  | numberOutOfRange => "number out of range"
  | invalidEscape => "invalid escape"
  | endOfSurrogate => "unexpected end of hex escape"
  | loneSurrogate => "lone leading surrogate in hex escape"
  | controlCharacter => "control character (\\u0000-\\u001F) found while parsing a string"
  | nestedTooDeeply => "recursion limit exceeded"

/-- A fault: its cause, the text that was left when reading stopped, and how many further bytes
count as read. -/
structure Fault where
  cause : Cause
  rest : Text
  ahead : Nat
  deriving DecidableEq, Repr

/-- Reading stopped just before `rest`. -/
def Fault.before (cause : Cause) (rest : Text) : Fault := ⟨cause, rest, 0⟩

/-- The first byte of `rest` was looked at and refused. -/
def Fault.peeked (cause : Cause) (rest : Text) : Fault := ⟨cause, rest, 1⟩

/-- The line, counted from one, and the bytes on it after the first `n` bytes of a text. -/
def position (line column : Nat) : Nat → Text → Nat × Nat
  | _, [] => (line, column)
  | n, c :: t =>
    if n = 0 then (line, column)
    else if c = '\n' then position (line + 1) 0 (n - 1) t
    else position line (column + min n c.utf8Size) (n - c.utf8Size) t

/-- The text of a fault found in a document. -/
def Fault.message (whole : Text) (f : Fault) : String :=
  let (line, column) := position 1 0 (Text.byteSize whole - Text.byteSize f.rest + f.ahead) whole
  s!"{f.cause.message} at line {line} column {column}"

end Json

end ImportAlias
