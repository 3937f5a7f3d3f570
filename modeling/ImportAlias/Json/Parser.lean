import ImportAlias.Json.Lexer

/-! Reading JSON documents: a stack of open arrays and objects, and one step per token. -/
namespace ImportAlias.Json

/-- An array or object that is still open, its contents last first for an array. -/
inductive Frame where
  | array (done : List Json)
  | object (done : List (Text × Json)) (key : Text)

/-- What the next token has to be. -/
inductive Expect where
  | value
  | firstItem
  | nextItem
  | afterItem
  | firstKey
  | nextKey
  | colon
  | afterMember
  | nothing (document : Json)

structure State where
  stack : List Frame
  expect : Expect

/-- How deeply arrays and objects may be nested. -/
def maxDepth : Nat := 127

/-- A finished value goes into the innermost open frame. -/
def State.settle (value : Json) : List Frame → State
  | [] => ⟨[], .nothing value⟩
  | .array done :: stack => ⟨.array (value :: done) :: stack, .afterItem⟩
  | .object done key :: stack => ⟨.object (setMember key value done) key :: stack, .afterMember⟩

def State.close : List Frame → State
  | [] => ⟨[], .value⟩
  | .array done :: stack => .settle (.array done.reverse) stack
  | .object done _ :: stack => .settle (.object done) stack

def State.opened (start : Text) (stack : List Frame) (frame : Frame) (expect : Expect) :
    Except Fault State :=
  if stack.length < maxDepth then .ok ⟨frame :: stack, expect⟩
  else .error (.peeked .nestedTooDeeply start)

def stepValue (stack : List Frame) (token : Token) : Except Fault State :=
  match token.lexeme with
  | .error f => .error f
  | .ok (.mark '[') => State.opened token.start stack (.array []) .firstItem
  | .ok (.mark '\x7b') => State.opened token.start stack (.object [] []) .firstKey
  | .ok (.string s) => .ok (.settle (.string s) stack)
  | .ok (.scalar v) => .ok (.settle v stack)
  | .ok _ => .error (.peeked .valueExpected token.start)

def stepKey (stack : List Frame) (token : Token) : Except Fault State :=
  match token.lexeme, stack with
  | .ok (.string s), .object done _ :: stack => .ok ⟨.object done s :: stack, .colon⟩
  | .error f, _ =>
    .error (if token.start.head? = some '"' then f else .peeked .keyExpected token.start)
  | _, _ => .error (.peeked .keyExpected token.start)

def Token.isMark (c : Char) (token : Token) : Bool :=
  match token.lexeme with
  | .ok (.mark d) => c == d
  | _ => false

def step (s : State) (token : Token) : Except Fault State :=
  match s.expect with
  | .value => stepValue s.stack token
  | .firstItem => if token.isMark ']' then .ok (.close s.stack) else stepValue s.stack token
  | .nextItem =>
    if token.isMark ']' then .error (.peeked .trailingComma token.start)
    else stepValue s.stack token
  | .afterItem =>
    if token.isMark ']' then .ok (.close s.stack)
    else if token.isMark ',' then .ok ⟨s.stack, .nextItem⟩
    else .error (.peeked .listSeparatorExpected token.start)
  | .firstKey => if token.isMark '\x7d' then .ok (.close s.stack) else stepKey s.stack token
  | .nextKey =>
    if token.isMark '\x7d' then .error (.peeked .trailingComma token.start)
    else stepKey s.stack token
  | .colon =>
    if token.isMark ':' then .ok ⟨s.stack, .value⟩
    else .error (.peeked .colonExpected token.start)
  | .afterMember =>
    if token.isMark '\x7d' then .ok (.close s.stack)
    else if token.isMark ',' then .ok ⟨s.stack, .nextKey⟩
    else .error (.peeked .objectSeparatorExpected token.start)
  | .nothing _ => .error (.peeked .trailingCharacters token.start)

/-- What is missing where the tokens end. -/
def Expect.atEnd : Expect → Except Cause Json
  | value => .error .endInValue
  | firstItem => .error .endInList
  | nextItem => .error .endInValue
  | afterItem => .error .endInList
  | firstKey => .error .endInObject
  | nextKey => .error .endInValue
  | colon => .error .endInObject
  | afterMember => .error .endInObject
  | nothing document => .ok document

def run (s : State) : List Token → Except Fault Json
  | [] => s.expect.atEnd.mapError fun cause => .before cause []
  | token :: rest =>
    match step s token with
    | .error f => .error f
    | .ok next => run next rest

def parse (t : Text) : Except Fault Json := run ⟨[], .value⟩ (tokens t)

end ImportAlias.Json
