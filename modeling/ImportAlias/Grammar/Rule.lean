import ImportAlias.Grammar.Token

/-! The names of the rules for modules, the dialects, and the parts that rules are made of. -/
namespace ImportAlias.Grammar

inductive Dialect where
  /-- JavaScript with markup. -/
  | javaScript
  /-- TypeScript without markup. -/
  | typeScript
  /-- TypeScript with markup. -/
  | tsx
  deriving DecidableEq, Repr

namespace Dialect

def typed : Dialect → Bool
  | javaScript => false
  | _ => true

def markup : Dialect → Bool
  | typeScript => false
  | _ => true

end Dialect

/-- The rules that refer to each other. Where `annotated` is false, the result of an arrow function
has no type: there a colon belongs to a conditional around it. -/
inductive Rule where
  | statement
  | declaration
  | block
  | expressions
  | expression (annotated : Bool)
  | operand (annotated : Bool)
  | postfixed (annotated : Bool)
  | construction
  | arguments
  | template
  | pattern
  | parameters
  | classBody
  | markup
  | type
  | typeOperand
  | objectType
  deriving DecidableEq, Repr

/-- A grammar whose rules are those of the language. -/
abbrev Phrase := Grammar Rule

namespace Phrase

def trivia : Phrase :=
  .many (.choice [.token .space (Scan.while? isSpace), .token .comment Scan.comment])

/-- A token with what stands in front of it. -/
def lexeme (kind : Kind) (scan : Scanner) : Phrase := .seq [trivia, .token kind scan]

def mark (s : String) : Phrase := lexeme .mark (Scan.literal s)

/-- A mark that none of the given characters follows. -/
def sign (s next : String) : Phrase := lexeme .mark (Scan.sign s next)

def keyword (s : String) : Phrase := lexeme .mark (Scan.keyword s)

def keywords (words : List String) : Phrase := lexeme .mark (Scan.keywords words)

def empty : Phrase := .seq []

def optional (p : Phrase) : Phrase := .choice [p, empty]

/-- A part in some dialects, nothing in the others. -/
def when (b : Bool) (p : Phrase) : Phrase := if b then p else empty

/-- A part in some dialects, a failure in the others. -/
def only (b : Bool) (p : Phrase) : Phrase := if b then p else .choice []

def named (name : String) (parts : List Phrase) : Phrase := .node (.other name) (.seq parts)

def elements (item : Phrase) : Phrase :=
  .seq [optional item, .many (.seq [mark ",", optional item])]

def separated (item : Phrase) : Phrase := .seq [item, .many (.seq [mark ",", item])]

def list (item : Phrase) : Phrase := .seq [optional (separated item), optional (mark ",")]

def name : Phrase := lexeme .identifier Scan.word

def string : Phrase := lexeme .string Scan.string

def number : Phrase := lexeme (.other "number") Scan.number

/-- A name that only the class around it knows. -/
def privateName : Phrase :=
  lexeme (.other "private name") fun
    | '#' :: t => (Scan.word t).map (· + 1)
    | _ => none

/-- The string that names a module. -/
def source : Phrase := lexeme .source Scan.string

/-- The characters that continue the line before. -/
def openers (d : Dialect) : List Char :=
  if d.typed then "\x60,.;*%><=?^|&/:".toList else "\x60,:;*%><=[(?^|&/".toList

/-- Does a statement end here without a semicolon? It does before a closing brace, at the end of
the text, and at the end of a line that the next one does not continue. -/
def endsHere (d : Dialect) (t : Text) : Bool :=
  match Scan.skim .code false t with
  | (_, []) => true
  | (_, '\x7d' :: _) => true
  | (ended, rest) => ended && Scan.startsAnew (openers d) rest

def semicolon (d : Dialect) : Phrase :=
  .choice [mark ";", .check (endsHere d)]

/-- The end of a function without a body. -/
def signatureEnd (d : Dialect) : Phrase :=
  .choice [mark ";", .seq [.absent (mark "\x7b"), .check (endsHere d)]]

def goesOn (d : Dialect) : Phrase :=
  .check fun t => !endsHere d t

def assign : Phrase := sign "=" "=>"

/-- A value to its end. A bracket after it would have to be part of it, also on the next line. -/
def ended (value : Phrase) : Phrase := .seq [value, .absent (.choice [mark "(", mark "["])]

def initializer : Phrase := .seq [assign, ended (.rule (.expression true))]

def propertyName : Phrase :=
  .choice [lexeme (.other "property name") Scan.word, privateName, string, number,
    named "computed name" [mark "[", .rule (.expression true), mark "]"]]

/-- Words that can stand before the name of a member, and the star of a generator. -/
def modifiers (words : List String) : Phrase :=
  .seq [.many (.seq [keywords words, .followed (.choice [propertyName, mark "*"])]),
    optional (mark "*")]

/-- A choice of any kind for the steps of a chain. -/
def anyKind : Kind → Bool := fun _ => true

def member : (Kind → Bool) × Kind × Phrase :=
  (anyKind, .other "member", .seq [.choice [optionalDot, sign "." "."],
    .choice [lexeme (.other "property name") Scan.word, privateName]])
where
  optionalDot : Phrase := sign "?." "0123456789"

def subscript : (Kind → Bool) × Kind × Phrase :=
  (anyKind, .other "subscript",
    .seq [optional (sign "?." "0123456789"), mark "[", .rule .expressions, mark "]"])

/-- A template behind a function. -/
def tagged : (Kind → Bool) × Kind × Phrase :=
  (anyKind, .other "tagged template", .rule .template)

end Phrase

end ImportAlias.Grammar
