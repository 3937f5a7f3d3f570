import ImportAlias.Text.Basic

/-! String literals of a parsed module: where they stand and how they are printed. -/
namespace ImportAlias

structure Span where
  start : Nat
  stop : Nat
  deriving DecidableEq, Repr, Inhabited

inductive Quote where
  | single
  | double
  | backtick
  deriving DecidableEq, Repr, Inhabited

namespace Quote

def char : Quote → Char
  | single => '\x27'
  | double => '"'
  | backtick => '\x60'

def ofChar? (c : Char) : Option Quote :=
  if c = single.char then some single
  else if c = double.char then some double
  else if c = backtick.char then some backtick
  else none

end Quote

/-- A string literal. Its value may differ from the one in the source. -/
structure Literal where
  value : Text
  written : Text
  quote : Quote
  span : Span
  deriving DecidableEq, Repr, Inhabited

namespace Literal

def ofSource (value : Text) (quote : Quote) (span : Span) : Literal :=
  ⟨value, value, quote, span⟩

def isModified (l : Literal) : Bool := l.value != l.written

/-- Writes a backslash before every quote and backslash. -/
def escape (quote : Char) : Text → Text
  | [] => []
  | c :: t => if c = quote ∨ c = '\\' then '\\' :: c :: escape quote t else c :: escape quote t

def source (l : Literal) : Text :=
  l.quote.char :: escape l.quote.char l.value ++ [l.quote.char]

def aliased (choose : Text → Option Text) (l : Literal) : Literal :=
  { l with value := (choose l.value).getD l.value }

def renamed (a b : Text) (l : Literal) : Literal := if l.value = a then { l with value := b } else l

/-- Reads a literal from the text of a token: a quote, a body and the same quote. -/
def ofToken? (token : Text) (span : Span) : Option Literal :=
  match token with
  | q :: rest =>
    match Quote.ofChar? q, rest.getLast? with
    | some quote, some last => if last = q then some (ofSource rest.dropLast quote span) else none
    | _, _ => none
  | [] => none

end Literal

end ImportAlias
