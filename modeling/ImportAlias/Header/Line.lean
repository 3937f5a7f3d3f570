import ImportAlias.Specifier
import ImportAlias.Text.Word

/-! The statement forms that may stand on a line of an import header.

A reader takes the text in front of it and returns what is left. Every form is read as a whole
line, so a line that only starts like an import is not one. -/
namespace ImportAlias.Header

open Text (isBlank isNameChar after?)

def blanks (t : Text) : Text := t.dropWhile isBlank

def blanks? : Text → Option Text
  | [] => none
  | c :: t => if isBlank c then some (blanks t) else none

def name? (t : Text) : Option (Text × Text) :=
  match t.takeWhile isNameChar with
  | [] => none
  | n => some (n, t.dropWhile isNameChar)

def skipName? (t : Text) : Option Text := (name? t).map Prod.snd

def skip? (s : String) (t : Text) : Option Text := after? s.toList t

/-- Skips a brace and all up to the next closing one. -/
def braces? (t : Text) : Option Text := do
  let t ← skip? "\x7b" t
  let (_, rest) ← Text.cutAt? '\x7d' t
  return rest

structure Quoted where
  body : Text
  rest : Text
  deriving DecidableEq, Repr

def Quoted.after (q : Quoted) : Text := q.rest.drop 1

/-- Reads a quoted text that ends at the next quote of the same kind. -/
def quoted? : Text → Option Quoted
  | [] => none
  | q :: t =>
    if q = '"' ∨ q = '\x27' then
      (Text.cutAt? q t).map fun (body, rest) => ⟨body, q :: rest⟩
    else none

/-- Is this the rest of a line after a statement: a semicolon and a comment at most? -/
def isTail (t : Text) : Bool :=
  let t := blanks t
  let t := blanks ((skip? ";" t).getD t)
  match t with
  | [] => true
  | '/' :: '/' :: _ => true
  | '/' :: '*' :: body =>
    match Text.cut? ['*', '/'] body with
    | some (_, rest) => blanks rest == []
    | none => false
  | _ => false

/-- Keeps a quoted text that ends its statement. -/
def ending? (q : Quoted) : Option Quoted := if isTail q.after then some q else none

/-- Reads on after a word that may also be absent; its presence is tried first. -/
def optionally {α : Type} (skipped? : Text → Option Text) (next : Text → Option α) (t : Text) :
    Option α :=
  match skipped? t with
  | some rest => (next rest).or (next t)
  | none => next t

def keyword? (s : String) (t : Text) : Option Text := (skip? s t).bind blanks?

/-- `from "…"` to the end of the line. -/
def source? (t : Text) : Option Quoted := do
  let t ← skip? "from" t
  let q ← quoted? (blanks t)
  ending? q

/-- `a ,` before a brace list or a namespace. -/
def defaultName? (t : Text) : Option Text := do
  let t ← skipName? t
  let t ← skip? "," (blanks t)
  return blanks t

/-- A brace list, a namespace or a single name, and then the source. -/
def clause? (t : Text) : Option Quoted :=
  match t with
  | '\x7b' :: _ => do
    let t ← braces? t
    source? (blanks t)
  | '*' :: t => do
    let t ← keyword? "as" (blanks t)
    let t ← skipName? t
    let t ← blanks? t
    source? t
  | _ => do
    let t ← skipName? t
    let t ← blanks? t
    source? t

/-- `import a, { b } from "…"` and its relatives. -/
def importFrom? (line : Text) : Option Quoted := do
  let t ← keyword? "import" (blanks line)
  optionally (keyword? "type") (optionally defaultName? clause?) t

/-- `import "…"`. -/
def importOnly? (line : Text) : Option Quoted := do
  let t ← skip? "import" (blanks line)
  let q ← quoted? (blanks t)
  ending? q

/-- `= require("…")`, with what follows the closing parenthesis. -/
def required? (t : Text) : Option (Quoted × Text) := do
  let t ← skip? "=" (blanks t)
  let t ← skip? "require" (blanks t)
  let t ← skip? "(" (blanks t)
  let q ← quoted? (blanks t)
  let rest ← skip? ")" (blanks q.after)
  return (q, rest)

/-- `= require("…")` to the end of the line. -/
def assigned? (t : Text) : Option Quoted := do
  let (q, rest) ← required? t
  if isTail rest then some q else none

/-- `import a = require("…")`, possibly exported. -/
def importEquals? (line : Text) : Option Quoted :=
  let t := blanks line
  let t := (keyword? "export" t).getD t
  (keyword? "import" t).bind
    (optionally (keyword? "type") fun t => (skipName? t).bind assigned?)

def binding? (line : Text) : Option Text := do
  let t := blanks line
  let t ← (keyword? "const" t).or ((keyword? "let" t).or (keyword? "var" t))
  match t with
  | '\x7b' :: _ => braces? t
  | _ => skipName? t

/-- `const a = require("…")`. -/
def requireAssignment? (line : Text) : Option Quoted := (binding? line).bind assigned?

/-- Skips names with dots between them; `named` tells whether a name has begun. -/
def members? (named : Bool) : Text → Option Text
  | [] => if named then some [] else none
  | c :: t =>
    if isNameChar c then members? true t
    else if !named then none
    else if c = '.' then members? false t
    else some (c :: t)

/-- `const a = require("…").b.c`. -/
def isRequireMember (line : Text) : Bool :=
  match (binding? line).bind required? with
  | some (_, '.' :: rest) => ((members? false rest).map isTail).getD false
  | _ => false

/-- A name run that gives up a final `from` to the clause after it. -/
def nameThenSource? (t : Text) : Option Quoted := do
  let (n, rest) ← name? t
  (source? (blanks rest)).or do
    let front ← Text.before? "from".toList n
    if front = [] then none else source? ("from".toList ++ rest)

/-- `export { a } from "…"` and `export * from "…"`. -/
def reexport? (line : Text) : Option Quoted := do
  let t ← keyword? "export" (blanks line)
  optionally (keyword? "type") (fun t =>
    match t with
    | '\x7b' :: _ => do
      let t ← braces? t
      source? (blanks t)
    | '*' :: t => ((keyword? "as" (blanks t)).bind nameThenSource?).or (source? (blanks t))
    | _ => none) t

/-- Skips names, whitespace, and commas that follow a name. -/
def items (named : Bool) : Text → Text
  | [] => []
  | c :: t =>
    if isNameChar c then items true t
    else if isBlank c then items named t
    else if c = ',' ∧ named then items false t
    else c :: t

/-- Is this the end of a line inside a brace list? -/
def isListEnd : Text → Bool
  | [] => true
  | '/' :: '/' :: _ => true
  | _ => false

/-- A brace with nothing but items after it on the line. -/
def listOpening? (t : Text) : Option Unit :=
  (skip? "\x7b" t).bind fun t => if isListEnd (items false t) then some () else none

/-- `import a, {` with items after the brace. -/
def isImportOpener (line : Text) : Bool :=
  ((keyword? "import" (blanks line)).bind
    (optionally (keyword? "type") (optionally defaultName? listOpening?))).isSome

/-- `export {` with items after the brace. -/
def isExportOpener (line : Text) : Bool :=
  ((keyword? "export" (blanks line)).bind (optionally (keyword? "type") listOpening?)).isSome

def isListLine (line : Text) : Bool := isListEnd (items false line)

/-- `} from "…"`, possibly after items. -/
def listSource? (line : Text) : Option Quoted := do
  let t ← skip? "\x7d" (items false line)
  source? (blanks t)

/-- `}` without a source, possibly after items. -/
def isListClose (line : Text) : Bool :=
  match skip? "\x7d" (items false line) with
  | some t => isTail t
  | none => false

/-- `"use strict"` and the like. -/
def isDirective (line : Text) : Bool :=
  match quoted? (blanks line) with
  | some q => (skip? "use " q.body).isSome && isTail q.after
  | none => false

/-- The specifier of a statement that an alias may replace. -/
def editable? (line : Text) : Option Quoted :=
  (importFrom? line).or <| (importOnly? line).or <|
    (importEquals? line).or (requireAssignment? line)

end ImportAlias.Header
