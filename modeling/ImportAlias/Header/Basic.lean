import ImportAlias.Edit
import ImportAlias.Header.Line

/-! The import header of a source text, and the aliasing of its specifiers.

The header is scanned line by line until the first line of code. A scanned header keeps every
character: its lines and its body give the text back. -/
namespace ImportAlias

/-- A line of the header. A slot holds a specifier that an alias may replace, with the quotes in
the parts around it. -/
inductive HeaderLine where
  | plain (text : Text)
  | slot (before : Text) (specifier : Specifier) (after : Text)
  deriving DecidableEq, Repr

/-- The leading import lines of a text and the lines from the first line of code on. -/
structure Header where
  lines : List HeaderLine
  body : List Text
  deriving DecidableEq, Repr

namespace Header

inductive ListKind where
  | imports
  | exports
  deriving DecidableEq, Repr

inductive State where
  | start
  | statement
  | comment
  | list (kind : ListKind)
  deriving DecidableEq, Repr

/-- Reads comments and whitespace to the end of the line: the state after them, or nothing if
code follows. -/
def comments? : (inside : Bool) → Text → Option State
  | true, [] => some .comment
  | true, '*' :: '/' :: t => comments? false t
  | true, _ :: t => comments? true t
  | false, [] => some .statement
  | false, '/' :: '/' :: _ => some .statement
  | false, '/' :: '*' :: t => comments? true t
  | false, c :: t => if Text.isBlank c then comments? false t else none

/-- The slot of a line from the quoted text found on it. -/
def slotOf (line : Text) (q : Quoted) : HeaderLine :=
  .slot (line.take (line.length - (q.body.length + q.rest.length))) q.body q.rest

def scanListLine (kind : ListKind) (line : Text) : Option (HeaderLine × State) :=
  match listSource? line with
  | some q =>
    match kind with
    | .imports => some (slotOf line q, .statement)
    | .exports => some (.plain line, .statement)
  | none =>
    if kind = .exports ∧ isListClose line then some (.plain line, .statement)
    else if isListLine line then some (.plain line, .list kind)
    else none

/-- A line that holds a whole statement or opens a brace list. -/
def scanStatement (line : Text) : Option (HeaderLine × State) :=
  if isDirective line then some (.plain line, .statement)
  else match editable? line with
    | some q => some (slotOf line q, .statement)
    | none =>
      if isRequireMember line ∨ (reexport? line).isSome then some (.plain line, .statement)
      else if isImportOpener line then some (.plain line, .list .imports)
      else if isExportOpener line then some (.plain line, .list .exports)
      else none

def scanLine (state : State) (line : Text) : Option (HeaderLine × State) :=
  match state with
  | .comment => (comments? true line).map fun s => (.plain line, s)
  | .list kind => scanListLine kind line
  | .start =>
    match comments? false line with
    | some s => some (.plain line, s)
    | none =>
      if Text.startsWith ['#', '!'] (blanks line) then some (.plain line, .statement)
      else scanStatement line
  | .statement =>
    match comments? false line with
    | some s => some (.plain line, s)
    | none => scanStatement line

def scanLines : State → List Text → Header
  | _, [] => ⟨[], []⟩
  | state, line :: rest =>
    match scanLine state line with
    | none => ⟨[], line :: rest⟩
    | some (found, next) =>
      let header := scanLines next rest
      ⟨found :: header.lines, header.body⟩

def scan (text : Text) : Header := scanLines .start (Text.splitOn '\n' text)

end Header

namespace HeaderLine

def text : HeaderLine → Text
  | plain t => t
  | slot before s after => before ++ s ++ after

def specifier? : HeaderLine → Option Specifier
  | plain _ => none
  | slot _ s _ => some s

/-- The line with its specifier replaced where `choose` has an alias for it. -/
def aliased (choose : Specifier → Option Text) : HeaderLine → HeaderLine
  | plain t => plain t
  | slot before s after => slot before ((choose s).getD s) after

end HeaderLine

namespace Header

def text (h : Header) : Text := Text.joinWith '\n' (h.lines.map HeaderLine.text ++ h.body)

/-- The specifiers of the header that an alias may replace, with their line numbers. -/
def candidatesFrom : Nat → List HeaderLine → List (Nat × Specifier)
  | _, [] => []
  | n, .plain _ :: rest => candidatesFrom (n + 1) rest
  | n, .slot _ s _ :: rest => (n, s) :: candidatesFrom (n + 1) rest

def candidates (h : Header) : List (Nat × Specifier) := candidatesFrom 1 h.lines

/-- The header with its specifiers replaced where `choose` has an alias for them. -/
def aliased (choose : Specifier → Option Text) (h : Header) : Header :=
  { h with lines := h.lines.map (HeaderLine.aliased choose) }

/-- The edits that `aliased` makes, in the order of the lines. -/
def edits (choose : Specifier → Option Text) (h : Header) : List Edit :=
  h.candidates.filterMap fun (n, s) => (choose s).map fun a => ⟨n, s, a⟩

end Header

/-- A text with aliases in its header, and how it came about. -/
structure Outcome where
  text : Text
  edits : List Edit
  /-- The specifiers that the resolver was asked for, in order. -/
  consulted : List Specifier
  deriving DecidableEq, Repr

def Outcome.changed (o : Outcome) : Bool := !o.edits.isEmpty

variable {ε : Type}

/-- Replaces the deep relative specifiers of a text's import header by their aliases. -/
def aliasHeader (resolve : Resolver ε) (threshold : Nat) (text : Text) : Outcome :=
  let header := Header.scan text
  let choose := resolve.choose threshold
  { text := (header.aliased choose).text
    edits := header.edits choose
    consulted := (header.candidates.map Prod.snd).filter (Specifier.exceeds threshold) }

end ImportAlias
