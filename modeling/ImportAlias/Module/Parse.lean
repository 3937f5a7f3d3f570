import ImportAlias.Grammar.Program
import ImportAlias.Module.Lower

/-! Modules from source text: the trees that the grammar gives as concrete trees, and these
lowered. -/
namespace ImportAlias

namespace Grammar

namespace Kind

/-- The kind of a leaf as concrete trees have it. A kind without a meaning there is put in angle
brackets. -/
def ofLeaf (t : Text) : Kind → String
  | comment => "comment"
  | mark => String.ofList t
  | identifier => "identifier"
  | string | source => "string"
  | other name => "<" ++ name ++ ">"
  | _ => "<leaf>"

def ofNode : Kind → String
  | importStatement => "import_statement"
  | exportStatement => "export_statement"
  | call => "call_expression"
  | arguments => "arguments"
  | other name => "<" ++ name ++ ">"
  | _ => "<node>"

def leafField? : Kind → Option String
  | source => some "source"
  | _ => none

def nodeField? : Kind → Option String
  | arguments => some "arguments"
  | _ => none

end Kind

namespace Tree

def byteSize (t : Tree) : Nat := Text.byteSize t.text

mutual

def count : Tree → Nat
  | leaf _ _ => 1
  | node _ children => 1 + countOf children

def countOf : List Tree → Nat
  | [] => 0
  | t :: rest => count t + countOf rest

end

/-- What is called comes first in a call. -/
def withCallee : List Concrete → List Concrete
  | .node label children :: rest => .node { label with field := some "function" } children :: rest
  | [] => []

mutual

/-- The concrete nodes of a tree at a byte offset, numbered from `id` on. White space has none. -/
def concrete (offset id : Nat) : Tree → List Concrete
  | leaf .space _ => []
  | leaf kind t =>
    [.node ⟨id, kind.ofLeaf t, kind != .mark, kind.leafField?,
      ⟨offset, offset + Text.byteSize t⟩⟩ []]
  | node kind children =>
    let below := concreteOf offset (id + 1) children
    let span : Span := ⟨offset, offset + Text.byteSize (textOf children)⟩
    [.node ⟨id, kind.ofNode, true, kind.nodeField?, span⟩
      (if kind = .call then withCallee below else below)]

def concreteOf (offset id : Nat) : List Tree → List Concrete
  | [] => []
  | t :: rest => concrete offset id t ++ concreteOf (offset + t.byteSize) (id + t.count) rest

end

end Tree

/-- Reads a text by the grammar of a dialect. A text that does not fit it is not looked into. -/
def Dialect.read (d : Dialect) (source : Text) : Reading :=
  let root (children : List Concrete) : Concrete :=
    .node ⟨0, "program", true, none, ⟨0, Text.byteSize source⟩⟩ children
  match parse? d source with
  | some trees => ⟨root (Tree.concreteOf 0 1 trees), false⟩
  | none => ⟨root [], true⟩

end Grammar

namespace Module

/-- The parsers of source text and their dialects. -/
def dialects : List (String × Grammar.Dialect) :=
  [("babel", .javaScript), ("babel-ts", .tsx), ("typescript", .typeScript), ("tsx", .tsx)]

def parse (parser : String) (d : Grammar.Dialect) (source : Text) : Module :=
  ofReading parser source (d.read source)

end Module

end ImportAlias
