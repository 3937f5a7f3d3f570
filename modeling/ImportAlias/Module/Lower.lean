import ImportAlias.Module.Render

/-! Concrete trees, as the parser of a language gives them, and the modules they are lowered to. -/
namespace ImportAlias

/-- What a parser says of a node. Keywords and punctuation are nodes without a name, and a node may
stand in a field of the one above it. -/
structure Concrete.Label where
  id : Nat
  kind : String
  named : Bool
  field : Option String
  span : Span
  deriving Repr

inductive Concrete where
  | node (label : Concrete.Label) (children : List Concrete)
  deriving Repr

/-- What a parser makes of a text. There is a tree also where it has errors. -/
structure Reading where
  root : Concrete
  hasErrors : Bool
  deriving Repr

namespace Concrete

def label : Concrete → Label
  | node label _ => label

def children : Concrete → List Concrete
  | node _ children => children

@[simp] theorem label_node (label : Label) (nodes : List Concrete) :
    (node label nodes).label = label := rfl

@[simp] theorem children_node (label : Label) (nodes : List Concrete) :
    (node label nodes).children = nodes := rfl

def inField? (field : String) (nodes : List Concrete) : Option Concrete :=
  nodes.find? fun c => c.label.field == some field

def ofKind? (kind : String) (nodes : List Concrete) : Option Concrete :=
  nodes.find? fun c => c.label.named && c.label.kind == kind

namespace Label

def text (source : Text) (label : Label) : Text :=
  (Text.slice? source label.span.start label.span.stop).getD []

def literal? (source : Text) (label : Label) : Option Literal :=
  Literal.ofToken? (label.text source) label.span

end Label

/-- The node that names the module of an import. In `import x = require("y")` it stands in a clause
of its own, in a field or as the first string. -/
def importSource? (nodes : List Concrete) : Option Concrete :=
  (inField? "source" nodes).or do
    let clause ← ofKind? "import_require_clause" nodes
    (inField? "source" clause.children).or (ofKind? "string" clause.children)

/-- An import, given what its children are lowered to without the node with a certain id. -/
def asImport? (source : Text) (label : Label) (nodes : List Concrete)
    (below : Option Nat → List Node) : Option Node := do
  let named ← importSource? nodes
  let literal ← named.label.literal? source
  let typeOnly := nodes[1]?.any fun c => c.label.kind == "type"
  return .importDecl literal typeOnly (below (some named.label.id)) label.span

def asExport? (source : Text) (label : Label) (nodes : List Concrete)
    (below : Option Nat → List Node) : Option Node :=
  match inField? "source" nodes with
  | none => some (.exportDecl none (below none) label.span)
  | some named => do
    let literal ← named.label.literal? source
    return .exportDecl (some literal) (below (some named.label.id)) label.span

mutual

/-- Lowers a node, without the node with the id `except` anywhere below it. What has no form of its
own keeps its children. -/
def lower (source : Text) (except : Option Nat) : Concrete → Option Node
  | node label nodes =>
    if except = some label.id then none
    else
      some <| Option.getD (match label.kind with
        | "import_statement" => asImport? source label nodes fun id => lowerAll source id nodes
        | "export_statement" => asExport? source label nodes fun id => lowerAll source id nodes
        | "call_expression" => do
          let arguments ← lowerArguments source nodes
          let callee ← lowerCallee source nodes
          return .call callee arguments label.span
        | "identifier" => some (.identifier (label.text source) label.span)
        | "string" => (label.literal? source).map .string
        | _ => none) (.other label.kind (lowerAll source except nodes) label.span)

def lowerAll (source : Text) (except : Option Nat) : List Concrete → List Node
  | [] => []
  | c :: rest =>
    if c.label.named then (lower source except c).toList ++ lowerAll source except rest
    else lowerAll source except rest

def lowerCallee (source : Text) : List Concrete → Option Node
  | [] => none
  | c :: rest =>
    if c.label.field == some "function" then lower source none c else lowerCallee source rest

/-- Lowers what stands in the field `arguments`, unless that is a template. -/
def lowerArguments (source : Text) : List Concrete → Option (List Node)
  | [] => none
  | node label nodes :: rest =>
    if label.field == some "arguments" then
      if label.kind == "arguments" then some (lowerAll source none nodes) else none
    else lowerArguments source rest

end

end Concrete

namespace Module

/-- The format of the trees of all parsers of source text. -/
def treeFormat : String := "estree"

def ofReading (parser : String) (source : Text) (r : Reading) : Module where
  source := source
  parser := parser
  format := treeFormat
  root := (r.root.lower source none).getD
    (.other r.root.label.kind (Concrete.lowerAll source none r.root.children) r.root.label.span)
  hasErrors := r.hasErrors

end Module

end ImportAlias
