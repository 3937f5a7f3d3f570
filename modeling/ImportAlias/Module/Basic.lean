import ImportAlias.Module.Literal

/-! The tree of a parsed module. Imports, exports, calls, identifiers and strings have a form of
their own; everything else keeps its children. -/
namespace ImportAlias

inductive Node where
  | importDecl (source : Literal) (typeOnly : Bool) (children : List Node) (span : Span)
  | exportDecl (source : Option Literal) (children : List Node) (span : Span)
  | call (callee : Node) (arguments : List Node) (span : Span)
  | identifier (name : Text) (span : Span)
  | string (literal : Literal)
  | other (kind : String) (children : List Node) (span : Span)
  deriving Repr, Inhabited

/-- What a reader of the tree meets, in its order. -/
inductive Event where
  | importDecl (source : Literal) (typeOnly : Bool)
  | exportDecl (source : Option Literal)
  | call (callee : Node) (arguments : List Node)
  | identifier (name : Text)
  | string (literal : Literal)
  | other (kind : String)

namespace Node

def isRequire : Node → Bool
  | identifier name _ => name == "require".toList
  | _ => false

def firstLiteral? : List Node → Option Literal
  | string l :: _ => some l
  | _ => none

mutual

/-- The events of a node: the node itself, then its source, then what is below it. -/
def events : Node → List Event
  | importDecl source typeOnly children _ =>
    .importDecl source typeOnly :: .string source :: eventsOf children
  | exportDecl source children _ =>
    .exportDecl source :: (source.toList.map Event.string ++ eventsOf children)
  | call callee arguments _ => .call callee arguments :: (events callee ++ eventsOf arguments)
  | identifier name _ => [.identifier name]
  | string l => [.string l]
  | other kind children _ => .other kind :: eventsOf children

def eventsOf : List Node → List Event
  | [] => []
  | n :: rest => events n ++ eventsOf rest

end

theorem eventsOf_eq_flatMap (ns : List Node) : eventsOf ns = ns.flatMap events := by
  induction ns with
  | nil => rfl
  | cons n ns ih => rw [eventsOf, ih, List.flatMap_cons]

def literals (n : Node) : List Literal :=
  n.events.filterMap fun
    | .string l => some l
    | _ => none

mutual

/-- The specifiers of the import and export statements that no other statement or call encloses. -/
def specifiers : Node → List Text
  | importDecl source _ _ _ => [source.value]
  | exportDecl source _ _ => source.toList.map Literal.value
  | other _ children _ => specifiersOf children
  | _ => []

def specifiersOf : List Node → List Text
  | [] => []
  | n :: rest => specifiers n ++ specifiersOf rest

end

theorem specifiersOf_eq_flatMap (ns : List Node) : specifiersOf ns = ns.flatMap specifiers := by
  induction ns with
  | nil => rfl
  | cons n ns ih => rw [specifiersOf, ih, List.flatMap_cons]

mutual

/-- Walks over a tree in the order of its events and changes the literals and the names that it
meets. Whatever the walk remembers on its way is in the monad. -/
def updateM {m : Type → Type} [Monad m] (onLiteral : Literal → m Literal)
    (onName : Text → m Text) : Node → m Node
  | importDecl source typeOnly children span => do
    let source ← onLiteral source
    let children ← updateAllM onLiteral onName children
    return importDecl source typeOnly children span
  | exportDecl source children span => do
    let source ← source.mapM onLiteral
    let children ← updateAllM onLiteral onName children
    return exportDecl source children span
  | call callee arguments span => do
    let callee ← updateM onLiteral onName callee
    let arguments ← updateAllM onLiteral onName arguments
    return call callee arguments span
  | identifier name span => do
    let name ← onName name
    return identifier name span
  | string l => do
    let l ← onLiteral l
    return string l
  | other kind children span => do
    let children ← updateAllM onLiteral onName children
    return other kind children span

def updateAllM {m : Type → Type} [Monad m] (onLiteral : Literal → m Literal)
    (onName : Text → m Text) : List Node → m (List Node)
  | [] => return []
  | n :: rest => do
    let n ← updateM onLiteral onName n
    let rest ← updateAllM onLiteral onName rest
    return n :: rest

end

/-- Replaces one name by another in identifiers and in the values of strings. -/
def rename (a b : Text) (n : Node) : Node :=
  Id.run (n.updateM (fun l => pure (l.renamed a b)) fun name => pure (if name = a then b else name))

end Node

structure Module where
  source : Text
  /-- The parser that produced the tree. -/
  parser : String
  /-- The format that the trees of compatible parsers share. -/
  format : String
  root : Node
  hasErrors : Bool
  deriving Repr, Inhabited

def Module.specifiers (m : Module) : List Text := m.root.specifiers

end ImportAlias
