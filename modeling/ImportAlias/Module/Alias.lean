import ImportAlias.Edit
import ImportAlias.Module.Basic

/-! Aliases in the tree of a module: in import sources and in the arguments of `require`. -/
namespace ImportAlias

namespace Node

def aliasFirst (choose : Text → Option Text) : List Node → List Node
  | string l :: rest => string (l.aliased choose) :: rest
  | arguments => arguments

mutual

/-- The tree with aliases in its import sources and in the first arguments of `require`. Exported
sources, and whatever stands inside an import, stay. -/
def aliased (choose : Text → Option Text) : Node → Node
  | importDecl source typeOnly children span =>
    importDecl (source.aliased choose) typeOnly children span
  | exportDecl source children span => exportDecl source (aliasedAll choose children) span
  | call callee arguments span =>
    let rest := aliasedAll choose arguments
    call (aliased choose callee) (if callee.isRequire then aliasFirst choose rest else rest) span
  | identifier name span => identifier name span
  | string l => string l
  | other kind children span => other kind (aliasedAll choose children) span

def aliasedAll (choose : Text → Option Text) : List Node → List Node
  | [] => []
  | n :: rest => aliased choose n :: aliasedAll choose rest

end

mutual

/-- The literals that an alias may replace, each call's own before those nested in it. -/
def candidates : Node → List Literal
  | importDecl source _ _ _ => [source]
  | exportDecl _ children _ => candidatesOf children
  | call callee arguments _ =>
    (if callee.isRequire then (firstLiteral? arguments).toList else []) ++
      (candidates callee ++ candidatesOf arguments)
  | identifier _ _ => []
  | string _ => []
  | other _ children _ => candidatesOf children

def candidatesOf : List Node → List Literal
  | [] => []
  | n :: rest => candidates n ++ candidatesOf rest

end

theorem candidatesOf_eq_flatMap (ns : List Node) : candidatesOf ns = ns.flatMap candidates := by
  induction ns with
  | nil => rfl
  | cons n ns ih => rw [candidatesOf, ih, List.flatMap_cons]

end Node

/-- The line of a byte offset: the line breaks before it, counted from one. -/
def lineAt (source : Text) (offset : Nat) : Nat :=
  match offset, source with
  | _, [] => 1
  | 0, _ => 1
  | n + 1, c :: t => (if c = '\n' then 1 else 0) + lineAt t (n + 1 - c.utf8Size)

namespace Module

/-- The edits that `aliased` makes, in the order of the candidates. -/
def edits (choose : Text → Option Text) (m : Module) : List Edit :=
  m.root.candidates.filterMap fun l =>
    (choose l.value).map fun a => ⟨lineAt m.source l.span.start, l.value, a⟩

def aliased (choose : Text → Option Text) (m : Module) : Module :=
  { m with root := m.root.aliased choose }

/-- The specifiers that a resolver is asked for. -/
def consulted (threshold : Nat) (m : Module) : List Specifier :=
  (m.root.candidates.map Literal.value).filter (Specifier.exceeds threshold)

end Module

end ImportAlias
