import ImportAlias.Edit
import ImportAlias.Project

/-! Resolving relative specifiers on a file tree and naming their targets by aliases. -/
namespace ImportAlias

/-- Where a specifier leads, and whether through the index file of a directory. -/
structure Target where
  path : Path
  viaIndex : Bool
  deriving DecidableEq, Repr

namespace Target

def probedExtensions : List Text := [".js", ".jsx", ".ts", ".tsx", ".vue"].map String.toList

def indexFiles : List Path := ["index.js", "index.jsx", "index.ts", "index.tsx"].map Path.of

/-- Looks for the file itself, then with an extension, then for an index file. A target that is
not there stays as it is spelled. -/
def probe (tree : FileTree) (p : Path) : Target :=
  if tree.isFile p then ⟨p, false⟩
  else match (probedExtensions.map fun ext => Path.mk (p.text ++ ext)).find? tree.isFile with
    | some found => ⟨found, false⟩
    | none =>
      match (if tree.isDirectory p then indexFiles.map p.join else []).find? tree.isFile with
      | some found => ⟨found, true⟩
      | none => ⟨p, false⟩

def resolve (tree : FileTree) (s : Specifier) (file : Path) : Target :=
  probe tree (file.directory.join ⟨s⟩).normalize

end Target

namespace Alias

/-- The source extension that a specifier spells out. -/
def spelledExtension? (s : Specifier) : Option Text :=
  let last := (Text.splitOn '/' s).getLast?.getD []
  match Text.cutAtLast? '.' last with
  | some (_, ext) => if sourceExtensions.contains ext then some ext else none
  | none => none

/-- Keeps a directory import a directory import and a spelled extension spelled. -/
def keepShape (s : Specifier) (target : Target) (a : Text) : Text :=
  if target.viaIndex then (Text.before? "/index".toList a).getD a
  else match spelledExtension? s with
    | some ext => if Text.endsWith ('.' :: ext) a then a else a ++ '.' :: ext
    | none => a

end Alias

namespace Project

def aliasOf (p : Project) (tree : FileTree) (aliasPrefix : Text) (file : Path) (s : Specifier) :
    Except Error Text :=
  let target := Target.resolve tree s file
  match Alias.ofFile? aliasPrefix p.root p.manifest target.path with
  | some a => .ok (Alias.keepShape s target a)
  | none => .error (.resolution s target.path)

end Project

/-- Resolves the specifiers of a file against the project it belongs to. -/
def Resolver.ofFile (tree : FileTree) (options : Options) (file : Path) : Resolver Error :=
  let project := Project.ofFile tree options file
  fun s => (project.aliasOf tree options.aliasPrefix file s).map some

end ImportAlias
