import ImportAlias.Alias
import ImportAlias.Error
import ImportAlias.FileTree
import ImportAlias.Options.Basic

/-! The project that a file belongs to: its root, its manifest and its framework mode. -/
namespace ImportAlias

namespace Manifest

def load (tree : FileTree) (path : Path) : Except Error Manifest :=
  match tree.read path with
  | .error fault => .error (.io path fault)
  | .ok content => (parse path content).mapError (.manifest path (clean content))

def load? (tree : FileTree) (path : Path) : Option Manifest :=
  if tree.isFile path then (load tree path).toOption else none

end Manifest

inductive ManifestKind where
  | tsConfig
  | jsConfig
  deriving DecidableEq, Repr

/-- What aliases in a file depend on. -/
structure Project where
  root : Path
  manifest : Option Manifest
  frameworkMode : Bool
  deriving DecidableEq, Repr

namespace Project

/-- The files that mark the root of a project. -/
def rootMarkers : List Path := ["package.json", "tsconfig.json", "jsconfig.json"].map Path.of

def frameworkMarkers : List Path :=
  ["next.config.js", "next.config.mjs", "next.config.ts"].map Path.of

/-- The nearest directory above a file with a root marker, short of the topmost one; without any,
the directory of the file. -/
def rootOf (tree : FileTree) (file : Path) : Path :=
  let start := file.directory
  let marked := fun (dir : Path) => rootMarkers.any fun m => tree.contains (dir.join m)
  ((start.ancestors.takeWhile fun dir => dir.parent?.isSome).find? marked).getD start

def findManifest? (tree : FileTree) (root : Path) : Option (ManifestKind × Path) :=
  let ts := root.join (.of "tsconfig.json")
  let js := root.join (.of "jsconfig.json")
  if tree.isFile ts then some (.tsConfig, ts)
  else if tree.isFile js then some (.jsConfig, js)
  else none

def dependsOnFramework (document : Json) : Bool :=
  ["dependencies", "devDependencies"].any fun group =>
    ((document.member? group.toList).bind (Json.member? "next".toList)).isSome

/-- Does the project use the framework? A package file that cannot be read says no. -/
def detectFramework (tree : FileTree) (root : Path) : Bool :=
  frameworkMarkers.any (fun m => tree.contains (root.join m)) ||
    match tree.read (root.join (.of "package.json")) with
    | .error _ => false
    | .ok content =>
      match Json.parse content with
      | .error _ => false
      | .ok document => dependsOnFramework document

/-- The project of a file. Explicit options replace what would be looked up. -/
def ofFile (tree : FileTree) (options : Options) (file : Path) : Project :=
  let root := rootOf tree file
  { root
    manifest := match options.explicitManifest? with
      | some path => Manifest.load? tree (root.join path)
      | none => (findManifest? tree root).bind fun (_, path) => Manifest.load? tree path
    frameworkMode := options.frameworkMode.getD (detectFramework tree root) }

end Project

end ImportAlias
