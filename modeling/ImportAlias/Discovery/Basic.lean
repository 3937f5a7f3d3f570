import ImportAlias.Discovery.Rules
import ImportAlias.Source

/-! The source files below a directory, without what ignore files and patterns leave out. -/
namespace ImportAlias

/-- Patterns that choose among the files of a directory. -/
structure Selection where
  /-- If there are any, only files that fit one are taken. -/
  includes : List Text := []
  excludes : List Text := []
  deriving DecidableEq, Repr

inductive DiscoveryError where
  | badExclude
  | badInclude
  | unreadable
  deriving DecidableEq, Repr

def DiscoveryError.message : DiscoveryError → String
  | badExclude => "invalid exclude pattern"
  | badInclude => "invalid include pattern"
  | unreadable => "error reading directory entry"

structure SourceFile where
  path : Path
  kind : SourceKind
  deriving DecidableEq, Repr

namespace Selection

/-- Directories and files that are never worth a look. -/
def defaultExclude : List Text :=
  ["node_modules/", "dist/", "build/", ".next/", "coverage/", "*.d.ts", "*.min.js"].map
    String.toList

def rulesOf (e : DiscoveryError) (lines : List Text) : Except DiscoveryError (List IgnoreRule) :=
  (lines.mapM fun line => (IgnoreRule.ofLine false line).mapError fun _ => e).map
    fun rules => rules.filterMap id

/-- The rules of a selection. A kept path is one to leave out, and an ignored one is chosen. -/
def rules (s : Selection) : Except DiscoveryError IgnoreList := do
  let excluded ← rulesOf .badExclude ((defaultExclude ++ s.excludes).map ('!' :: ·))
  let included ← rulesOf .badInclude s.includes
  return ⟨excluded ++ included, false⟩

/-- What the rules of a selection say about a path below the directory. With patterns for what is
taken, a file that no rule holds for is left out. -/
def verdict? (rules : IgnoreList) (path : Text) (isDirectory : Bool) : Option Verdict :=
  match rules.verdict? path isDirectory with
  | some v => some v.invert
  | none =>
    if !isDirectory && rules.rules.any (fun r => r.verdict = .ignore) then some .ignore else none

end Selection

namespace FileTree

def isRepository (tree : FileTree) (l : Location) : Bool :=
  (tree.lookup (l ++ [".git".toList])).isSome

/-- A directory and those above it, the innermost first. -/
def chain (l : Location) : List Location := ((List.range (l.length + 1)).map l.take).reverse

/-- The directories whose repository rules hold in a directory: up to the top of its repository,
and none outside of one. -/
def repositoryChain (tree : FileTree) (l : Location) : List Location :=
  let inside := (chain l).takeWhile fun d => !tree.isRepository d
  match (chain l).drop inside.length with
  | top :: _ => inside ++ [top]
  | [] => []

def pathFrom (dir l : Location) : Text := Text.joinWith '/' (l.drop dir.length)

/-- The first verdict that directories give, each in a file of the same name. -/
def firstVerdict? (tree : FileTree) (dirs : List Location) (file : List String) (l : Location)
    (isDirectory : Bool) : Option Verdict :=
  dirs.findSome? fun d =>
    (IgnoreList.load tree (d ++ file.map String.toList)).verdict? (pathFrom d l) isDirectory

/-- What ignore files say about an entry. Those for all tools come before those of a repository. -/
def ignoreVerdict? (tree : FileTree) (l : Location) (isDirectory : Bool) : Option Verdict :=
  let repository := tree.repositoryChain l.dropLast
  (tree.firstVerdict? (chain l.dropLast) [".ignore"] l isDirectory).orElse fun _ =>
    (tree.firstVerdict? repository [".gitignore"] l isDirectory).orElse fun _ =>
      tree.firstVerdict? repository [".git", "info", "exclude"] l isDirectory

def hasFlawedRules (tree : FileTree) (l : Location) : Bool :=
  [[".ignore"], [".gitignore"], [".git", "info", "exclude"]].any fun file =>
    (IgnoreList.load tree (l ++ file.map String.toList)).flawed

/-- Is an entry left out of a search from a directory? The rules of the search come first. -/
def isLeftOut (tree : FileTree) (rules : IgnoreList) (base l : Location) (isDirectory : Bool) :
    Bool :=
  match Selection.verdict? rules (pathFrom base l) isDirectory with
  | some v => v == .ignore
  | none => tree.ignoreVerdict? l isDirectory == some .ignore

/-- Is a file found in a search from a directory? Neither it nor a directory on the way may be left
out. -/
def isFound (tree : FileTree) (rules : IgnoreList) (base l : Location) : Bool :=
  base.isPrefixOf l && ((chain l).filter fun k => base.length < k.length).all fun k =>
    !tree.isLeftOut rules base k (k.length < l.length)

/-- The source files that a search from a directory finds, their paths as seen through `root`. -/
def sourceFiles (tree : FileTree) (rules : IgnoreList) (root : Path) (base : Location) :
    List SourceFile :=
  let found := tree.entries.filterMap fun
    | (l, .file _) =>
      let path := (l.drop base.length).foldl (fun p name => p.join ⟨name⟩) root
      match SourceKind.ofPath? path with
      | some kind => if tree.isFound rules base l then some ⟨path, kind⟩ else none
      | none => none
    | (_, .directory) => none
  found.mergeSort fun a b => !b.path.lt a.path

/-- The source files below a directory by increasing path. A file given instead of a directory is
taken whatever the rules say. -/
def discover (tree : FileTree) (s : Selection) (root : Path) :
    Except DiscoveryError (List SourceFile) :=
  if tree.isFile root then
    .ok ((SourceKind.ofPath? root).map fun kind => (⟨root, kind⟩ : SourceFile)).toList
  else do
    let rules ← s.rules
    match tree.locate root with
    | .error _ => throw .unreadable
    | .ok base =>
      if (chain base).tail.any tree.hasFlawedRules then throw .unreadable
      return tree.sourceFiles rules root base

end FileTree

end ImportAlias
