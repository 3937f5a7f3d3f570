import ImportAlias.Path

/-! A file tree without links whose files can all be written, and what can be asked of it through
paths. -/
namespace ImportAlias

/-- What a file holds: text, or bytes that are not text. -/
inductive Content where
  | text (t : Text)
  | binary (bytes : List UInt8)
  deriving DecidableEq, Repr

inductive Entry where
  | directory
  | file (content : Content)
  deriving DecidableEq, Repr

/-- Where an entry stands: the names on the way to it from the root. -/
abbrev Location := List Text

/-- Why a path could not be read. -/
inductive IoFault where
  | notFound
  | notDirectory
  | isDirectory
  | notText
  deriving DecidableEq, Repr

def IoFault.message : IoFault → String
  | notFound => "No such file or directory (os error 2)"
  | notDirectory => "Not a directory (os error 20)"
  | isDirectory => "Is a directory (os error 21)"
  | notText => "stream did not contain valid UTF-8"

structure FileTree where
  entries : List (Location × Entry)
  deriving DecidableEq, Repr

namespace FileTree

def empty : FileTree := ⟨[]⟩

/-- The entry at a location; the root is a directory. -/
def lookup (tree : FileTree) (l : Location) : Option Entry :=
  if l = [] then some .directory else tree.entries.lookup l

/-- Follows segments from a location. Only directories can be passed through. -/
def walk (tree : FileTree) (l : Location) : List Text → Except IoFault Location
  | [] => .ok l
  | s :: rest =>
    if tree.lookup l ≠ some .directory then .error .notDirectory
    else if Path.isTrivial s then walk tree l rest
    else if s = ['.', '.'] then walk tree l.dropLast rest
    else if (tree.lookup (l ++ [s])).isSome then walk tree (l ++ [s]) rest
    else .error .notFound

/-- The location that a path leads to. Relative paths lead nowhere. -/
def locate (tree : FileTree) (p : Path) : Except IoFault Location :=
  match p.text with
  | '/' :: rest => tree.walk [] (Text.splitOn '/' rest)
  | _ => .error .notFound

def entryAt? (tree : FileTree) (p : Path) : Option Entry :=
  match tree.locate p with
  | .ok l => tree.lookup l
  | .error _ => none

def contains (tree : FileTree) (p : Path) : Bool := (tree.entryAt? p).isSome

def isFile (tree : FileTree) (p : Path) : Bool :=
  match tree.entryAt? p with
  | some (.file _) => true
  | _ => false

def isDirectory (tree : FileTree) (p : Path) : Bool := tree.entryAt? p == some .directory

def read (tree : FileTree) (p : Path) : Except IoFault Text :=
  match tree.locate p with
  | .error e => .error e
  | .ok l =>
    match tree.lookup l with
    | none => .error .notFound
    | some .directory => .error .isDirectory
    | some (.file (.binary _)) => .error .notText
    | some (.file (.text t)) => .ok t

def pathOf (l : Location) : Path := ⟨'/' :: Text.joinWith '/' l⟩

/-- The one absolute path without `.`, `..` and empty segments to what a path leads to. -/
def canonical? (tree : FileTree) (p : Path) : Option Path :=
  match tree.locate p with
  | .ok l => some (pathOf l)
  | .error _ => none

/-- Sets an entry that is there already, or adds it. -/
def setEntry (l : Location) (e : Entry) : List (Location × Entry) → List (Location × Entry)
  | [] => [(l, e)]
  | (k, old) :: rest => if k = l then (k, e) :: rest else (k, old) :: setEntry l e rest

def put (tree : FileTree) (l : Location) (e : Entry) : FileTree := ⟨setEntry l e tree.entries⟩

/-- Adds the directories on the way down from a location that are not there yet. -/
def addDirectories (tree : FileTree) (l : Location) : List Text → FileTree
  | [] => tree
  | name :: rest =>
    let next := l ++ [name]
    let tree := if (tree.lookup next).isSome then tree else tree.put next .directory
    addDirectories tree next rest

/-- The location that an absolute path spells, whether or not it is there. -/
def spelled (p : Path) : Location :=
  p.normalComponents.filterMap fun
    | .normal name => some name
    | _ => none

def makeDirectory (tree : FileTree) (p : Path) : FileTree := tree.addDirectories [] (spelled p)

def makeFile (tree : FileTree) (p : Path) (content : Content) : FileTree :=
  let l := spelled p
  (tree.addDirectories [] l.dropLast).put l (.file content)

def overwrite (tree : FileTree) (p : Path) (t : Text) : FileTree :=
  match tree.locate p with
  | .ok l => tree.put l (.file (.text t))
  | .error _ => tree

def remove (tree : FileTree) (p : Path) : FileTree :=
  let l := spelled p
  ⟨tree.entries.filter fun (k, _) => !l.isPrefixOf k⟩

end FileTree

end ImportAlias
