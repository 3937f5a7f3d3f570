import ImportAlias.Discovery.Glob
import ImportAlias.FileTree

/-! Lists of rules that name what to pass over, as ignore files hold them. -/
namespace ImportAlias

inductive Verdict where
  | ignore
  | keep
  deriving DecidableEq, Repr

def Verdict.invert : Verdict → Verdict
  | ignore => keep
  | keep => ignore

structure IgnoreRule where
  glob : Glob
  verdict : Verdict
  /-- Does the rule hold for directories only? -/
  directoriesOnly : Bool

namespace IgnoreRule

/-- The pattern that is matched for a pattern as written. Without a slash it holds at any depth,
and what ends in a double star holds below the directory, not for itself. -/
def widen (anchored : Bool) (pattern : Text) : Text :=
  let wide := if anchored || pattern.contains '/' || pattern == "**".toList then pattern
    else "**/".toList ++ pattern
  if Text.endsWith "/**".toList wide then wide ++ "/*".toList else wide

/-- The rule of a pattern, with the marks around it taken off. -/
def ofPattern? (lenient : Bool) (verdict : Verdict) (anchored : Bool) (pattern : Text) :
    Option IgnoreRule :=
  let (body, directoriesOnly) := match Text.before? ['/'] pattern with
    | some body => ((Text.before? ['\\'] body).getD body, true)
    | none => (pattern, false)
  (Glob.parse? lenient (widen anchored body)).map fun glob => ⟨glob, verdict, directoriesOnly⟩

/-- A line of a list: nothing for a blank one or a comment, and an error for a bad pattern. -/
def ofLine (lenient : Bool) (line : Text) : Except Unit (Option IgnoreRule) :=
  let line := if Text.endsWith "\\ ".toList line then line else Text.trimEnd line
  let rule := fun (r : Option IgnoreRule) => match r with
    | some r => .ok (some r)
    | none => .error ()
  match line with
  | [] => .ok none
  | '#' :: _ => .ok none
  | '\\' :: '!' :: rest => rule (ofPattern? lenient .ignore false ('!' :: rest))
  | '\\' :: '#' :: rest => rule (ofPattern? lenient .ignore false ('#' :: rest))
  | '!' :: '/' :: rest => rule (ofPattern? lenient .keep true rest)
  | '!' :: rest => rule (ofPattern? lenient .keep false rest)
  | '/' :: rest => rule (ofPattern? lenient .ignore true rest)
  | pattern => rule (ofPattern? lenient .ignore false pattern)

def appliesTo (r : IgnoreRule) (path : Text) (isDirectory : Bool) : Bool :=
  (isDirectory || !r.directoriesOnly) && r.glob.matches path

end IgnoreRule

/-- The rules of a file. Patterns that cannot be read are left out, and `flawed` tells of them. -/
structure IgnoreList where
  rules : List IgnoreRule
  flawed : Bool

namespace IgnoreList

def empty : IgnoreList := ⟨[], false⟩

/-- The lines of a text; a line ends with a line feed and perhaps a carriage return before it. -/
def linesOf (t : Text) : List Text :=
  (Text.splitOn '\n' t).map fun line => (Text.before? ['\r'] line).getD line

/-- The lines of a file up to the first that is not text. -/
def linesOfContent : Content → List Text
  | .text t => linesOf t
  | .binary bytes =>
    ((pieces bytes).map decode?).takeWhile Option.isSome |>.filterMap fun line =>
      line.map fun line => (Text.before? ['\r'] line).getD line
where
  pieces : List UInt8 → List (List UInt8)
    | [] => [[]]
    | b :: rest =>
      match b == 10, pieces rest with
      | true, ps => [] :: ps
      | false, [] => [[b]]
      | false, p :: ps => (b :: p) :: ps
  decode? (bytes : List UInt8) : Option Text :=
    (String.fromUTF8? ⟨bytes.toArray⟩).map String.toList

/-- The list that lines spell. A byte order mark in front of them does not count. -/
def ofLines (lines : List Text) : IgnoreList :=
  let lines := match lines with
    | first :: rest => first.dropWhile (· == Char.ofNat 0xFEFF) :: rest
    | [] => []
  let read := lines.map (IgnoreRule.ofLine true)
  ⟨read.filterMap fun
      | .ok r => r
      | .error _ => none,
    read.any fun
      | .ok _ => false
      | .error _ => true⟩

def load (tree : FileTree) (l : Location) : IgnoreList :=
  match tree.lookup l with
  | some (.file content) => ofLines (linesOfContent content)
  | _ => empty

/-- The verdict of the last rule that holds for a path. -/
def verdict? (list : IgnoreList) (path : Text) (isDirectory : Bool) : Option Verdict :=
  (list.rules.reverse.find? fun r => r.appliesTo path isDirectory).map IgnoreRule.verdict

end IgnoreList

end ImportAlias
