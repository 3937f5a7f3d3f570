import ImportAlias.Json.Printer

/-! Reports on a run: the changed lines of every file, as text or as JSON. -/
namespace ImportAlias

/-- The lines of a text. A carriage return before a line feed belongs to the line end, and nothing
follows the last one. -/
def Text.lines (t : Text) : List Text :=
  let pieces := splitOn '\n' t
  let last := pieces.getLast?.getD []
  pieces.dropLast.map (fun line => (before? ['\r'] line).getD line) ++
    if last = [] then [] else [last]

structure LineChange where
  line : Nat
  before : Text
  after : Text
  deriving DecidableEq, Repr

namespace LineChange

/-- Compares lines from a line number on. -/
def compareFrom : Nat → List Text → List Text → List LineChange
  | n, b :: bs, a :: as =>
    if b = a then compareFrom (n + 1) bs as
    else ⟨n, b.trim, a.trim⟩ :: compareFrom (n + 1) bs as
  | _, _, _ => []

/-- The lines that differ between two texts, as far as both go. -/
def between (before after : Text) : List LineChange := compareFrom 1 before.lines after.lines

end LineChange

structure FileReport where
  path : Text
  changes : List LineChange
  error : Option Text := none
  /-- The text with aliases, if the file could be read. -/
  text : Option Text := none
  deriving DecidableEq, Repr

def FileReport.changed (r : FileReport) : Bool := !r.changes.isEmpty

structure Report where
  scanned : Nat
  changed : Nat
  written : Bool
  files : List FileReport
  deriving DecidableEq, Repr

inductive Report.Format where
  | text
  | json
  | compact
  deriving DecidableEq, Repr

namespace Report

def hasErrors (r : Report) : Bool := r.files.any fun f => f.error.isSome

def ofFiles (written : Bool) (files : List FileReport) : Report :=
  ⟨files.length, (files.filter FileReport.changed).length, written, files⟩

def objectOf (members : List (String × Json)) : Json :=
  .object (members.map fun (k, v) => (k.toList, v))

def changeJson (c : LineChange) : Json :=
  objectOf [("line", .ofNat c.line), ("before", .string c.before), ("after", .string c.after)]

def fileJson (f : FileReport) : Json :=
  objectOf ([("path", .string f.path), ("changes", .array (f.changes.map changeJson))] ++
    match f.error with
    | some e => [("error", Json.string e)]
    | none => [])

def toJson (r : Report) : Json :=
  objectOf [("files_scanned", .ofNat r.scanned), ("files_changed", .ofNat r.changed),
    ("written", .bool r.written), ("files", .array (r.files.map fileJson))]

def changeText (path : Text) (c : LineChange) : Text :=
  path ++ ':' :: Nat.toDigits 10 c.line ++ "\n  - ".toList ++ c.before ++ "\n  + ".toList ++
    c.after ++ ['\n']

/-- An error, or the changes with their lines before and after. -/
def fileText (f : FileReport) : Text :=
  match f.error with
  | some e => f.path ++ ": error: ".toList ++ e ++ ['\n']
  | none => f.changes.flatMap (changeText f.path)

def summary (r : Report) : Text :=
  (if r.written then "Rewrote " else "Would rewrite ").toList ++ Nat.toDigits 10 r.changed ++
    " of ".toList ++ Nat.toDigits 10 r.scanned ++ " files".toList

/-- The report as JSON text; only the compact format is on one line. -/
def jsonText (format : Format) (r : Report) : Text :=
  match format with
  | .compact => r.toJson.compact
  | _ => r.toJson.pretty

def render (format : Format) (r : Report) : Text :=
  match format with
  | .text => r.files.flatMap fileText ++ r.summary
  | _ => jsonText format r

end Report

end ImportAlias
