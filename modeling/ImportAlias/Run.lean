import ImportAlias.CommandLine.Basic
import ImportAlias.Module.Render
import ImportAlias.Options.File
import ImportAlias.Parsers.Chain

/-! A run over the files that a request names. -/
namespace ImportAlias

inductive RunError where
  | optionsNotFound (path : Path)
  | pathNotFound (path : Path)
  | discovery (e : DiscoveryError)
  | other (e : Error)
  deriving DecidableEq, Repr

def RunError.message : RunError → String
  | optionsNotFound path => s!"options file not found: {String.ofList path.text}"
  | pathNotFound path => s!"path not found: {String.ofList path.text}"
  | discovery e => e.message
  | other e => e.message

/-- What a run prints, how it exits, and what it did. -/
structure RunOutcome where
  stdout : Text
  exitCode : Nat
  report : Report
  deriving DecidableEq, Repr

namespace Request

/-- The options of a run: those of the options file under those of the request. -/
def options (r : Request) (tree : FileTree) (cwd : Path) : Except RunError Options :=
  match r.optionsFile with
  | none => .ok (r.over (Options.ofProject tree cwd))
  | some path =>
    let path := cwd.join path
    match Options.find? tree cwd (some path) with
    | none => .error (.optionsNotFound path)
    | some path =>
      match Options.load tree path with
      | .error e => .error (.other e)
      | .ok o => .ok (r.over o)

def filesAt (r : Request) (tree : FileTree) (cwd path : Path) :
    Except RunError (List SourceFile) :=
  let path := cwd.join path
  match tree.canonical? path with
  | none => .error (.pathNotFound path)
  | some path => (tree.discover r.selection path).mapError .discovery

/-- Each file once, if equal ones stand side by side. -/
def dropRepeated : List SourceFile → List SourceFile
  | a :: b :: rest =>
    if a.path = b.path then dropRepeated (a :: rest) else a :: dropRepeated (b :: rest)
  | files => files

/-- The files of a request by increasing path, each of them once. -/
def files (r : Request) (tree : FileTree) (cwd : Path) : Except RunError (List SourceFile) := do
  let found ← r.paths.mapM (r.filesAt tree cwd)
  return dropRepeated (found.flatten.mergeSort fun a b => !b.path.lt a.path)

end Request

namespace SourceFile

/-- The text of a file with aliases in it. Where aliases go into the tree, a text with errors stays
as it is. -/
def aliasedText (f : SourceFile) (tree : FileTree) (parsers : ParserSet) (options : Options)
    (text : Text) : Except Error Text :=
  match f.kind.parserName? with
  | none => .ok (aliasHeader (Resolver.ofFile tree options f.path) options.maxDepth text).text
  | some name =>
    match (parsers.parseWith tree ⟨some f.path, none⟩ name text).2 with
    | .error e => .error e
    | .ok m =>
      if m.hasErrors ∧ options.strategy = .tree then .ok text
      else .ok (m.render?.getD text)

def report (f : SourceFile) (tree : FileTree) (parsers : ParserSet) (options : Options)
    (directory : Path) : FileReport :=
  let path := ((directory.below? f.path).getD f.path).text
  match tree.read f.path with
  | .error fault =>
    { path, changes := []
      error :=
        some ("failed to read ".toList ++ f.path.text ++ ": ".toList ++ fault.message.toList) }
  | .ok text =>
    match f.aliasedText tree parsers options text with
    | .error e => { path, changes := [], error := some e.message.toList }
    | .ok aliased => { path, changes := LineChange.between text aliased, text := some aliased }

end SourceFile

def FileTree.writeReports (tree : FileTree) (reports : List (SourceFile × FileReport)) : FileTree :=
  reports.foldl (fun tree (f, r) =>
    match r.changed, r.text with
    | true, some text => tree.overwrite f.path text
    | _, _ => tree) tree

namespace Request

def reports (r : Request) (tree : FileTree) (cwd : Path) :
    Except RunError (List (SourceFile × FileReport)) := do
  let options ← r.options tree cwd
  let files ← r.files tree cwd
  let (parsers, _) := ParserSet.aliasing {} [] options
  let directory := (tree.canonical? cwd).getD cwd
  return files.map fun f => (f, f.report tree parsers options directory)

/-- What a run prints. A single file without a mode is printed with its aliases. -/
def output (r : Request) (report : Report) : Text :=
  match r.write || r.check, r.paths, report.files with
  | false, [_], [⟨_, _, none, text⟩] => text.getD []
  | _, _, _ => report.render r.format

/-- Errors come before changes that were checked for. -/
def exitCode (r : Request) (report : Report) : Nat :=
  if report.hasErrors then 2 else if r.check && 0 < report.changed then 1 else 0

def run (r : Request) (tree : FileTree) (cwd : Path) : Except RunError (RunOutcome × FileTree) := do
  let reports ← r.reports tree cwd
  let report := Report.ofFiles r.write (reports.map Prod.snd)
  return (⟨r.output report, r.exitCode report, report⟩,
    if r.write then tree.writeReports reports else tree)

end Request

end ImportAlias
