import ImportAlias.CommandLine.Program

/-! The command line program. The files around the working directory and the given paths are read,
the program is run on them, and the files that it changed are written back. -/
namespace ImportAlias.Disk

def content (path : String) : IO Content := do
  let bytes ← IO.FS.readBinFile path
  match String.fromUTF8? bytes with
  | some s => return .text s.toList
  | none => return .binary bytes.toList

def isThere (path : String) : IO Bool := do
  try
    let real ← IO.FS.realPath path
    real.pathExists
  catch _ => return false

/-- The entries below a directory. Packages are passed over unless `everything` is asked for. -/
partial def entriesBelow (everything : Bool) (path : String) (l : Location) :
    IO (List (Location × Entry)) := do
  let mut found := []
  for entry in ← (← IO.FS.realPath path).readDir do
    let here := l ++ [entry.fileName.toList]
    let child := path ++ "/" ++ entry.fileName
    if (← entry.path.symlinkMetadata).type matches .dir then
      found := (here, Entry.directory) :: found
      if everything || entry.fileName != "node_modules" then
        found := (← entriesBelow everything child here) ++ found
    else if ← entry.path.isDir then
      found := (here, Entry.directory) :: found
    else
      found := (here, Entry.file (← content child)) :: found
  return found

def isTop (path : String) : IO Bool :=
  ["package.json", "tsconfig.json", "jsconfig.json", ".git"].anyM fun name =>
    isThere (path ++ "/" ++ name)

def directoryAt (l : Location) : String := String.ofList (FileTree.pathOf l).text

/-- The outermost project around a location, or the location itself. -/
def topAround (l : Location) : IO Location := do
  for k in (FileTree.chain l).reverse.drop 1 do
    if ← isTop (directoryAt k) then return k
  return l

def entriesAbove (l : Location) : IO (List (Location × Entry)) := do
  let mut found := []
  for k in FileTree.chain l do
    if k ≠ [] then found := (k, Entry.directory) :: found
    if k ≠ l then
      let file := directoryAt k ++ "/.ignore"
      if ← isThere file then
        found := (k ++ [".ignore".toList], .file (← content file)) :: found
  return found

/-- The files that a run can ask for. -/
def snapshot (everything : Bool) (paths : List String) : IO FileTree := do
  let mut tops : List Location := []
  for path in paths do
    if ← isThere path then
      let real ← IO.FS.realPath path
      let l := FileTree.spelled ⟨real.toString.toList⟩
      let start := if ← real.isDir then l else l.dropLast
      let top ← topAround start
      unless tops.any (fun t => t.isPrefixOf top) do tops := top :: tops
  let mut entries := []
  for top in tops do
    entries := (← entriesAbove top) ++ (← entriesBelow everything (directoryAt top) top) ++ entries
  return ⟨entries.eraseDups⟩

def writeChanges (old new : FileTree) : IO Unit := do
  for ((l, now), (_, was)) in new.entries.zip old.entries do
    match now with
    | .file (.text t) => if now ≠ was then IO.FS.writeFile (directoryAt l) (String.ofList t)
    | _ => pure ()

end ImportAlias.Disk

open ImportAlias in
def main (arguments : List String) : IO UInt32 := do
  let cwd ← IO.currentDir
  let texts := arguments.map String.toList
  let (paths, everything) := match Request.parse texts with
    | .ok r => ((r.paths ++ r.optionsFile.toList).map fun p => String.ofList p.text,
        !r.selection.includes.isEmpty)
    | .error _ => ([], false)
  let tree ← Disk.snapshot everything (cwd.toString :: paths)
  let (result, after) := Program.run texts tree ⟨cwd.toString.toList⟩
  Disk.writeChanges tree after
  IO.print (String.ofList result.stdout)
  match result.errorLine with
  | some line => IO.eprintln (String.ofList line)
  | none => if result.exitCode = 2 ∧ result.stdout = [] then IO.eprintln "error: invalid arguments"
  return UInt32.ofNat result.exitCode
