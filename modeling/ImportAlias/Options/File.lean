import ImportAlias.Error
import ImportAlias.Options.Basic
import ImportAlias.Toml.Document

/-! Options files. Keys that are absent keep their defaults, and unknown keys are passed over. -/
namespace ImportAlias.Options

/-- A value that names a strategy: its name, or a table with its name over something empty. -/
def strategy? : Toml → Option Strategy
  | .string name => named? name
  | .table _ [(name, v)] => if isEmpty v then named? name else none
  | .inlineTable _ [(name, v)] => if isEmpty v then named? name else none
  | _ => none
where
  named? (name : Text) : Option Strategy :=
    if name = "text".toList then some .text
    else if name = "tree".toList then some .tree
    else none
  isEmpty : Toml → Bool
    | .array [] => true
    | .table _ [] => true
    | .inlineTable _ [] => true
    | _ => false

/-- Applies a setting to the options, if its value has the right type. -/
def set? (o : Options) (key : Text) (v : Toml) : Option Options :=
  match String.ofList key, v with
  | "alias_prefix", .string s => some { o with aliasPrefix := s }
  | "alias_prefix", _ => none
  | "max_relative_depth", .integer n =>
    if 0 ≤ n then some { o with maxDepth := n.toNat } else none
  | "max_relative_depth", _ => none
  | "config_path", .string s => some { o with manifestPath := some ⟨s⟩ }
  | "config_path", _ => none
  | "framework_mode", .boolean b => some { o with frameworkMode := some b }
  | "framework_mode", _ => none
  | "strategy", v => (strategy? v).map fun s => { o with strategy := s }
  | "cooperating_plugin", .string s => some { o with cooperatingPlugin := s }
  | "cooperating_plugin", _ => none
  | _, _ => some o

def parse? (t : Text) : Option Options := do
  let entries ← Toml.parse? t
  entries.foldlM (fun o (key, v) => set? o key v) {}

def load (tree : FileTree) (path : Path) : Except Error Options :=
  match tree.read path with
  | .error fault => .error (.io path fault)
  | .ok content =>
    match parse? content with
    | some o => .ok o
    | none => .error (.options path)

/-- The names that options files have, in the order in which they are looked for. -/
def fileNames : List Path := ["relimport.toml", ".relimport.toml"].map Path.of

/-- The options file of a project. A path given instead has to be there. -/
def find? (tree : FileTree) (root : Path) (given : Option Path) : Option Path :=
  match given with
  | some path => if tree.contains path then some path else none
  | none => (fileNames.map root.join).find? tree.isFile

/-- The options of a project; without a file that can be read, the defaults. -/
def ofProject (tree : FileTree) (root : Path) : Options :=
  match find? tree root none with
  | none => {}
  | some path => (load tree path).toOption.getD {}

end ImportAlias.Options
