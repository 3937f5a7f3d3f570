import ImportAlias.Json.Parser
import ImportAlias.Manifest.Clean
import ImportAlias.Path

/-! Project manifests: the base URL and the path mappings they declare. -/
namespace ImportAlias

/-- A target of a mapping: what precedes its wildcard, resolved to a path, and what follows it. -/
structure Substitution where
  before : Text
  after : Text
  deriving DecidableEq, Repr

/-- One entry of a manifest's `paths`. -/
structure Mapping where
  pattern : Text
  before : Text
  after : Text
  wildcard : Bool
  substitutions : List Substitution
  deriving DecidableEq, Repr

/-- What a manifest says about aliases. -/
structure Manifest where
  directory : Path
  baseUrl : Option Path
  mappings : List Mapping
  deriving DecidableEq, Repr

namespace Manifest

/-- The parts of a pattern around its first wildcard; without one all of it comes before. -/
def splitWildcard (pattern : Text) : Text × Text :=
  (Text.cutAt? '*' pattern).getD (pattern, [])

/-- Does the text before a wildcard name a whole directory? -/
def namesDirectory (t : Text) : Bool :=
  t == [] || t.getLast? == some '/' || t.getLast? == some '\\' || t == ['.']

def substitution (base : Path) (target : Text) : Substitution :=
  let (before, after) := splitWildcard target
  let resolved := (base.join ⟨before⟩).normalize.slashed
  if namesDirectory before ∧ resolved.getLast? ≠ some '/' then ⟨resolved ++ ['/'], after⟩
  else ⟨resolved, after⟩

/-- The targets of an entry: a string, or the strings of an array. -/
def targets : Json → List Text
  | .string s => [s]
  | .array items => items.filterMap Json.string?
  | _ => []

def mapping (base : Path) (pattern : Text) (entry : Json) : Mapping :=
  let (before, after) := splitWildcard pattern
  { pattern, before, after
    wildcard := pattern.contains '*'
    substitutions := (targets entry).map (substitution base) }

/-- What a document says, read from the manifest at `path`. -/
def ofJson (path : Path) (document : Json) : Manifest :=
  let directory := path.directory
  let options := document.member? "compilerOptions".toList
  let baseUrl := (options.bind (Json.member? "baseUrl".toList)).bind Json.string?
    |>.map fun url => (directory.join ⟨url⟩).normalize
  let entries := match options.bind (Json.member? "paths".toList) with
    | some (.object members) => members
    | _ => []
  let base := baseUrl.getD directory
  { directory, baseUrl
    mappings := entries.map fun (pattern, entry) => mapping base pattern entry }

/-- Reads a manifest text. A fault is one of the cleaned text. -/
def parse (path : Path) (content : Text) : Except Json.Fault Manifest :=
  (Json.parse (clean content)).map (ofJson path)

end Manifest

end ImportAlias
