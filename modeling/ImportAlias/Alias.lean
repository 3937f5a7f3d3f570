import ImportAlias.Manifest.Basic

/-! Aliases of files: through the mappings of a manifest, or relative to a base directory. -/
namespace ImportAlias

namespace Alias

/-- The extensions that an alias leaves out. -/
def sourceExtensions : List Text :=
  ["js", "jsx", "ts", "tsx", "vue", "mjs", "cjs"].map String.toList

/-- The text without its source extension, if its last segment has one after a stem. -/
def dropExtension (t : Text) : Text :=
  match Text.cutAtLast? '.' t with
  | some (stem, ext) =>
    if stem ≠ [] ∧ stem.getLast? ≠ some '/' ∧ sourceExtensions.contains ext then stem else t
  | none => t

def dropSlashes (t : Text) : Text := (t.reverse.dropWhile (· == '/')).reverse

/-- The alias of a file through one target of a mapping. -/
def through? (file : Text) (m : Mapping) (s : Substitution) : Option Text :=
  if m.wildcard then do
    let rest ← Text.after? s.before file
    let captured ← Text.before? s.after rest
    if captured = [] then none
    else if s.after = [] then some (m.before ++ dropExtension captured ++ m.after)
    else some (m.before ++ captured ++ m.after)
  else
    let target := dropExtension s.before
    let stem := dropExtension file
    if stem = target ∨ Text.before? "/index".toList stem = some (dropSlashes target) then
      some m.pattern
    else none

/-- The alias of a file through the first mapping and target that match it. -/
def mapped? (m : Manifest) (file : Path) : Option Text :=
  let name := file.normalize.slashed
  m.mappings.findSome? fun entry => entry.substitutions.findSome? (through? name entry)

/-- The part of a relative path from its first real segment on. -/
def descent? (segments : List Text) : Option (List Text) :=
  match segments.dropWhile fun s => s == ['.', '.'] || s == ['.'] || s == [] with
  | [] => none
  | rest => some rest

/-- A relative path that climbs keeps only what it descends to. -/
def inside? (relative : Text) : Option Text :=
  match Text.splitOn '/' relative with
  | ['.', '.'] :: rest => (descent? rest).map (Text.joinWith '/')
  | _ => some relative

/-- The directory that aliases without a mapping start from. -/
def base (root : Path) (manifest : Option Manifest) : Path :=
  (manifest.bind Manifest.baseUrl).getD root.normalize

/-- The alias of a file relative to the base directory. -/
def fallback? (aliasPrefix : Text) (base file : Path) : Option Text := do
  let relative ← inside? (file.normalize.relativeTo base).slashed
  let stem := dropExtension relative
  if stem = [] then none else some (aliasPrefix ++ stem)

/-- The alias of a file: mappings first, then the base directory. -/
def ofFile? (aliasPrefix : Text) (root : Path) (manifest : Option Manifest) (file : Path) :
    Option Text :=
  (manifest.bind (mapped? · file)).or (fallback? aliasPrefix (base root manifest) file)

end Alias

end ImportAlias
