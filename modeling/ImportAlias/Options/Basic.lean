import ImportAlias.Path

/-! The options of an aliasing run. -/
namespace ImportAlias

/-- Aliases are put into the text before it is parsed, or into the tree afterwards. -/
inductive Strategy where
  | text
  | tree
  deriving DecidableEq, Repr

structure Options where
  aliasPrefix : Text := "@/".toList
  /-- Specifiers that climb more than this get an alias. -/
  maxDepth : Nat := 1
  manifestPath : Option Path := none
  /-- Nothing means that it is detected. -/
  frameworkMode : Option Bool := none
  strategy : Strategy := .text
  /-- The plugin that the parsers are chained to. -/
  cooperatingPlugin : Text := "organize-imports".toList
  deriving DecidableEq, Repr

namespace Options

def explicitManifest? (o : Options) : Option Path :=
  o.manifestPath.filter fun p => Text.trim p.text ≠ []

end Options

end ImportAlias
