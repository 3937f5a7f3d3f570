import ImportAlias.Discovery.Basic
import ImportAlias.Options.Basic
import ImportAlias.Report

/-! What a command line asks for. -/
namespace ImportAlias

inductive FrameworkMode where
  | auto
  | on
  | off
  deriving DecidableEq, Repr

namespace FrameworkMode

def option : FrameworkMode → Option Bool
  | auto => none
  | on => some true
  | off => some false

end FrameworkMode

/-- Everything that the arguments of a run say. -/
structure Request where
  paths : List Path := [.of "."]
  write : Bool := false
  check : Bool := false
  aliasPrefix : Option Text := none
  maxDepth : Option Nat := none
  manifestPath : Option Path := none
  frameworkMode : Option FrameworkMode := none
  strategy : Option Strategy := none
  optionsFile : Option Path := none
  selection : Selection := {}
  format : Report.Format := .text
  deriving DecidableEq, Repr

/-- The options under what the arguments say. -/
def Request.over (r : Request) (o : Options) : Options :=
  { o with
    aliasPrefix := r.aliasPrefix.getD o.aliasPrefix
    maxDepth := r.maxDepth.getD o.maxDepth
    manifestPath := r.manifestPath.or o.manifestPath
    frameworkMode := (r.frameworkMode.map FrameworkMode.option).getD o.frameworkMode
    strategy := r.strategy.getD o.strategy }

inductive UsageError where
  | conflict
  | invalidValue
  | unknownArgument
  | valueValidation
  | tooManyValues
  | help
  | version
  deriving DecidableEq, Repr

end ImportAlias
