import ImportAlias.FileTree
import ImportAlias.Json.Basic
import ImportAlias.Specifier

/-! Everything that can go wrong, and how it is told. -/
namespace ImportAlias

inductive Error where
  | io (path : Path) (fault : IoFault)
  /-- A fault in the cleaned text of a manifest. -/
  | manifest (path : Path) (cleaned : Text) (fault : Json.Fault)
  | options (path : Path)
  | unknownParser (name : String)
  | parseFailed (message : String)
  /-- The target of a specifier has no alias. -/
  | resolution (specifier : Specifier) (target : Path)
  deriving DecidableEq, Repr

namespace Error

def message : Error → String
  | io path fault => s!"{String.ofList path.text}: {fault.message}"
  | manifest path cleaned fault =>
    s!"invalid project manifest {String.ofList path.text}: {fault.message cleaned}"
  | options path => s!"invalid options file {String.ofList path.text}"
  | unknownParser name => s!"no parser registered for `{name}`"
  | parseFailed message => s!"parse failed: {message}"
  | resolution specifier target =>
    s!"cannot resolve `{String.ofList specifier}`: " ++
      s!"{String.ofList target.text} has no path inside the project"

end Error

end ImportAlias
