import ImportAlias.Text.Basic

/-! Module specifiers: their kinds and how far a relative one climbs. -/
namespace ImportAlias

/-- A module specifier as it stands between the quotes of an import. -/
abbrev Specifier := Text

namespace Specifier

inductive Kind where
  | relative
  | aliased
  | bare
  deriving DecidableEq, Repr

/-- A leading dot makes a specifier relative; a non-empty alias prefix marks the aliased ones. -/
def kind (aliasPrefix : Text) (s : Specifier) : Kind :=
  if s.head? = some '.' then .relative
  else if aliasPrefix ≠ [] && Text.startsWith aliasPrefix s then .aliased
  else .bare

/-- The parent segments before the first segment that names something. -/
def climbOf : List Text → Nat
  | [] => 0
  | seg :: rest =>
    if seg = ['.', '.'] then climbOf rest + 1
    else if seg = ['.'] then climbOf rest
    else 0

/-- How many directories a relative specifier climbs before it descends. -/
def climbDepth (s : Specifier) : Nat :=
  if s.head? = some '.' then climbOf (Text.splitOn '/' s) else 0

/-- Only a specifier that climbs above the threshold is a candidate for an alias. -/
def exceeds (threshold : Nat) (s : Specifier) : Bool := threshold < climbDepth s

end Specifier

end ImportAlias
