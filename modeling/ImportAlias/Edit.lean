import ImportAlias.Specifier

/-! Resolvers, the decision which specifiers get an alias, and the edits that follow from it. -/
namespace ImportAlias

/-- Answers a specifier with its alias, with nothing, or with an error. -/
abbrev Resolver (ε : Type) := Specifier → Except ε (Option Text)

structure Edit where
  line : Nat
  specifier : Specifier
  replacement : Text
  deriving DecidableEq, Repr

namespace Resolver

variable {ε : Type}

/-- The alias that replaces a specifier. Shallow specifiers, failures, and aliases that change
nothing give none. -/
def choose (resolve : Resolver ε) (threshold : Nat) (s : Specifier) : Option Text :=
  if s.exceeds threshold then
    match resolve s with
    | .ok (some a) => if a = s then none else some a
    | _ => none
  else none

end Resolver

end ImportAlias
