import ImportAlias.Module.Basic

/-! Printing a module: its source with the changed literals put in. -/
namespace ImportAlias

namespace Text

/-- The text after its first `n` bytes, if a character ends there. -/
def dropBytes? : Nat → Text → Option Text
  | 0, t => some t
  | _ + 1, [] => none
  | n + 1, c :: t => if c.utf8Size ≤ n + 1 then dropBytes? (n + 1 - c.utf8Size) t else none

/-- The first `n` bytes of a text, if a character ends there. -/
def takeBytes? : Nat → Text → Option Text
  | 0, _ => some []
  | _ + 1, [] => none
  | n + 1, c :: t =>
    if c.utf8Size ≤ n + 1 then (takeBytes? (n + 1 - c.utf8Size) t).map (c :: ·) else none

/-- The bytes from `i` to `j`, if they are in order and both fall between characters. -/
def slice? (t : Text) (i j : Nat) : Option Text :=
  if i ≤ j then (dropBytes? i t).bind (takeBytes? (j - i)) else none

end Text

/-- Puts replacements into a text from a byte offset on. One that starts too early or ends beyond
the text is passed over. Nothing comes out if an offset falls inside a character. -/
def splice (source : Text) : Nat → List (Span × Text) → Option Text
  | cursor, [] => Text.dropBytes? cursor source
  | cursor, (span, t) :: rest =>
    if span.start < cursor ∨ Text.byteSize source < span.stop then splice source cursor rest
    else do
      let kept ← Text.slice? source cursor span.start
      let tail ← splice source span.stop rest
      return kept ++ t ++ tail

namespace Module

def replacements (m : Module) : List (Span × Text) :=
  ((m.root.literals.filter Literal.isModified).map fun l => (l.span, l.source)).mergeSort
    fun a b => a.1.start ≤ b.1.start

def render? (m : Module) : Option Text := splice m.source 0 m.replacements

end Module

end ImportAlias
