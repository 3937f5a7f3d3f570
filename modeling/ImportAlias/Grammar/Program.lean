import ImportAlias.Grammar.Markup
import ImportAlias.Grammar.Statement

/-! The grammar of modules. -/
namespace ImportAlias.Grammar

def Dialect.rules (d : Dialect) : Rule → Phrase
  | .statement => Phrase.statementRule d
  | .declaration => Phrase.declaration d
  | .block => Phrase.block
  | .expressions => Phrase.expressions
  | .expression annotated => Phrase.expressionRule d annotated
  | .operand annotated => Phrase.operand d annotated
  | .postfixed annotated => Phrase.postfixed d annotated
  | .construction => Phrase.constructed d
  | .arguments => Phrase.arguments
  | .template => Phrase.template
  | .pattern => Phrase.pattern
  | .parameters => Phrase.parameters d
  | .classBody => Phrase.classBody d
  | .markup => Phrase.markup d
  | .type => Phrase.typeRule
  | .typeOperand => Phrase.typeOperand d
  | .objectType => Phrase.objectType d

def program : Phrase :=
  .seq [.choice [.token .comment Scan.interpreterLine, .seq []], .many (.rule .statement),
    Phrase.trivia]

/-- A depth that no tree reaches: a character is read below fewer rules and parts than this. -/
def depthPerCharacter : Nat := 4096

/-- The trees of a module, if the whole text fits the grammar. -/
def parse? (d : Dialect) (t : Text) : Option (List Tree) :=
  match read d.rules (depthPerCharacter * (t.length + 1)) program t with
  | some (trees, []) => some trees
  | _ => none

/-- The trees hold the whole text. -/
theorem textOf_parse? {d : Dialect} {t : Text} {trees : List Tree} (h : parse? d t = some trees) :
    Tree.textOf trees = t := by
  unfold parse? at h
  split at h
  · rename_i found hr
    simp only [Option.some.injEq] at h
    have := read_keeps _ _ _ _ _ _ hr
    simp [← h, this]
  · simp at h

end ImportAlias.Grammar
