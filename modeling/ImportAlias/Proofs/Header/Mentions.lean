import ImportAlias.Proofs.Header.Statements
import ImportAlias.Proofs.Module.Mentions

/-! The mentions that a tree of import statements should show, by the text of the statements. -/
namespace ImportAlias

/-- A literal of a source text, given where it starts. -/
def Literal.quotedAt (start : Nat) (quote : Quote) (body : Text) : Literal :=
  .ofSource body quote ⟨start, start + Text.byteSize (quote.char :: (body ++ [quote.char]))⟩

namespace Header

def Source.mark (s : Source) : Quote := if s.single then .single else .double

theorem Source.quote_eq (s : Source) : s.quote = s.mark.char := by
  unfold Source.quote Source.mark
  cases s.single <;> rfl

/-- The literal of a source, given what stands before it. -/
def slotLiteral (p : Text × PlainSource) : Literal :=
  .quotedAt (Text.byteSize p.1) p.2.mark p.2.specifier

/-- What a statement is, given its literal. -/
def Form.mention (l : Literal) : Form → Mention
  | importFrom .. | importOnly .. | importEquals .. => .imported l
  | declaration .. => .required l
  | exportFrom .. => .exported

def Piece.mentions (before : Text) : Piece → List Mention
  | blank _ => []
  | statement s => [s.form.mention (slotLiteral (before ++ s.lead, s.source))]

/-- The mentions of pieces one below the other, the first of them behind a text. -/
def mentionsFrom (before : Text) : List Piece → List Mention
  | [] => []
  | p :: pieces => p.mentions before ++ mentionsFrom (before ++ (p.text ++ ['\n'])) pieces

def moduleMentions (pieces : List Piece) : List Mention := mentionsFrom [] pieces

/-- The literals of the mentions are those of the sources that an alias may replace. -/
theorem Piece.filterMap_mentions (before : Text) (p : Piece) :
    (p.mentions before).filterMap Mention.literal? =
      (slotsFrom before p.parts).map slotLiteral := by
  cases p with
  | blank gap => rfl
  | statement s =>
    obtain ⟨indent, form, source, before, after⟩ := s
    cases form <;> rfl

theorem filterMap_mentionsFrom (before : Text) (pieces : List Piece) :
    (mentionsFrom (before ++ ['\n']) pieces).filterMap Mention.literal? =
      (slotsFrom before (partsBelow pieces)).map slotLiteral := by
  induction pieces generalizing before with
  | nil => rfl
  | cons p pieces ih =>
    have hrest := ih (before ++ ['\n'] ++ p.text)
    rw [List.append_assoc (before ++ ['\n'])] at hrest
    rw [mentionsFrom, List.filterMap_append, hrest, p.filterMap_mentions, partsBelow_cons,
      slotsFrom, slotsFrom_append, p.written_parts, List.map_append]

theorem filterMap_moduleMentions (pieces : List Piece) :
    (moduleMentions pieces).filterMap Mention.literal? =
      (slotsFrom [] (moduleParts pieces)).map slotLiteral := by
  cases pieces with
  | nil => rfl
  | cons p pieces =>
    rw [moduleMentions, mentionsFrom, List.filterMap_append, List.nil_append,
      filterMap_mentionsFrom, p.filterMap_mentions, moduleParts, slotsFrom_append, p.written_parts,
      List.map_append, List.nil_append]

end Header

end ImportAlias
