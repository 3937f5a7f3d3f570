import ImportAlias.Header.Basic

/-! The items of an import header and how they are written: comments, directives, imports,
`require` declarations and re-exports, with any whitespace that stays on its line. -/
namespace ImportAlias.Header

open Text (isBlank isNameChar)

/-- Whitespace within a line. -/
structure Gap where
  text : Text
  blank : ∀ c ∈ text, isBlank c = true
  oneLine : '\n' ∉ text

/-- Whitespace within a line, one character at least. -/
structure Space extends Gap where
  ne_nil : text ≠ []

/-- Letters, digits, underscores and dollar signs. -/
structure Identifier where
  text : Text
  ne_nil : text ≠ []
  chars : ∀ c ∈ text, isNameChar c = true

structure Braces where
  text : Text
  closed : '\x7d' ∉ text
  oneLine : '\n' ∉ text

/-- A text between quotes, free of quotes of either kind. -/
structure Source where
  single : Bool
  specifier : Specifier
  noDouble : '"' ∉ specifier
  noSingle : '\x27' ∉ specifier
  oneLine : '\n' ∉ specifier

/-- The rest of a line after a statement. -/
structure Ending where
  before : Gap
  semicolon : Bool
  after : Gap

structure DefaultName where
  name : Identifier
  before : Gap
  after : Gap

inductive ImportClause where
  | single (name : Identifier) (after : Space)
  | braces (first : Option DefaultName) (body : Braces) (after : Gap)
  | star (first : Option DefaultName) (afterStar : Gap) (afterAs : Space) (name : Identifier)
    (after : Space)

inductive ExportClause where
  | braces (body : Braces) (after : Gap)
  | star (after : Gap)
  | starAs (afterStar : Gap) (afterAs : Space) (name : Identifier) (after : Space)

inductive Binding where
  | name (n : Identifier)
  | braces (body : Braces)

/-- `= require("…")` to the end of the line. -/
structure Required where
  beforeSign : Gap
  afterSign : Gap
  afterWord : Gap
  beforeSource : Gap
  source : Source
  afterSource : Gap
  ending : Ending

/-- A name of a brace list: `A`, `type B` or `C as D`. -/
structure Entry where
  typed : Option Space
  name : Identifier
  renamed : Option (Space × Space × Identifier)

structure Row where
  indent : Gap
  entry : Entry
  before : Gap
  comma : Bool
  after : Gap

inductive Opener where
  | imports (word : Space) (typed : Option Space) (first : Option DefaultName)
  | exports (word : Space) (typed : Option Space)

inductive Item where
  | blank (gap : Gap)
  | lineComment (indent : Gap) (body : Text) (oneLine : '\n' ∉ body)
  | blockComment (indent : Gap) (body : Text) (oneLine : '\n' ∉ body)
    (unclosed : ¬ ['*', '/'] <:+: body) (after : Gap)
  | directive (indent : Gap) (rest : Source) (ending : Ending)
  | importFrom (indent : Gap) (word : Space) (typed : Option Space) (clause : ImportClause)
    (gap : Gap) (source : Source) (ending : Ending)
  | importOnly (indent gap : Gap) (source : Source) (ending : Ending)
  | importEquals (indent : Gap) (word : Space) (typed : Option Space) (name : Identifier)
    (required : Required)
  | declaration (indent : Gap) (keyword : String) (isKeyword : keyword ∈ ["const", "let", "var"])
    (word : Space) (binding : Binding) (required : Required)
  | exportFrom (indent : Gap) (word : Space) (typed : Option Space) (clause : ExportClause)
    (gap : Gap) (source : Source) (ending : Ending)
  | list (indent : Gap) (opener : Opener) (afterOpener : Gap) (rows : List Row)
    (beforeClose afterClose gap : Gap) (source : Source) (ending : Ending)

def Source.quote (s : Source) : Char := if s.single then '\x27' else '"'

def Ending.text (e : Ending) : Text :=
  e.before.text ++ ((if e.semicolon then [';'] else []) ++ e.after.text)

def typeWord : Option Space → Text
  | none => []
  | some s => "type".toList ++ s.text

def defaultText : Option DefaultName → Text
  | none => []
  | some d => d.name.text ++ (d.before.text ++ ',' :: d.after.text)

def starText (afterStar : Gap) (afterAs : Space) (name : Identifier) : Text :=
  '*' :: (afterStar.text ++ ("as".toList ++ (afterAs.text ++ name.text)))

def Braces.inBraces (b : Braces) : Text := '\x7b' :: (b.text ++ ['\x7d'])

def ImportClause.text : ImportClause → Text
  | single name after => name.text ++ after.text
  | braces first body after => defaultText first ++ (body.inBraces ++ after.text)
  | star first afterStar afterAs name after =>
    defaultText first ++ (starText afterStar afterAs name ++ after.text)

def ExportClause.text : ExportClause → Text
  | braces body after => body.inBraces ++ after.text
  | star after => '*' :: after.text
  | starAs afterStar afterAs name after => starText afterStar afterAs name ++ after.text

def Binding.text : Binding → Text
  | name n => n.text
  | braces body => body.inBraces

def Required.lead (r : Required) : Text :=
  r.beforeSign.text ++ '=' :: (r.afterSign.text ++ ("require".toList ++ (r.afterWord.text ++
    '(' :: r.beforeSource.text)))

def Required.trail (r : Required) : Text := r.afterSource.text ++ ')' :: r.ending.text

def renamedText : Option (Space × Space × Identifier) → Text
  | none => []
  | some (before, after, n) => before.text ++ ("as".toList ++ (after.text ++ n.text))

def Entry.text (e : Entry) : Text :=
  typeWord e.typed ++ (e.name.text ++ renamedText e.renamed)

def Row.text (r : Row) : Text :=
  r.indent.text ++ (r.entry.text ++ (r.before.text ++
    ((if r.comma then [','] else []) ++ r.after.text)))

def Opener.kind : Opener → ListKind
  | imports _ _ _ => .imports
  | exports _ _ => .exports

def Opener.text : Opener → Text
  | imports word typed first =>
    "import".toList ++ (word.text ++ (typeWord typed ++ (defaultText first ++ ['\x7b'])))
  | exports word typed => "export".toList ++ (word.text ++ (typeWord typed ++ ['\x7b']))

theorem Opener.text_imports (word : Space) (typed : Option Space) (first : Option DefaultName) :
    (imports word typed first).text =
      "import".toList ++ (word.text ++ (typeWord typed ++ (defaultText first ++ ['\x7b']))) := rfl

theorem Opener.text_exports (word : Space) (typed : Option Space) :
    (exports word typed).text = "export".toList ++ (word.text ++ (typeWord typed ++ ['\x7b'])) :=
  rfl

def Source.line (lead : Text) (s : Source) (trail : Text) : Text :=
  lead ++ s.quote :: (s.specifier ++ s.quote :: trail)

def Source.slot (lead : Text) (s : Source) (trail : Text) : HeaderLine :=
  .slot (lead ++ [s.quote]) s.specifier (s.quote :: trail)

def closing (kind : ListKind) (lead : Text) (s : Source) (trail : Text) : HeaderLine :=
  match kind with
  | .imports => s.slot lead trail
  | .exports => .plain (s.line lead trail)

/-- The lines of an item. Imports and `require` have slots, re-exports do not. -/
def Item.lines : Item → List HeaderLine
  | blank gap => [.plain gap.text]
  | lineComment indent body _ => [.plain (indent.text ++ "//".toList ++ body)]
  | blockComment indent body _ _ after =>
    [.plain (indent.text ++ ("/*".toList ++ (body ++ ("*/".toList ++ after.text))))]
  | directive indent rest ending =>
    [.plain (indent.text ++ rest.quote ::
      ("use ".toList ++ (rest.specifier ++ rest.quote :: ending.text)))]
  | importFrom indent word typed clause gap source ending =>
    [source.slot (indent.text ++ ("import".toList ++ (word.text ++ (typeWord typed ++
      (clause.text ++ ("from".toList ++ gap.text)))))) ending.text]
  | importOnly indent gap source ending =>
    [source.slot (indent.text ++ ("import".toList ++ gap.text)) ending.text]
  | importEquals indent word typed name required =>
    [required.source.slot (indent.text ++ ("import".toList ++ (word.text ++ (typeWord typed ++
      (name.text ++ required.lead))))) required.trail]
  | declaration indent keyword _ word binding required =>
    [required.source.slot (indent.text ++ (keyword.toList ++ (word.text ++ (binding.text ++
      required.lead)))) required.trail]
  | exportFrom indent word typed clause gap source ending =>
    [.plain (source.line (indent.text ++ ("export".toList ++ (word.text ++ (typeWord typed ++
      (clause.text ++ ("from".toList ++ gap.text)))))) ending.text)]
  | list indent opener afterOpener rows beforeClose afterClose gap source ending =>
    .plain (indent.text ++ (opener.text ++ afterOpener.text)) ::
      rows.map (fun r => .plain r.text) ++
      [closing opener.kind (beforeClose.text ++ '\x7d' :: (afterClose.text ++
        ("from".toList ++ gap.text))) source ending.text]

/-- The text of a list of items, with aliases for the specifiers of its slots. -/
def renderWith (choose : Specifier → Option Text) (items : List Item) : Text :=
  Text.joinWith '\n' ((items.flatMap Item.lines).map fun l => (l.aliased choose).text)

def render (items : List Item) : Text := renderWith (fun _ => none) items

end ImportAlias.Header
