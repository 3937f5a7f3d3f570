import ImportAlias.Grammar.Token
import ImportAlias.Proofs.Header.Items
import ImportAlias.Proofs.Text

/-! Import statements as a grammar has them: names instead of any identifiers, and brace lists whose
members stand between commas, over one line or several. Each statement ends with a semicolon and
starts on a line of its own. -/
namespace ImportAlias.Header

open Text (isBlank)
open Grammar (nextLine)

/-- Whitespace within a line that grammars take for whitespace too. -/
structure Padding extends Gap where
  noNextLine : nextLine ∉ text

structure Separator extends Padding where
  ne_nil : text ≠ []

def Separator.toSpace (s : Separator) : Space := ⟨s.toGap, s.ne_nil⟩

@[simp] theorem Separator.text_toSpace (s : Separator) : s.toSpace.text = s.text := rfl

instance : Coe Padding Gap := ⟨Padding.toGap⟩

instance : Coe Separator Space := ⟨Separator.toSpace⟩

/-- Whitespace over any number of lines. -/
structure Wide where
  text : Text
  blank : ∀ c ∈ text, isBlank c = true
  noNextLine : nextLine ∉ text

structure WideSpace extends Wide where
  ne_nil : text ≠ []

/-- The reserved words and the contextual keywords of the language. -/
def languageWords : List String :=
  ["break", "case", "catch", "class", "const", "continue", "debugger", "default", "delete", "do",
    "else", "enum", "export", "extends", "false", "finally", "for", "function", "if", "import",
    "in", "instanceof", "new", "null", "return", "super", "switch", "this", "throw", "true", "try",
    "typeof", "var", "void", "while", "with", "implements", "interface", "let", "package",
    "private", "protected", "public", "static", "yield", "abstract", "accessor", "as", "assert",
    "asserts", "async", "await", "declare", "from", "get", "global", "infer", "is", "keyof",
    "module", "namespace", "of", "out", "override", "readonly", "satisfies", "set", "type",
    "unique", "using"]

/-- An identifier that is not a word of the language. -/
structure Name extends Identifier where
  start : text.head?.all (fun c => !c.isDigit) = true
  free : String.ofList text ∉ languageWords

/-- A source that no escape stands in. -/
structure PlainSource extends Source where
  noBackslash : '\\' ∉ specifier
  noReturn : '\r' ∉ specifier

/-- Items between commas, with whitespace around them. A comma follows its item on the same line;
the last item may be without one. -/
structure CommaList (α : Type) where
  lead : Wide
  listed : List (α × Padding × Wide)
  last : Option (α × Wide)

structure Member where
  typed : Option WideSpace
  name : Name
  renamed : Option (WideSpace × WideSpace × Name)

structure Default where
  name : Name
  before : Padding
  after : Padding

/-- Named imports, or a namespace. -/
inductive Group where
  | braces (members : CommaList Member) (after : Padding)
  | star (afterStar : Padding) (afterAs : Separator) (name : Name) (after : Separator)

inductive Imported where
  | single (name : Name) (after : Separator)
  | group (first : Option Default) (rest : Group)

inductive Exported where
  | braces (typed : Option Separator) (members : CommaList Member) (after : Padding)
  | star (after : Padding)
  | starAs (afterStar : Padding) (afterAs : Separator) (name : Name) (after : Separator)

def listedText {α : Type} (f : α → Text) : List (α × Padding × Wide) → Text
  | [] => []
  | (a, before, after) :: rest => f a ++ (before.text ++ ',' :: (after.text ++ listedText f rest))

def lastText {α : Type} (f : α → Text) : Option (α × Wide) → Text
  | none => []
  | some (a, after) => f a ++ after.text

def CommaList.text {α : Type} (f : α → Text) (l : CommaList α) : Text :=
  l.lead.text ++ (listedText f l.listed ++ lastText f l.last)

inductive Bound where
  | name (n : Name)
  | pattern (names : CommaList Name) (oneLine : '\n' ∉ names.text fun n => n.text)

/-- The whitespace in `= require("…")`. -/
structure Call where
  beforeSign : Padding
  afterSign : Padding
  afterWord : Padding
  beforeSource : Padding
  afterSource : Padding

/-- A statement up to its source, and what closes it again. -/
inductive Form where
  | importFrom (word : Separator) (typed : Option Separator) (clause : Imported) (gap : Padding)
  | importOnly (gap : Padding)
  | importEquals (word : Separator) (typed : Option Separator) (name : Name) (call : Call)
  | declaration (keyword : String) (isKeyword : keyword ∈ ["const", "let", "var"])
    (word : Separator) (bound : Bound) (call : Call)
  | exportFrom (word : Separator) (clause : Exported) (gap : Padding)

/-- A statement with its source, its semicolon and the whitespace around it. -/
structure Statement where
  indent : Padding
  form : Form
  source : PlainSource
  before : Padding
  after : Padding

/-- A blank line, or a statement. -/
inductive Piece where
  | blank (gap : Padding)
  | statement (s : Statement)

/-! The texts -/

def typeMark : Option WideSpace → Text
  | none => []
  | some s => "type".toList ++ s.text

def asText : Option (WideSpace × WideSpace × Name) → Text
  | none => []
  | some (before, after, n) => before.text ++ ("as".toList ++ (after.text ++ n.text))

def Member.text (m : Member) : Text := typeMark m.typed ++ (m.name.text ++ asText m.renamed)

def Default.toDefaultName (d : Default) : DefaultName := ⟨d.name.toIdentifier, d.before, d.after⟩

def firstText (first : Option Default) : Text := defaultText (first.map Default.toDefaultName)

def typedText (typed : Option Separator) : Text := typeWord (typed.map Separator.toSpace)

def braced (members : CommaList Member) (rest : Text) : Text :=
  '\x7b' :: (members.text Member.text ++ '\x7d' :: rest)

def Group.text : Group → Text
  | braces members after => braced members after.text
  | star afterStar afterAs name after => starText afterStar afterAs name.toIdentifier ++ after.text

def Imported.text : Imported → Text
  | single name after => name.text ++ after.text
  | group first rest => firstText first ++ rest.text

def Exported.text : Exported → Text
  | braces typed members after => typedText typed ++ braced members after.text
  | star after => '*' :: after.text
  | starAs afterStar afterAs name after =>
    starText afterStar afterAs name.toIdentifier ++ after.text

def Bound.text : Bound → Text
  | name n => n.text
  | pattern names _ => '\x7b' :: (names.text (fun n => n.text) ++ ['\x7d'])

def Call.lead (c : Call) : Text :=
  c.beforeSign.text ++ '=' :: (c.afterSign.text ++ ("require".toList ++ (c.afterWord.text ++
    '(' :: c.beforeSource.text)))

def Form.lead : Form → Text
  | importFrom word typed clause gap =>
    "import".toList ++
      (word.text ++ (typedText typed ++ (clause.text ++ ("from".toList ++ gap.text))))
  | importOnly gap => "import".toList ++ gap.text
  | importEquals word typed name call =>
    "import".toList ++ (word.text ++ (typedText typed ++ (name.text ++ call.lead)))
  | declaration keyword _ word bound call =>
    keyword.toList ++ (word.text ++ (bound.text ++ call.lead))
  | exportFrom word clause gap =>
    "export".toList ++ (word.text ++ (clause.text ++ ("from".toList ++ gap.text)))

section

variable (word : Separator) (typed : Option Separator) (gap : Padding) (call : Call)

theorem Form.lead_importFrom (clause : Imported) : (importFrom word typed clause gap).lead =
    "import".toList ++
      (word.text ++ (typedText typed ++ (clause.text ++ ("from".toList ++ gap.text)))) :=
  rfl

theorem Form.lead_importOnly : (importOnly gap).lead = "import".toList ++ gap.text := rfl

theorem Form.lead_importEquals (name : Name) : (importEquals word typed name call).lead =
    "import".toList ++ (word.text ++ (typedText typed ++ (name.text ++ call.lead))) := rfl

theorem Form.lead_declaration {keyword : String} (h : keyword ∈ ["const", "let", "var"])
    (bound : Bound) : (declaration keyword h word bound call).lead =
      keyword.toList ++ (word.text ++ (bound.text ++ call.lead)) := rfl

theorem Form.lead_exportFrom (clause : Exported) : (exportFrom word clause gap).lead =
    "export".toList ++ (word.text ++ (clause.text ++ ("from".toList ++ gap.text))) := rfl

end

def Form.trail : Form → Text
  | importEquals _ _ _ call => call.afterSource.text ++ [')']
  | declaration _ _ _ _ call => call.afterSource.text ++ [')']
  | _ => []

/-- May an alias replace the source? Not that of a re-export. -/
def Form.kind : Form → ListKind
  | exportFrom _ _ _ => .exports
  | _ => .imports

namespace Statement

variable (s : Statement)

def lead : Text := s.indent.text ++ s.form.lead

def trail : Text := s.form.trail ++ (s.before.text ++ ';' :: s.after.text)

def text : Text := s.source.line s.lead s.trail

end Statement

def Piece.text : Piece → Text
  | blank gap => gap.text
  | statement s => s.text

/-- The text of a module: its pieces, one below the other. -/
def moduleText (pieces : List Piece) : Text := Text.joinWith '\n' (pieces.map Piece.text)

/-! The places of the sources -/

/-- A part of a text: characters, or a source that an alias may replace. -/
inductive Part where
  | plain (t : Text)
  | slot (s : PlainSource)

def PlainSource.holding (s : PlainSource) (t : Text) : Text := s.quote :: (t ++ [s.quote])

def Part.written (value : Specifier → Text) : Part → Text
  | plain t => t
  | slot s => s.holding (value s.specifier)

/-- The text of parts, given what stands for each specifier. -/
def written (value : Specifier → Text) (parts : List Part) : Text :=
  parts.flatMap (Part.written value)

/-- The sources among parts, with all that stands before them. -/
def slotsFrom (before : Text) : List Part → List (Text × PlainSource)
  | [] => []
  | .plain t :: parts => slotsFrom (before ++ t) parts
  | .slot s :: parts => (before, s) :: slotsFrom (before ++ s.holding s.specifier) parts

def Statement.parts (s : Statement) : List Part :=
  match s.form.kind with
  | .imports => [.plain s.lead, .slot s.source, .plain s.trail]
  | .exports => [.plain s.text]

def Piece.parts : Piece → List Part
  | blank gap => [.plain gap.text]
  | statement s => s.parts

def partsBelow (pieces : List Piece) : List Part :=
  pieces.flatMap fun p => .plain ['\n'] :: p.parts

theorem partsBelow_cons (p : Piece) (pieces : List Piece) :
    partsBelow (p :: pieces) = .plain ['\n'] :: (p.parts ++ partsBelow pieces) := rfl

def moduleParts : List Piece → List Part
  | [] => []
  | p :: pieces => p.parts ++ partsBelow pieces

variable (value : Specifier → Text)

@[simp] theorem written_nil : written value [] = [] := rfl

@[simp] theorem written_plain (t : Text) (parts : List Part) :
    written value (.plain t :: parts) = t ++ written value parts := rfl

@[simp] theorem written_slot (s : PlainSource) (parts : List Part) :
    written value (.slot s :: parts) = s.holding (value s.specifier) ++ written value parts := rfl

@[simp] theorem written_append (a b : List Part) :
    written value (a ++ b) = written value a ++ written value b := List.flatMap_append

theorem slotsFrom_append (before : Text) (x y : List Part) :
    slotsFrom before (x ++ y) = slotsFrom before x ++ slotsFrom (before ++ written id x) y := by
  induction x generalizing before with
  | nil => simp [slotsFrom]
  | cons p x ih => cases p <;> simp [slotsFrom, ih]

theorem Piece.written_parts (p : Piece) : written id p.parts = p.text := by
  cases p with
  | blank gap => simp [parts, text]
  | statement s =>
    simp only [parts, text, Statement.parts]
    split
    · simp [PlainSource.holding, Statement.text, Source.line]
    · simp

theorem written_partsBelow (pieces : List Piece) :
    written id (partsBelow pieces) = Text.following '\n' (pieces.map Piece.text) := by
  induction pieces with
  | nil => rfl
  | cons p pieces ih =>
    rw [partsBelow_cons, written_plain, written_append, ih, p.written_parts, List.map_cons,
      Text.following, Text.joinWith_cons]
    rfl

theorem written_moduleParts (pieces : List Piece) :
    written id (moduleParts pieces) = moduleText pieces := by
  cases pieces with
  | nil => rfl
  | cons p pieces =>
    rw [moduleParts, written_append, p.written_parts, written_partsBelow, moduleText, List.map_cons,
      Text.joinWith_cons]

end ImportAlias.Header
