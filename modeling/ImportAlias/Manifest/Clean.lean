import ImportAlias.Text.Basic

/-! Comments and trailing commas in a manifest. Both are dropped outside strings; line breaks stay,
so that a fault in the cleaned text has the right line. -/
namespace ImportAlias.Manifest

/-- Where the comment reader stands. In a block comment it remembers whether a star came last. -/
inductive CommentState where
  | code
  | string
  | line
  | block (star : Bool)
  deriving DecidableEq, Repr

def dropComments : CommentState → Text → Text
  | _, [] => []
  | .code, '/' :: '/' :: t => dropComments .line t
  | .code, '/' :: '*' :: t => dropComments (.block false) t
  | .code, c :: t => c :: dropComments (if c = '"' then .string else .code) t
  | .string, '\\' :: c :: t => '\\' :: c :: dropComments .string t
  | .string, c :: t => c :: dropComments (if c = '"' then .code else .string) t
  | .line, c :: t => if c = '\n' then c :: dropComments .code t else dropComments .line t
  | .block star, c :: t =>
    if star ∧ c = '/' then dropComments .code t
    else if c = '\n' then c :: dropComments (.block false) t
    else dropComments (.block (c == '*')) t

theorem dropComments_nil (s : CommentState) : dropComments s [] = [] := by rw [dropComments]

/-- Is the next character that is not whitespace a closing bracket or brace? -/
def closesNext (t : Text) : Bool :=
  match t.dropWhile Text.isBlank with
  | c :: _ => c == ']' || c == '\x7d'
  | [] => false

def dropCommas : (inString : Bool) → Text → Text
  | _, [] => []
  | true, '\\' :: c :: t => '\\' :: c :: dropCommas true t
  | true, c :: t => c :: dropCommas (c != '"') t
  | false, c :: t =>
    if c = ',' ∧ closesNext t then dropCommas false t else c :: dropCommas (c == '"') t

/-- The strict document inside a manifest text. -/
def clean (t : Text) : Text := dropCommas false (dropComments .code t)

end ImportAlias.Manifest
