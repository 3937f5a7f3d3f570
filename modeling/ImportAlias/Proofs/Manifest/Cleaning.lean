import ImportAlias.Manifest.Clean
import ImportAlias.Proofs.Selection

/-! What cleaning a manifest leaves of it. Comments go but for their line breaks, and so do the
commas before closing brackets and braces; everything else stays, on the line that it stood on. This
is so for every text, also where a string or a comment has no end. -/
namespace ImportAlias.Manifest

/-- Where the reader of a manifest stands. A slash in code may open a comment, and a star in a block
comment may close it. -/
inductive Place where
  | code
  | slash
  | string
  | escape
  | line
  | block
  | star
  deriving DecidableEq, Repr

namespace Place

def opened (c : Char) : Place := if c = '/' then slash else if c = '"' then string else code

def step : Place → Char → Place
  | code, c => opened c
  | slash, c => if c = '/' then line else if c = '*' then block else opened c
  | string, c => if c = '"' then code else if c = '\\' then escape else string
  | escape, _ => string
  | line, c => if c = '\n' then code else line
  | block, c => if c = '*' then star else block
  | star, c => if c = '/' then code else if c = '*' then star else block

def run (p : Place) (t : Text) : Place := t.foldl step p

def isComment : Place → Bool
  | line | block | star => true
  | _ => false

def isString : Place → Bool
  | string | escape => true
  | _ => false

/-- Does the first character belong to a comment? The first of the two that open one does. -/
def headInComment (p : Place) : Text → Bool
  | [] => false
  | c :: t => p.isComment || (p.step c).isComment ||
    (p.step c == slash && t.head?.any fun d => (slash.step d).isComment)

def headInString (p : Place) : Text → Bool
  | [] => false
  | c :: _ => p.isString || (p.step c).isString

/-- Does the character at a position belong to a comment, if the text is read from `p` on? -/
def inComment (p : Place) (t : Text) (i : Nat) : Bool := (p.run (t.take i)).headInComment (t.drop i)

def inString (p : Place) (t : Text) (i : Nat) : Bool := (p.run (t.take i)).headInString (t.drop i)

/-- The positions outside comments, and all line breaks. -/
def uncommented (p : Place) (t : Text) (i : Nat) : Bool := t[i]? == some '\n' || !p.inComment t i

/-- The commas outside strings with nothing but blanks and comments between them and a closing
bracket or brace. -/
def trailing (p : Place) (t : Text) (i : Nat) : Bool :=
  t[i]? == some ',' && !p.inString t i && closesNext (dropComments .code (t.drop (i + 1)))

/-- The positions that cleaning leaves. -/
def cleaned (p : Place) (t : Text) (i : Nat) : Bool := p.uncommented t i && !p.trailing t i

end Place

/-- Where the reader of comments stands, told in places. -/
def CommentState.place : CommentState → Place
  | code => .code
  | string => .string
  | line => .line
  | block star => if star then .star else .block

namespace Place

variable {p q : Place} {c : Char} {t : Text}

/-! The first character -/

theorem headInComment_of_isComment (h : p.isComment = true) (c : Char) (t : Text) :
    p.headInComment (c :: t) = true := by
  simp [headInComment, h]

theorem headInComment_of_isString (h : p.isString = true) (t : Text) :
    p.headInComment t = false := by
  cases t with
  | nil => rfl
  | cons c t =>
    cases p with
    | string =>
      by_cases hq : c = '"'
      · simp [headInComment, isComment, step, hq]
      · by_cases hb : c = '\\' <;> simp [headInComment, isComment, step, hq, hb]
    | escape => simp [headInComment, isComment, step]
    | _ => simp [isString] at h

theorem uncommented_of_bare (h : p.headInComment (c :: t) = false) :
    p.uncommented (c :: t) 0 = true := by
  simp [uncommented, inComment, run, h]

theorem uncommented_of_comment (hn : c ≠ '\n') (h : p.headInComment (c :: t) = true) :
    p.uncommented (c :: t) 0 = false := by
  simp [uncommented, inComment, run, h, hn]

theorem cleaned_of_comment (hn : c ≠ '\n') (h : p.headInComment (c :: t) = true) :
    p.cleaned (c :: t) 0 = false := by
  rw [cleaned, uncommented_of_comment hn h, Bool.false_and]

/-- Outside comments only a comma can go. -/
theorem cleaned_of_bare (h : p.headInComment (c :: t) = false)
    (hc : c = ',' → p.headInString (c :: t) = true ∨ closesNext (dropComments .code t) = false) :
    p.cleaned (c :: t) 0 = true := by
  have htrailing : p.trailing (c :: t) 0 = false := by
    by_cases hcomma : c = ','
    · rcases hc hcomma with hs | hs <;> simp [trailing, inString, run, hs]
    · simp [trailing, hcomma]
  rw [cleaned, uncommented_of_bare h, htrailing]
  rfl

theorem cleaned_of_isString (h : p.isString = true) : p.cleaned (c :: t) 0 = true :=
  cleaned_of_bare (headInComment_of_isString h _) fun _ => .inl (by simp [headInString, h])

/-! Slashes that open no comment -/

/-- The next character, if there is one, makes no comment of a slash before it. -/
def Harmless (t : Text) : Prop := ∀ d ∈ t.head?, d ≠ '/' ∧ d ≠ '*'

/-- A text has the same comments and strings, read from either place on. -/
structure Alike (p q : Place) (t : Text) : Prop where
  comment : p.inComment t = q.inComment t
  string : p.inString t = q.inString t

theorem Alike.of_eq (h : p = q) (t : Text) : Alike p q t := by
  rw [h]
  exact ⟨rfl, rfl⟩

theorem Alike.uncommented (h : Alike p q t) : p.uncommented t = q.uncommented t := by
  funext i
  rw [Place.uncommented, Place.uncommented, h.comment]

theorem Alike.cleaned (h : Alike p q t) : p.cleaned t = q.cleaned t := by
  funext i
  rw [Place.cleaned, Place.cleaned, trailing, trailing, h.uncommented, h.string]

theorem alike_nil (p q : Place) : Alike p q [] := by
  constructor <;> funext i <;> simp [inComment, headInComment, inString, headInString]

/-- A slash that opens no comment is code like any other. -/
theorem alike_slash (h : Harmless t) : Alike slash code t := by
  cases t with
  | nil => exact alike_nil _ _
  | cons d t =>
    have hstep : slash.step d = code.step d := by simp [step, h d rfl]
    constructor
    · funext i
      cases i with
      | zero => simp [inComment, run, headInComment, isComment, hstep]
      | succ i => simp [inComment, run, hstep]
    · funext i
      cases i with
      | zero => simp [inString, run, headInString, isString, hstep]
      | succ i => simp [inString, run, hstep]

theorem headInComment_code (h : c = '/' → Harmless t) : code.headInComment (c :: t) = false := by
  by_cases hs : c = '/'
  · subst hs
    cases t with
    | nil => rfl
    | cons d t =>
      have hd := h rfl d rfl
      by_cases hq : d = '"' <;>
        simp [headInComment, isComment, step, opened, hd, hq]
  · by_cases hq : c = '"' <;> simp [headInComment, isComment, step, opened, hs, hq]

end Place

open Place (Harmless Alike)

variable {c : Char} {t : Text}

/-! The reader of comments -/

theorem dropComments_code_cons (h : c = '/' → Harmless t) : dropComments .code (c :: t) =
    c :: dropComments (if c = '"' then .string else .code) t := by
  rw [dropComments.eq_def]
  split <;> simp_all [Harmless]

theorem dropComments_string_cons (h : c = '\\' → t = []) : dropComments .string (c :: t) =
    c :: dropComments (if c = '"' then .code else .string) t := by
  rw [dropComments.eq_def]
  split <;> simp_all

theorem dropComments_line_cons (hn : c ≠ '\n') :
    dropComments .line (c :: t) = dropComments .line t := by
  simp [dropComments, hn]

theorem dropComments_block_cons {star : Bool} (h : ¬ (star = true ∧ c = '/')) (hn : c ≠ '\n') :
    dropComments (.block star) (c :: t) = dropComments (.block (c == '*')) t := by
  simp [dropComments, h, hn]

theorem dropComments_block_end (t : Text) :
    dropComments (.block true) ('/' :: t) = dropComments .code t := by
  simp [dropComments]

theorem harmless_of_ne (hl : ∀ u, t ≠ '/' :: u) (hb : ∀ u, t ≠ '*' :: u) : Harmless t := by
  intro d hd
  obtain ⟨u, rfl⟩ := List.head?_eq_some_iff.mp hd
  constructor
  · rintro rfl
    exact hl u rfl
  · rintro rfl
    exact hb u rfl

/-- Induction over what the reader of comments does, one case for each kind of character that it
meets in each of its states. -/
theorem dropComments_induction {motive : CommentState → Text → Prop}
    (nil : ∀ s, motive s [])
    (lineOpen : ∀ t, motive .line t → motive .code ('/' :: '/' :: t))
    (blockOpen : ∀ t, motive (.block false) t → motive .code ('/' :: '*' :: t))
    (code : ∀ c t, (c = '/' → Harmless t) → motive (if c = '"' then .string else .code) t →
      motive .code (c :: t))
    (escape : ∀ c t, motive .string t → motive .string ('\\' :: c :: t))
    (string : ∀ c t, (c = '\\' → t = []) → motive (if c = '"' then .code else .string) t →
      motive .string (c :: t))
    (lineEnd : ∀ t, motive .code t → motive .line ('\n' :: t))
    (line : ∀ c t, c ≠ '\n' → motive .line t → motive .line (c :: t))
    (blockEnd : ∀ t, motive .code t → motive (.block true) ('/' :: t))
    (blockBreak : ∀ star t, motive (.block false) t → motive (.block star) ('\n' :: t))
    (block : ∀ star c t, ¬ (star = true ∧ c = '/') → c ≠ '\n' → motive (.block (c == '*')) t →
      motive (.block star) (c :: t))
    (s : CommentState) (t : Text) : motive s t := by
  fun_induction dropComments s t with
  | case1 s => exact nil s
  | case2 t ih => exact lineOpen t ih
  | case3 t ih => exact blockOpen t ih
  | case4 c t hl hb ih =>
    exact code c t (fun hc => harmless_of_ne (fun u => hl u hc) fun u => hb u hc) ih
  | case5 c t ih => exact escape c t ih
  | case6 c t h ih =>
    refine string c t (fun hc => ?_) ih
    cases t with
    | nil => rfl
    | cons d u => exact (h d u hc rfl).elim
  | case7 t ih => exact lineEnd t ih
  | case8 c t hn ih => exact line c t hn ih
  | case9 star c t h ih =>
    obtain ⟨rfl, rfl⟩ := h
    exact blockEnd t ih
  | case10 star t _ ih => exact blockBreak star t ih
  | case11 star c t h hn ih => exact block star c t h hn ih

/-! The state of the reader is the place after what it has read -/

theorem alike_code (h : c = '/' → Harmless t) :
    Alike (Place.code.step c) (if c = '"' then .string else .code : CommentState).place t := by
  by_cases hs : c = '/'
  · subst hs
    exact Place.alike_slash (h rfl)
  · refine .of_eq ?_ t
    by_cases hq : c = '"' <;> simp [Place.step, Place.opened, CommentState.place, hs, hq]

theorem alike_string (h : c = '\\' → t = []) :
    Alike (Place.string.step c) (if c = '"' then .code else .string : CommentState).place t := by
  by_cases hb : c = '\\'
  · rw [h hb]
    exact Place.alike_nil _ _
  · refine .of_eq ?_ t
    by_cases hq : c = '"' <;> simp [Place.step, CommentState.place, hb, hq]

theorem alike_line (hn : c ≠ '\n') (t : Text) :
    Alike (Place.line.step c) CommentState.line.place t :=
  .of_eq (by simp [Place.step, CommentState.place, hn]) t

theorem alike_block {star : Bool} (h : ¬ (star = true ∧ c = '/')) (t : Text) :
    Alike ((CommentState.block star).place.step c) (CommentState.block (c == '*')).place t := by
  refine .of_eq ?_ t
  cases star <;> by_cases hc : c = '*' <;> simp_all [CommentState.place, Place.step]

theorem isComment_block (star : Bool) : (CommentState.block star).place.isComment = true := by
  cases star <;> rfl

/-- Comments are dropped, their line breaks apart, and nothing else is. -/
theorem dropComments_eq_select (s : CommentState) (t : Text) :
    dropComments s t = t.select (s.place.uncommented t) := by
  induction s, t using dropComments_induction with
  | nil s => rw [dropComments_nil, Text.select]
  | lineOpen t ih => exact ih
  | blockOpen t ih => exact ih
  | code c t hc ih =>
    have hkeep := Place.uncommented_of_bare (Place.headInComment_code hc)
    rw [dropComments_code_cons hc, ih, ← (alike_code hc).uncommented]
    exact (Text.select_kept hkeep).symm
  | escape c t ih =>
    have hkeep : Place.string.uncommented ('\\' :: c :: t) 0 = true :=
      Place.uncommented_of_bare (Place.headInComment_of_isString rfl _)
    have hescaped : Text.select (Place.escape.uncommented (c :: t)) (c :: t) =
        c :: Text.select (Place.string.uncommented t) t :=
      Text.select_kept (Place.uncommented_of_bare (Place.headInComment_of_isString rfl _))
    refine Eq.trans ?_ (Text.select_kept hkeep).symm
    exact congrArg ('\\' :: ·) ((congrArg (c :: ·) ih).trans hescaped.symm)
  | string c t hc ih =>
    have hkeep : Place.string.uncommented (c :: t) 0 = true :=
      Place.uncommented_of_bare (Place.headInComment_of_isString rfl _)
    rw [dropComments_string_cons hc, ih, ← (alike_string hc).uncommented]
    exact (Text.select_kept hkeep).symm
  | lineEnd t ih => exact congrArg ('\n' :: ·) ih
  | line c t hn ih =>
    have hdrop : Place.line.uncommented (c :: t) 0 = false :=
      Place.uncommented_of_comment hn (Place.headInComment_of_isComment rfl c t)
    rw [dropComments_line_cons hn, ih, ← (alike_line hn t).uncommented]
    exact (Text.select_dropped hdrop).symm
  | blockEnd t ih => exact (dropComments_block_end t).trans ih
  | blockBreak star t ih => cases star <;> exact congrArg ('\n' :: ·) ih
  | block star c t h hn ih =>
    have hdrop := Place.uncommented_of_comment hn
      (Place.headInComment_of_isComment (isComment_block star) c t)
    rw [dropComments_block_cons h hn, ih, ← (alike_block h t).uncommented]
    exact (Text.select_dropped hdrop).symm

/-! The reader of commas -/

theorem dropCommas_inString (h : c = '\\' → t = []) :
    dropCommas true (c :: t) = c :: dropCommas (c != '"') t := by
  rw [dropCommas.eq_def]
  split <;> simp_all

theorem isString_code (c : Char) :
    (if c = '"' then .string else .code : CommentState).place.isString = (c == '"') := by
  by_cases hq : c = '"' <;> simp [hq, CommentState.place, Place.isString]

theorem isString_string (c : Char) :
    (if c = '"' then .code else .string : CommentState).place.isString = (c != '"') := by
  by_cases hq : c = '"' <;> simp [hq, CommentState.place, Place.isString]

theorem isString_block (star : Bool) : (CommentState.block star).place.isString = false := by
  cases star <;> rfl

/-- Of what is left of comments, the commas before closing brackets and braces are dropped, and
nothing else is. -/
theorem dropCommas_dropComments (s : CommentState) (t : Text) :
    dropCommas s.place.isString (dropComments s t) = t.select (s.place.cleaned t) := by
  induction s, t using dropComments_induction with
  | nil s => rw [dropComments_nil, dropCommas, Text.select]
  | lineOpen t ih => exact ih
  | blockOpen t ih => exact ih
  | code c t hc ih =>
    rw [dropComments_code_cons hc]
    change dropCommas false _ = _
    by_cases hcomma : c = ',' ∧ closesNext (dropComments .code t) = true
    · obtain ⟨rfl, hcloses⟩ := hcomma
      have htrailing : Place.code.trailing (',' :: t) 0 = true := hcloses
      have hdrop : Place.code.cleaned (',' :: t) 0 = false := by
        rw [Place.cleaned, htrailing, Bool.not_true, Bool.and_false]
      have hout : dropCommas false (',' :: dropComments .code t) =
          dropCommas false (dropComments .code t) := by simp [dropCommas, hcloses]
      exact hout.trans (ih.trans (Text.select_dropped hdrop).symm)
    · have hkeep : Place.code.cleaned (c :: t) 0 = true :=
        Place.cleaned_of_bare (Place.headInComment_code hc) fun h =>
          .inr (by simpa [h] using hcomma)
      -- A comma opens no string, so the reader of commas looks at the same text.
      have hstays : ¬ (c = ',' ∧
          closesNext (dropComments (if c = '"' then .string else .code) t) = true) := by
        rintro ⟨rfl, h⟩
        exact hcomma ⟨rfl, h⟩
      rw [dropCommas, if_neg hstays, ← isString_code, ih, ← (alike_code hc).cleaned]
      exact (Text.select_kept hkeep).symm
  | escape c t ih =>
    have hescaped : Text.select (Place.escape.cleaned (c :: t)) (c :: t) =
        c :: Text.select (Place.string.cleaned t) t :=
      Text.select_kept (Place.cleaned_of_isString rfl)
    refine Eq.trans ?_ (Text.select_kept (Place.cleaned_of_isString rfl)).symm
    exact congrArg ('\\' :: ·) ((congrArg (c :: ·) ih).trans hescaped.symm)
  | string c t hc ih =>
    have hrest : c = '\\' → dropComments (if c = '"' then .code else .string) t = [] := by
      intro hb
      rw [hc hb, dropComments_nil]
    rw [dropComments_string_cons hc]
    change dropCommas true _ = _
    rw [dropCommas_inString hrest, ← isString_string, ih, ← (alike_string hc).cleaned]
    exact (Text.select_kept (Place.cleaned_of_isString rfl)).symm
  | lineEnd t ih => exact congrArg ('\n' :: ·) ih
  | line c t hn ih =>
    have hdrop : Place.line.cleaned (c :: t) 0 = false :=
      Place.cleaned_of_comment hn (Place.headInComment_of_isComment rfl c t)
    rw [dropComments_line_cons hn, ih, ← (alike_line hn t).cleaned]
    exact (Text.select_dropped hdrop).symm
  | blockEnd t ih => rwa [dropComments_block_end]
  | blockBreak star t ih => cases star <;> exact congrArg ('\n' :: ·) ih
  | block star c t h hn ih =>
    have hdrop := Place.cleaned_of_comment hn
      (Place.headInComment_of_isComment (isComment_block star) c t)
    rw [isString_block] at ih ⊢
    rw [dropComments_block_cons h hn, ih, ← (alike_block h t).cleaned]
    exact (Text.select_dropped hdrop).symm

/-! A second round -/

/-- The state to read what is left of comments in: there, all of them are over. -/
def CommentState.resumed : CommentState → CommentState
  | string => .string
  | _ => .code

theorem resumed_code (c : Char) :
    (if c = '"' then .string else .code : CommentState).resumed =
      if c = '"' then .string else .code := by
  split <;> rfl

theorem resumed_string (c : Char) :
    (if c = '"' then .code else .string : CommentState).resumed =
      if c = '"' then .code else .string := by
  split <;> rfl

theorem harmless_dropComments (h : Harmless t) : Harmless (dropComments .code t) := by
  cases t with
  | nil => exact h
  | cons d t =>
    rw [dropComments_code_cons fun hd => absurd hd (h d rfl).1]
    exact h

/-- What is dropped leaves no two characters side by side that would open a comment. -/
theorem dropComments_resumed (s : CommentState) (t : Text) :
    dropComments s.resumed (dropComments s t) = dropComments s t := by
  induction s, t using dropComments_induction with
  | nil s => rw [dropComments_nil, dropComments_nil]
  | lineOpen t ih => exact ih
  | blockOpen t ih => exact ih
  | code c t hc ih =>
    have hrest : c = '/' → Harmless (dropComments (if c = '"' then .string else .code) t) := by
      rintro rfl
      exact harmless_dropComments (hc rfl)
    rw [resumed_code] at ih
    rw [dropComments_code_cons hc]
    change dropComments .code _ = _
    rw [dropComments_code_cons hrest, ih]
  | escape c t ih => exact congrArg (fun u => '\\' :: c :: u) ih
  | string c t hc ih =>
    have hrest : c = '\\' → dropComments (if c = '"' then .code else .string) t = [] := by
      intro hb
      rw [hc hb, dropComments_nil]
    rw [resumed_string] at ih
    rw [dropComments_string_cons hc]
    change dropComments .string _ = _
    rw [dropComments_string_cons hrest, ih]
  | lineEnd t ih => exact congrArg ('\n' :: ·) ih
  | line c t hn ih => rwa [dropComments_line_cons hn]
  | blockEnd t ih => rwa [dropComments_block_end]
  | blockBreak star t ih => cases star <;> exact congrArg ('\n' :: ·) ih
  | block star c t h hn ih => rwa [dropComments_block_cons h hn]

namespace Place

theorem run_take_succ {p : Place} {t : Text} {i : Nat} {c : Char} (h : t[i]? = some c) :
    p.run (t.take (i + 1)) = (p.run (t.take i)).step c := by
  rw [List.take_add_one, h, run, run, List.foldl_append]
  rfl

theorem isComment_step_newline {p : Place} (h : p.isComment = false) :
    (p.step '\n').isComment = false := by
  cases p with
  | block => cases h
  | star => cases h
  | _ => rfl

/-- If all positions are uncommented, no comment ever opens. -/
theorem isComment_run_take {t : Text} (h : ∀ i < t.length, code.uncommented t i = true) (i : Nat) :
    (code.run (t.take i)).isComment = false := by
  induction i with
  | zero => rfl
  | succ i ih =>
    cases hc : t[i]? with
    | none => rwa [List.take_add_one, hc, Option.toList_none, List.append_nil]
    | some c =>
      obtain ⟨hi, rfl⟩ := List.getElem?_eq_some_iff.mp hc
      rw [run_take_succ hc]
      cases hcomment : ((code.run (t.take i)).step t[i]).isComment with
      | false => rfl
      | true =>
        have hn : t[i] ≠ '\n' := by
          intro hn
          rw [hn, isComment_step_newline ih] at hcomment
          exact Bool.false_ne_true hcomment
        have hopens : code.inComment t i = true := by
          rw [inComment, List.drop_eq_getElem_cons hi, headInComment, hcomment]
          simp
        have hkept := h i hi
        simp [uncommented, hopens, hc, hn] at hkept

theorem inComment_eq_false {t : Text} (h : ∀ i < t.length, code.uncommented t i = true) (i : Nat) :
    code.inComment t i = false := by
  cases hd : t.drop i with
  | nil => rw [inComment, hd, headInComment]
  | cons c rest =>
    have hc : t[i]? = some c := by rw [← List.head?_drop, hd, List.head?_cons]
    have hstep : ((code.run (t.take i)).step c).isComment = false := by
      rw [← run_take_succ hc]
      exact isComment_run_take h (i + 1)
    have hnext : ((code.run (t.take i)).step c == slash &&
        rest.head?.any fun d => (slash.step d).isComment) = false := by
      cases hr : rest.head? with
      | none => simp
      | some d =>
        have hdrop : t.drop (i + 1) = rest := by rw [← List.tail_drop, hd, List.tail_cons]
        have hd' : t[i + 1]? = some d := by rw [← List.head?_drop, hdrop, hr]
        have hcomment := isComment_run_take h (i + 2)
        rw [run_take_succ hd', run_take_succ hc] at hcomment
        rw [Option.any_some, Bool.and_eq_false_iff, beq_eq_false_iff_ne]
        by_cases hslash : (code.run (t.take i)).step c = slash
        · rw [hslash] at hcomment
          exact .inr hcomment
        · exact .inl hslash
    rw [inComment, hd, headInComment, isComment_run_take h i, hstep, hnext]
    rfl

theorem headInComment_of_headInString {p : Place} {t : Text} (h : p.headInString t = true) :
    p.headInComment t = false := by
  cases t with
  | nil => rfl
  | cons c t =>
    have hstring : p.isString = true ∨ (p.step c).isString = true := by
      simpa [headInString] using h
    rcases hstring with hp | hs
    · exact headInComment_of_isString hp _
    · cases p with
      | code =>
        refine headInComment_code ?_
        rintro rfl
        cases hs
      | slash =>
        have hc : c ≠ '/' ∧ c ≠ '*' := by constructor <;> rintro rfl <;> cases hs
        by_cases hq : c = '"' <;> simp [headInComment, isComment, step, opened, hc, hq]
      | string => exact headInComment_of_isString rfl _
      | escape => exact headInComment_of_isString rfl _
      | _ =>
        simp only [step] at hs
        split_ifs at hs <;> cases hs

/-! What is never dropped -/

section

variable {p : Place} {t : Text} {i : Nat}

theorem uncommented_newline (h : t[i]? = some '\n') : p.uncommented t i = true := by
  simp [uncommented, h]

theorem cleaned_newline (h : t[i]? = some '\n') : p.cleaned t i = true := by
  simp [cleaned, trailing, uncommented_newline h, h]

theorem uncommented_of_inString (h : p.inString t i = true) : p.uncommented t i = true := by
  have hbare : p.inComment t i = false := headInComment_of_headInString h
  rw [uncommented, hbare, Bool.not_false, Bool.or_true]

theorem cleaned_of_inString (h : p.inString t i = true) : p.cleaned t i = true := by
  simp [cleaned, trailing, uncommented_of_inString h, h]

end

end Place

/-- What is left of a text: the characters at some of its positions, with all line breaks and all
strings among them. They stand on the lines that they stood on, and a fault in what is left is told
with the line of the text that the reader had come to. -/
structure Retains (t : Text) (keep : Nat → Bool) (out : Text) : Prop where
  eq_select : out = t.select keep
  sublist : out.Sublist t
  newlines : ∀ i, t[i]? = some '\n' → keep i = true
  strings : ∀ i, Place.code.inString t i = true → keep i = true
  lines : ∀ i c, t[i]? = some c → keep i = true →
    out[Text.rank keep t i]? = some c ∧ Text.lineOf out (Text.rank keep t i) = Text.lineOf t i
  faults : ∀ f : Json.Fault, ∃ i ≤ t.length, ∃ column : Nat,
    Text.select keep (t.take i) =
      Text.started (Text.byteSize out - Text.byteSize f.rest + f.ahead) out ∧
    f.message out = s!"{f.cause.message} at line {Text.lineOf t i} column {column}"

theorem retains_select {t : Text} {keep : Nat → Bool}
    (hn : ∀ i, t[i]? = some '\n' → keep i = true)
    (hs : ∀ i, Place.code.inString t i = true → keep i = true) :
    Retains t keep (t.select keep) where
  eq_select := rfl
  sublist := Text.select_sublist keep t
  newlines := hn
  strings := hs
  lines i c := Text.lineOf_rank hn
  faults f := by
    obtain ⟨i, hi, hstarted, hline⟩ := Text.exists_position_fst hn
      (Text.byteSize (t.select keep) - Text.byteSize f.rest + f.ahead)
    refine ⟨i, hi, (Json.position 1 0 (Text.byteSize (t.select keep) - Text.byteSize f.rest +
      f.ahead) (t.select keep)).2, hstarted, ?_⟩
    rw [← hline]
    rfl

/-- Cleaning keeps every character but those of comments, and the commas before closing brackets and
braces. What it keeps stays on its line. Where the comments are gone, no new one has come up. -/
theorem clean_retains (t : Text) :
    Retains t (Place.code.uncommented t) (dropComments .code t) ∧
    Retains t (Place.code.cleaned t) (clean t) ∧
    dropComments .code (dropComments .code t) = dropComments .code t ∧
    ∀ i, Place.code.inComment (dropComments .code t) i = false := by
  have hagain : dropComments .code (dropComments .code t) = dropComments .code t :=
    dropComments_resumed .code t
  refine ⟨?_, ?_, hagain, ?_⟩
  · rw [dropComments_eq_select]
    exact retains_select (fun _ => Place.uncommented_newline) fun _ => Place.uncommented_of_inString
  · have hclean : clean t = t.select (Place.code.cleaned t) := dropCommas_dropComments .code t
    rw [hclean]
    exact retains_select (fun _ => Place.cleaned_newline) fun _ => Place.cleaned_of_inString
  · rw [dropComments_eq_select] at hagain
    exact Place.inComment_eq_false fun i => Text.eq_true_of_select_eq_self hagain

-- A block comment with no end still leaves its line breaks, and a string with no end is kept.
example : clean "[1, /* ,\n ]".toList = "[1, \n".toList := by decide
example : clean "[1,//\n], \",] // \\".toList = "[1\n], \",] // \\".toList := by decide

end ImportAlias.Manifest
