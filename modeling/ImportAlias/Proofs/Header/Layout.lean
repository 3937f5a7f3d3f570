import ImportAlias.Proofs.Header.Rendering
import ImportAlias.Proofs.Header.Statements

/-! The lines of import statements: the scanner accepts each of them, over one line or several, and
the slots of the header are the sources of the imports. -/
namespace ImportAlias.Header

open Text (isBlank isNameChar)

variable {t u : Text} {c : Char} {named : Bool}

/-! Brace lists over lines -/

/-- Names and white space, and commas that follow a name on their line. -/
def listed : Bool → Text → Bool
  | _, [] => true
  | named, c :: t =>
    if c = '\n' then listed false t
    else if isNameChar c then listed true t
    else if isBlank c then listed named t
    else c = ',' && named && listed false t

theorem ne_newline_of_isNameChar (h : isNameChar c = true) : c ≠ '\n' := by
  rintro rfl
  exact absurd h (by decide)

theorem listed_nameChar (h : isNameChar c = true) : listed named (c :: t) = listed true t := by
  simp [listed, ne_newline_of_isNameChar h, h]

theorem listed_blank (h : isBlank c = true) (hne : c ≠ '\n') :
    listed named (c :: t) = listed named t := by
  simp [listed, hne, isNameChar_of_isBlank h, h]

theorem listed_comma : listed true (',' :: t) = listed false t := rfl

theorem listed_cases (h : listed named (c :: t) = true) :
    (c = '\n' ∧ listed false t = true) ∨ (isNameChar c = true ∧ listed true t = true) ∨
      (isBlank c = true ∧ c ≠ '\n' ∧ listed named t = true) ∨
      (c = ',' ∧ named = true ∧ listed false t = true) := by
  unfold listed at h
  split at h
  · exact .inl ⟨‹_›, h⟩
  · split at h
    · exact .inr (.inl ⟨‹_›, h⟩)
    · split at h
      · exact .inr (.inr (.inl ⟨‹_›, ‹_›, h⟩))
      · exact .inr (.inr (.inr (by simpa [and_assoc] using h)))

theorem listed_of_false (h : listed false t = true) : listed named t = true := by
  induction t with
  | nil => rfl
  | cons c t ih =>
    rcases listed_cases h with ⟨rfl, ht⟩ | ⟨hc, ht⟩ | ⟨hc, hne, ht⟩ | ⟨-, hf, -⟩
    · exact ht
    · rwa [listed_nameChar hc]
    · rw [listed_blank hc hne]
      exact ih ht
    · simp at hf

theorem listed_wide (w : Wide) (h : listed false t = true) : listed named (w.text ++ t) = true := by
  have hall : ∀ s : Text, (∀ c ∈ s, isBlank c = true) → ∀ named, listed named (s ++ t) = true := by
    intro s hs
    induction s with
    | nil => exact fun _ => listed_of_false h
    | cons c s ih =>
      intro named
      have hrest := ih fun d hd => hs d (by simp [hd])
      by_cases hc : c = '\n'
      · rw [hc]
        exact hrest false
      · rw [List.cons_append, listed_blank (hs c (by simp)) hc]
        exact hrest named
  exact hall w.text w.blank named

theorem listed_gap (g : Gap) : listed named (g.text ++ t) = listed named t := by
  have hall : ∀ s : Text, (∀ c ∈ s, isBlank c = true) → '\n' ∉ s →
      listed named (s ++ t) = listed named t := by
    intro s hs hn
    induction s with
    | nil => rfl
    | cons c s ih =>
      obtain ⟨hne, hn⟩ := not_or.mp (mt List.mem_cons.mpr hn)
      rw [List.cons_append, listed_blank (hs c (by simp)) (Ne.symm hne)]
      exact ih (fun d hd => hs d (by simp [hd])) hn
  exact hall g.text g.blank g.oneLine

theorem listed_identifier (n : Identifier) : listed named (n.text ++ t) = listed true t := by
  have hall : ∀ s : Text, s ≠ [] → (∀ c ∈ s, isNameChar c = true) → ∀ named,
      listed named (s ++ t) = listed true t := by
    intro s
    induction s with
    | nil => exact fun hne => absurd rfl hne
    | cons c s ih =>
      intro _ hs named
      rw [List.cons_append, listed_nameChar (hs c (by simp))]
      cases s with
      | nil => rfl
      | cons d s => exact ih (by simp) (fun e he => hs e (by simp [he])) true
  exact hall n.text n.ne_nil n.chars named

/-- Items that end with a name. -/
def EndsNamed {α : Type} (f : α → Text) : Prop :=
  ∀ (a : α) (named : Bool) (t : Text), listed true t = true → listed named (f a ++ t) = true

theorem endsNamed_member : EndsNamed Member.text := by
  intro m named t h
  have htype : ∀ named u, listed named ("type".toList ++ u) = listed true u := fun _ _ => rfl
  have has : ∀ named u, listed named ("as".toList ++ u) = listed true u := fun _ _ => rfl
  have hrenamed : listed true (asText m.renamed ++ t) = true := by
    cases m.renamed with
    | none => exact h
    | some p =>
      obtain ⟨before, after, n⟩ := p
      have hname : listed false (n.text ++ t) = true := by rwa [listed_identifier]
      have hword : listed false ("as".toList ++ (after.text ++ (n.text ++ t))) = true := by
        rw [has]
        exact listed_wide after.toWide hname
      rw [asText]
      simpa only [List.append_assoc] using listed_wide before.toWide hword
  have hname : ∀ named, listed named (m.name.text ++ (asText m.renamed ++ t)) = true := by
    intro named
    rwa [listed_identifier]
  rw [Member.text, List.append_assoc, List.append_assoc]
  cases m.typed with
  | none => exact hname named
  | some s =>
    rw [typeMark, List.append_assoc, htype]
    exact listed_wide s.toWide (hname false)

theorem endsNamed_name : EndsNamed fun n : Name => n.text := by
  intro n named t h
  rwa [listed_identifier]

theorem listed_commaList {α : Type} {f : α → Text} (hf : EndsNamed f) (l : CommaList α) :
    listed false (l.text f) = true := by
  obtain ⟨lead, items, last⟩ := l
  have hlast : listed false (lastText f last) = true := by
    cases last with
    | none => rfl
    | some p =>
      obtain ⟨a, after⟩ := p
      have hend : listed true (after.text ++ []) = true := listed_wide after rfl
      rw [List.append_nil] at hend
      exact hf a false _ hend
  refine listed_wide lead ?_
  dsimp only
  induction items with
  | nil => exact hlast
  | cons p items ih =>
    obtain ⟨a, before, after⟩ := p
    rw [listedText, List.append_assoc, List.append_assoc, List.cons_append, List.append_assoc]
    refine hf a false _ ?_
    rw [listed_gap, listed_comma]
    exact listed_wide after ih

/-! What the scanner makes of such texts -/

theorem listed_append (h : listed named (t ++ '\n' :: u) = true) :
    listed named t = true ∧ listed false u = true := by
  induction t generalizing named with
  | nil => exact ⟨rfl, h⟩
  | cons c t ih =>
    rcases listed_cases h with ⟨rfl, ht⟩ | ⟨hc, ht⟩ | ⟨hc, hne, ht⟩ | ⟨rfl, rfl, ht⟩
    · exact ih ht
    · rw [listed_nameChar hc]
      exact ih ht
    · rw [listed_blank hc hne]
      exact ih ht
    · exact ih ht

theorem items_listed (h : listed named t = true) (hn : '\n' ∉ t) (u : Text) :
    ∃ after, items named (t ++ u) = items after u := by
  induction t generalizing named with
  | nil => exact ⟨named, rfl⟩
  | cons c t ih =>
    obtain ⟨hfirst, hrest⟩ := not_or.mp (mt List.mem_cons.mpr hn)
    rw [List.cons_append, items]
    rcases listed_cases h with ⟨rfl, -⟩ | ⟨hc, ht⟩ | ⟨hc, -, ht⟩ | ⟨rfl, rfl, ht⟩
    · exact absurd rfl hfirst
    · rw [if_pos hc]
      exact ih ht hrest
    · rw [if_neg (by simp [isNameChar_of_isBlank hc]), if_pos hc]
      exact ih ht hrest
    · exact ih ht hrest

theorem items_listed_nil (h : listed named t = true) (hn : '\n' ∉ t) : items named t = [] := by
  obtain ⟨after, hi⟩ := items_listed h hn []
  rwa [List.append_nil] at hi

theorem items_listed_brace (h : listed named t = true) (hn : '\n' ∉ t) (u : Text) :
    items named (t ++ '\x7d' :: u) = '\x7d' :: u := by
  obtain ⟨after, hi⟩ := items_listed h hn ('\x7d' :: u)
  rw [hi]
  rfl

/-- Quotes and braces are neither names nor white space. -/
theorem not_mem_listed (h : listed named t = true) :
    ∀ c ∈ ['"', '\x27', '\x7d'], c ∉ t := by
  have hall : ∀ c ∈ ['"', '\x27', '\x7d'], isNameChar c = false ∧ isBlank c = false ∧ c ≠ ',' := by
    simp only [List.mem_cons, List.not_mem_nil, or_false, forall_eq_or_imp, forall_eq]
    decide
  intro c hc
  obtain ⟨hname, hblank, hcomma⟩ := hall c hc
  induction t generalizing named with
  | nil => simp
  | cons d t ih =>
    rw [List.mem_cons, not_or]
    have hnewline : isBlank '\n' = true := by decide
    rcases listed_cases h with ⟨rfl, ht⟩ | ⟨hd, ht⟩ | ⟨hd, -, ht⟩ | ⟨rfl, -, ht⟩
    · exact ⟨by rintro rfl; simp [hnewline] at hblank, ih ht⟩
    · exact ⟨by rintro rfl; simp [hd] at hname, ih ht⟩
    · exact ⟨by rintro rfl; simp [hd] at hblank, ih ht⟩
    · exact ⟨hcomma, ih ht⟩

theorem marks_listed (h : listed named t = true) (hn : '\n' ∉ t) : ∀ c ∈ marks, c ∉ t := by
  have hq := not_mem_listed h
  simp only [marks, List.mem_cons, List.not_mem_nil, or_false, forall_eq_or_imp, forall_eq] at hq ⊢
  exact ⟨hn, hq.1, hq.2.1⟩

/-! Lines -/

/-- The lines of a statement: those before the one with the source, and that one. -/
def outline (kind : ListKind) (s : Source) (trail : Text) : List Text → List HeaderLine
  | [] => []
  | [t] => [closing kind t s trail]
  | t :: u :: ts => .plain t :: outline kind s trail (u :: ts)

def Statement.lines (s : Statement) : List HeaderLine :=
  outline s.form.kind s.source.toSource s.trail (Text.splitOn '\n' s.lead)

def Piece.lines : Piece → List HeaderLine
  | blank gap => [.plain gap.text]
  | statement s => s.lines

section

variable {kind : ListKind} {s : Source} {trail : Text}

theorem outline_cons {ts : List Text} (h : ts ≠ []) :
    outline kind s trail (t :: ts) = .plain t :: outline kind s trail ts := by
  cases ts with
  | nil => exact absurd rfl h
  | cons u ts => rfl

end

section Lists

variable (kind : ListKind) (after gap : Gap) (s : Source) (e : Ending)

/-- What follows the members of a brace list, up to the source. -/
def listEnd : Text := '\x7d' :: (after.text ++ ("from".toList ++ gap.text))

theorem oneLine_listEnd : '\n' ∉ listEnd after gap := by
  simp [listEnd, Gap.oneLine]

/-- The lines of a brace list below its first one. -/
theorem passes_listed (m : Text) (h : listed false m = true) :
    Passes (.list kind) (outline kind s e.text (Text.splitOn '\n' (m ++ listEnd after gap)))
      .statement := by
  by_cases hm : '\n' ∈ m
  · obtain ⟨t, rest, rfl, ht⟩ := List.eq_append_cons_of_mem hm
    obtain ⟨hfirst, hrest⟩ := listed_append h
    have hlines : Text.splitOn '\n' (t ++ '\n' :: rest ++ listEnd after gap) =
        t :: Text.splitOn '\n' (rest ++ listEnd after gap) := by
      rw [List.append_assoc, List.cons_append, Text.splitOn_append, Text.splitOn_of_not_mem ht]
      rfl
    rw [hlines, outline_cons (Text.splitOn_ne_nil _ _)]
    exact ⟨.list kind, scanLine_items kind (items_listed_nil hfirst ht) (marks_listed hfirst ht),
      passes_listed rest hrest⟩
  · have hline : '\n' ∉ m ++ listEnd after gap := by
      rw [List.mem_append, not_or]
      exact ⟨hm, oneLine_listEnd after gap⟩
    rw [Text.splitOn_of_not_mem hline]
    exact .single (scanLine_closing kind
      (listSource?_closing (items_listed_brace h hm) after gap s e))
termination_by m.length

variable {state : State}

/-- A brace list over several lines. -/
theorem passes_opened (hs : state = .start ∨ state = .statement) (indent : Gap) (o : Opener)
    {m : Text} (h : listed false m = true) (hm : '\n' ∈ m) :
    Passes state (outline o.kind s e.text (Text.splitOn '\n'
      (openerLine indent o (m ++ listEnd after gap)))) .statement := by
  obtain ⟨t, rest, rfl, ht⟩ := List.eq_append_cons_of_mem hm
  obtain ⟨hfirst, hrest⟩ := listed_append h
  have hmarks := marks_listed hfirst ht
  have hline : '\n' ∉ openerLine indent o t := openerLine_not_mem indent o (by decide) ht
  have hlines : Text.splitOn '\n' (openerLine indent o (t ++ '\n' :: rest ++ listEnd after gap)) =
      openerLine indent o t :: Text.splitOn '\n' (rest ++ listEnd after gap) := by
    have hcut : openerLine indent o (t ++ '\n' :: rest ++ listEnd after gap) =
        openerLine indent o t ++ '\n' :: (rest ++ listEnd after gap) := by simp [openerLine]
    rw [hcut, Text.splitOn_append, Text.splitOn_of_not_mem hline]
    rfl
  rw [hlines, outline_cons (Text.splitOn_ne_nil _ _)]
  exact ⟨.list o.kind, scanLine_opener hs indent o (items_listed_nil hfirst ht) hmarks,
    passes_listed o.kind after gap s e rest hrest⟩

end Lists

/-! Statements on one line -/

def CommaList.braces {α : Type} {f : α → Text} (l : CommaList α) (hf : EndsNamed f)
    (h : '\n' ∉ l.text f) : Braces :=
  ⟨l.text f, not_mem_listed (listed_commaList hf l) _ (by simp), h⟩

theorem not_mem_braced {members : CommaList Member} {c : Char} (h : c ∉ braced members t) :
    c ∉ members.text Member.text := by
  simp only [braced, List.mem_cons, List.mem_append, not_or] at h
  exact h.2.1

theorem Imported.exists_clause (x : Imported) (h : '\n' ∉ x.text) :
    ∃ clause : ImportClause, clause.text = x.text := by
  cases x with
  | single n after => exact ⟨.single n.toIdentifier after, rfl⟩
  | group first rest =>
    cases rest with
    | braces members after =>
      simp only [text, Group.text, List.mem_append, not_or] at h
      refine ⟨.braces (first.map Default.toDefaultName)
        (members.braces endsNamed_member (not_mem_braced h.2)) after, ?_⟩
      simp [ImportClause.text, CommaList.braces, Braces.inBraces, text, Group.text, braced,
        firstText]
    | star afterStar afterAs n after =>
      exact ⟨.star (first.map Default.toDefaultName) afterStar afterAs n.toIdentifier after, rfl⟩

theorem Exported.exists_clause (x : Exported) (h : '\n' ∉ x.text) :
    ∃ typed, ∃ clause : ExportClause, typeWord typed ++ clause.text = x.text := by
  cases x with
  | braces typed members after =>
    simp only [text, List.mem_append, not_or] at h
    refine ⟨typed.map Separator.toSpace,
      .braces (members.braces endsNamed_member (not_mem_braced h.2)) after, ?_⟩
    simp [ExportClause.text, CommaList.braces, Braces.inBraces, text, braced, typedText]
  | star after => exact ⟨none, .star after, rfl⟩
  | starAs afterStar afterAs n after =>
    exact ⟨none, .starAs afterStar afterAs n.toIdentifier after, rfl⟩

theorem Bound.exists_binding (b : Bound) : ∃ binding : Binding, binding.text = b.text := by
  cases b with
  | name n => exact ⟨.name n.toIdentifier, rfl⟩
  | pattern names oneLine => exact ⟨.braces (names.braces endsNamed_name oneLine), rfl⟩

def Call.required (call : Call) (s : Source) (e : Ending) : Required :=
  ⟨call.beforeSign, call.afterSign, call.afterWord, call.beforeSource, s, call.afterSource, e⟩

theorem Statement.trail_from (s : Statement) (h : s.form.trail = []) :
    s.trail = Ending.text ⟨s.before, true, s.after⟩ := by
  simp [Statement.trail, h, Ending.text]

theorem Statement.trail_call (s : Statement) {call : Call}
    (h : s.form.trail = call.afterSource.text ++ [')']) :
    s.trail = (call.required s.source.toSource ⟨s.before, true, s.after⟩).trail := by
  simp [Statement.trail, h, Required.trail, Call.required, Ending.text]

variable {state : State}

theorem Statement.passes_line (hs : state = .start ∨ state = .statement) (s : Statement)
    (h : '\n' ∉ s.form.lead) :
    Passes state [closing s.form.kind s.lead s.source.toSource s.trail] .statement := by
  obtain ⟨indent, form, source, before, after⟩ := s
  cases form with
  | importFrom word typed clause gap =>
    rw [Form.lead_importFrom] at h
    simp only [List.mem_append, not_or] at h
    obtain ⟨c, hc⟩ := clause.exists_clause h.2.2.2.1
    have hline := editable?_importFrom indent word (typed.map Separator.toSpace) c gap
      source.toSource ⟨before, true, after⟩
    rw [hc] at hline
    rw [Statement.trail_from _ rfl]
    exact passes_editable hs hline
  | importOnly gap =>
    rw [Statement.trail_from _ rfl]
    exact passes_editable hs (editable?_importOnly indent gap source.toSource ⟨before, true, after⟩)
  | importEquals word typed n call =>
    rw [Statement.trail_call _ rfl]
    exact passes_editable hs (editable?_importEquals indent word (typed.map Separator.toSpace)
      n.toIdentifier (call.required source.toSource ⟨before, true, after⟩))
  | declaration keyword isKeyword word bound call =>
    obtain ⟨b, hb⟩ := bound.exists_binding
    have hline := editable?_declaration indent isKeyword word b
      (call.required source.toSource ⟨before, true, after⟩)
    rw [hb] at hline
    rw [Statement.trail_call _ rfl]
    exact passes_editable hs hline
  | exportFrom word clause gap =>
    rw [Form.lead_exportFrom] at h
    simp only [List.mem_append, not_or] at h
    obtain ⟨typed, c, hc⟩ := clause.exists_clause h.2.2.1
    have hline := scanLine_exportFrom hs indent word typed c gap source.toSource
      ⟨before, true, after⟩
    have htext : typeWord typed ++ (c.text ++ ("from".toList ++ gap.text)) =
        clause.text ++ ("from".toList ++ gap.text) := by rw [← hc, List.append_assoc]
    rw [htext] at hline
    rw [Statement.trail_from _ rfl]
    exact .single hline

/-! Statements over several lines -/

theorem Call.oneLine_lead (call : Call) : '\n' ∉ call.lead := by
  simp [Call.lead, Gap.oneLine]

theorem oneLine_typedText (typed : Option Separator) : '\n' ∉ typedText typed :=
  oneLine_typeWord _

theorem oneLine_firstText (first : Option Default) : '\n' ∉ firstText first :=
  oneLine_defaultText _

theorem Bound.oneLine_text (b : Bound) : '\n' ∉ b.text := by
  cases b with
  | name n => exact n.oneLine
  | pattern names oneLine => simp [Bound.text, oneLine]

def listLead (o : Opener) (members : CommaList Member) (after gap : Gap) : Text :=
  o.text ++ (members.text Member.text ++ listEnd after gap)

/-- A statement stands on one line, or it has a brace list with a line break. -/
theorem Form.oneLine_or_list (form : Form) : '\n' ∉ form.lead ∨
    ∃ o members after gap, form.lead = listLead o members after gap ∧ form.kind = o.kind ∧
      form.trail = [] ∧ '\n' ∈ members.text Member.text := by
  cases form with
  | importFrom word typed clause gap =>
    cases clause with
    | single n after =>
      refine .inl ?_
      simp [Form.lead_importFrom, Imported.text, Gap.oneLine, oneLine_typedText, Identifier.oneLine]
    | group first rest =>
      cases rest with
      | braces members after =>
        by_cases hm : '\n' ∈ members.text Member.text
        · refine .inr ⟨
            .imports word (typed.map Separator.toSpace) (first.map Default.toDefaultName), members,
            after, gap, ?_, rfl, rfl, hm⟩
          simp [Form.lead_importFrom, listLead, listEnd, Opener.text_imports, Imported.text,
            Group.text, braced, firstText, typedText]
        · refine .inl ?_
          simp [Form.lead_importFrom, Imported.text, Group.text, braced, hm, Gap.oneLine,
            oneLine_typedText, oneLine_firstText]
      | star afterStar afterAs n after =>
        refine .inl ?_
        simp [Form.lead_importFrom, Imported.text, Group.text, Gap.oneLine, oneLine_typedText,
          oneLine_firstText, oneLine_starText]
  | importOnly gap => exact .inl (by simp [Form.lead_importOnly, gap.oneLine])
  | importEquals word typed n call =>
    refine .inl ?_
    simp [Form.lead_importEquals, word.oneLine, oneLine_typedText, n.oneLine, call.oneLine_lead]
  | declaration keyword isKeyword word bound call =>
    have hkeyword : ∀ k ∈ ["const", "let", "var"], '\n' ∉ k.toList := by decide
    refine .inl ?_
    simp [Form.lead_declaration, word.oneLine, bound.oneLine_text, call.oneLine_lead,
      hkeyword keyword isKeyword]
  | exportFrom word clause gap =>
    cases clause with
    | braces typed members after =>
      by_cases hm : '\n' ∈ members.text Member.text
      · refine .inr ⟨.exports word (typed.map Separator.toSpace), members, after, gap, ?_, rfl, rfl,
          hm⟩
        simp [Form.lead_exportFrom, listLead, listEnd, Opener.text_exports, Exported.text, braced,
          typedText]
      · refine .inl ?_
        simp [Form.lead_exportFrom, Exported.text, braced, hm, Gap.oneLine, oneLine_typedText]
    | star after => exact .inl (by simp [Form.lead_exportFrom, Exported.text, Gap.oneLine])
    | starAs afterStar afterAs n after =>
      exact .inl (by simp [Form.lead_exportFrom, Exported.text, Gap.oneLine, oneLine_starText])

/-- A statement takes the scanner from statement to statement. -/
theorem Statement.passes (hs : state = .start ∨ state = .statement) (s : Statement) :
    Passes state s.lines .statement := by
  rcases s.form.oneLine_or_list with hline | ⟨o, members, after, gap, hlead, hkind, htrail, hm⟩
  · have hone : '\n' ∉ s.lead := by
      rw [Statement.lead, List.mem_append, not_or]
      exact ⟨s.indent.oneLine, hline⟩
    rw [Statement.lines, Text.splitOn_of_not_mem hone]
    exact s.passes_line hs hline
  · have hopened := passes_opened after gap s.source.toSource ⟨s.before, true, s.after⟩ hs
      s.indent o (listed_commaList endsNamed_member members) hm
    rw [Statement.lines, Statement.lead, hlead, hkind, s.trail_from htrail]
    exact hopened

theorem Piece.passes (p : Piece) (hs : state = .start ∨ state = .statement) :
    Passes state p.lines .statement := by
  cases p with
  | blank gap => exact .single (scanLine_comment hs (comments?_gap_nil gap))
  | statement s => exact s.passes hs

/-! The header of a module -/

section

variable (choose : Specifier → Option Text) {kind : ListKind} {s : Source} {trail : Text}

def aliasedText (l : HeaderLine) : Text := (l.aliased choose).text

theorem aliasedText_closing (t : Text) : aliasedText choose (closing kind t s trail) =
    t ++ aliasedText choose (closing kind [] s trail) := by
  cases kind with
  | imports => simp [aliasedText, closing, Source.slot, HeaderLine.aliased, HeaderLine.text]
  | exports => simp [aliasedText, closing, Source.line, HeaderLine.aliased, HeaderLine.text]

theorem outline_ne_nil {ts : List Text} (h : ts ≠ []) : outline kind s trail ts ≠ [] := by
  cases ts with
  | nil => exact absurd rfl h
  | cons t ts => cases ts <;> simp [outline]

theorem joinWith_outline {ts : List Text} (h : ts ≠ []) :
    Text.joinWith '\n' ((outline kind s trail ts).map (aliasedText choose)) =
      Text.joinWith '\n' ts ++ aliasedText choose (closing kind [] s trail) := by
  induction ts with
  | nil => exact absurd rfl h
  | cons t ts ih =>
    cases ts with
    | nil => exact aliasedText_closing choose t
    | cons u ts =>
      have hne : outline kind s trail (u :: ts) ≠ [] := outline_ne_nil (by simp)
      rw [outline_cons (by simp), List.map_cons, Text.joinWith_cons,
        Text.following_of_ne_nil _ (by simpa using hne), ih (by simp),
        Text.joinWith_cons '\n' t (u :: ts), Text.following_of_ne_nil _ (by simp),
        List.append_assoc]
      rfl

theorem oneLine_outline {ts : List Text} (h : ∀ t ∈ ts, '\n' ∉ t) (ht : '\n' ∉ trail) :
    ∀ l ∈ outline kind s trail ts, '\n' ∉ l.text := by
  induction ts with
  | nil => simp [outline]
  | cons t ts ih =>
    intro l hl
    have hfirst := h t (by simp)
    cases ts with
    | nil =>
      obtain rfl := List.mem_singleton.mp hl
      rw [text_closing]
      exact s.oneLine_line hfirst ht
    | cons u ts =>
      rw [outline_cons (by simp)] at hl
      rcases List.mem_cons.mp hl with rfl | hl
      · exact hfirst
      · exact ih (fun t ht => h t (by simp [ht])) l hl

theorem candidatesFrom_outline {ts : List Text} (h : ts ≠ []) (n : Nat) :
    candidatesFrom n (outline kind s trail ts) = match kind with
      | .imports => [(n + (ts.length - 1), s.specifier)]
      | .exports => [] := by
  induction ts generalizing n with
  | nil => exact absurd rfl h
  | cons t ts ih =>
    cases ts with
    | nil => cases kind <;> rfl
    | cons u ts =>
      rw [outline_cons (by simp), candidatesFrom, ih (by simp)]
      cases kind with
      | imports =>
        simp only [List.length_cons, Nat.add_sub_cancel, List.cons.injEq, Prod.mk.injEq, and_true]
        omega
      | exports => rfl

theorem length_outline (ts : List Text) : (outline kind s trail ts).length = ts.length := by
  induction ts with
  | nil => rfl
  | cons t ts ih =>
    cases ts with
    | nil => rfl
    | cons u ts =>
      rw [outline_cons (by simp), List.length_cons, ih]
      rfl

end

theorem Statement.oneLine_trail (s : Statement) : '\n' ∉ s.trail := by
  have hform : '\n' ∉ s.form.trail := by
    cases s.form <;> simp [Form.trail, Gap.oneLine]
  simp [Statement.trail, hform, Gap.oneLine]

namespace Piece

variable (choose : Specifier → Option Text) (p : Piece)

theorem lines_ne_nil : p.lines ≠ [] := by
  cases p with
  | blank gap => simp [lines]
  | statement s => exact outline_ne_nil (Text.splitOn_ne_nil _ _)

theorem oneLine : ∀ l ∈ p.lines, '\n' ∉ l.text := by
  cases p with
  | blank gap => simpa [lines, HeaderLine.text] using gap.oneLine
  | statement s =>
    exact oneLine_outline (fun t ht => Text.not_mem_of_mem_splitOn ht) s.oneLine_trail

/-- The lines of a piece are its parts. -/
theorem joinWith_lines : Text.joinWith '\n' (p.lines.map (aliasedText choose)) =
    written (fun s => (choose s).getD s) p.parts := by
  cases p with
  | blank gap =>
    simp [lines, parts, aliasedText, HeaderLine.aliased, HeaderLine.text, Text.joinWith]
  | statement s =>
    rw [lines, Statement.lines, joinWith_outline choose (Text.splitOn_ne_nil _ _),
      Text.joinWith_splitOn, parts, Statement.parts]
    cases s.form.kind with
    | imports =>
      simp [closing, aliasedText, Source.slot, HeaderLine.aliased, HeaderLine.text,
        PlainSource.holding]
    | exports =>
      simp [closing, aliasedText, Source.line, HeaderLine.aliased, HeaderLine.text, Statement.text]

theorem length_lines : p.lines.length = p.text.count '\n' + 1 := by
  cases p with
  | blank gap => simp [lines, text, List.count_eq_zero_of_not_mem gap.oneLine]
  | statement s =>
    have htail : '\n' ∉ s.source.line [] s.trail :=
      s.source.oneLine_line (by simp) s.oneLine_trail
    have htext : s.text = s.lead ++ s.source.line [] s.trail := by
      simp [Statement.text, Source.line]
    rw [lines, Statement.lines, length_outline, Text.length_splitOn, text, htext, List.count_append,
      List.count_eq_zero_of_not_mem htail, Nat.add_zero]

end Piece

/-- The line and the specifier of a source, given what stands before it. -/
def numbered (p : Text × PlainSource) : Nat × Specifier := (1 + p.1.count '\n', p.2.specifier)

theorem Piece.candidatesFrom_lines (p : Piece) (before : Text) :
    candidatesFrom (1 + before.count '\n') p.lines = (slotsFrom before p.parts).map numbered := by
  cases p with
  | blank gap => rfl
  | statement s =>
    rw [lines, Statement.lines, candidatesFrom_outline (Text.splitOn_ne_nil _ _),
      Text.length_splitOn, parts, Statement.parts]
    cases s.form.kind with
    | imports => simp [slotsFrom, numbered, Nat.add_assoc]
    | exports => rfl

theorem candidatesFrom_append (n : Nat) (ls ls' : List HeaderLine) :
    candidatesFrom n (ls ++ ls') = candidatesFrom n ls ++ candidatesFrom (n + ls.length) ls' := by
  induction ls generalizing n with
  | nil => rfl
  | cons l ls ih =>
    have hn : n + 1 + ls.length = n + (ls.length + 1) := by omega
    cases l <;> simp [candidatesFrom, ih, hn]

/-- The slots of the pieces below a text. -/
theorem candidatesFrom_below (pieces : List Piece) (before : Text) :
    candidatesFrom (1 + (before.count '\n' + 1)) (pieces.flatMap Piece.lines) =
      (slotsFrom before (partsBelow pieces)).map numbered := by
  induction pieces generalizing before with
  | nil => rfl
  | cons p pieces ih =>
    have hline : before.count '\n' + 1 = (before ++ ['\n']).count '\n' := by simp
    have hbelow : 1 + (before ++ ['\n']).count '\n' + p.lines.length =
        1 + ((before ++ ['\n'] ++ p.text).count '\n' + 1) := by
      have hcount : (before ++ ['\n'] ++ p.text).count '\n' =
          (before ++ ['\n']).count '\n' + p.text.count '\n' := List.count_append
      rw [p.length_lines, hcount]
      omega
    rw [List.flatMap_cons, candidatesFrom_append, hline, p.candidatesFrom_lines, hbelow, ih,
      partsBelow_cons, slotsFrom, slotsFrom_append, p.written_parts, List.map_append]

theorem joinWith_below (choose : Specifier → Option Text) (pieces : List Piece) :
    Text.following '\n' ((pieces.flatMap Piece.lines).map (aliasedText choose)) =
      written (fun s => (choose s).getD s) (partsBelow pieces) := by
  induction pieces with
  | nil => rfl
  | cons p pieces ih =>
    have hne : p.lines.map (aliasedText choose) ≠ [] := by simpa using p.lines_ne_nil
    rw [List.flatMap_cons, List.map_append, Text.following_of_ne_nil _ (by simp [p.lines_ne_nil]),
      Text.joinWith_append _ hne, p.joinWith_lines, ih, partsBelow_cons, written_plain,
      written_append]
    rfl

/-- The lines of a module are its parts. -/
theorem joinWith_pieces (choose : Specifier → Option Text) (pieces : List Piece) :
    Text.joinWith '\n' ((pieces.flatMap Piece.lines).map (aliasedText choose)) =
      written (fun s => (choose s).getD s) (moduleParts pieces) := by
  cases pieces with
  | nil => rfl
  | cons p pieces =>
    have hne : p.lines.map (aliasedText choose) ≠ [] := by simpa using p.lines_ne_nil
    rw [List.flatMap_cons, List.map_append, Text.joinWith_append _ hne, p.joinWith_lines,
      joinWith_below, moduleParts, written_append]

theorem scan_moduleText {pieces : List Piece} (hne : pieces ≠ []) :
    scan (moduleText pieces) = ⟨pieces.flatMap Piece.lines, []⟩ := by
  have hlines : pieces.flatMap Piece.lines ≠ [] := by
    obtain ⟨p, rest, rfl⟩ := List.exists_cons_of_ne_nil hne
    simp [p.lines_ne_nil]
  have hone : ∀ t ∈ (pieces.flatMap Piece.lines).map HeaderLine.text, '\n' ∉ t := by
    intro t ht
    obtain ⟨l, hl, rfl⟩ := List.mem_map.mp ht
    obtain ⟨p, -, hp⟩ := List.mem_flatMap.mp hl
    exact p.oneLine l hp
  have htext : moduleText pieces =
      Text.joinWith '\n' ((pieces.flatMap Piece.lines).map HeaderLine.text) := by
    have hnone : aliasedText (fun _ => none) = HeaderLine.text := funext text_aliased_none
    rw [← written_moduleParts, ← hnone, joinWith_pieces]
    rfl
  rw [htext, scan, Text.splitOn_joinWith (by simpa using hlines) hone]
  exact (passes_flatMap Piece.passes pieces (.inl rfl) hne).scanLines

/-- The slots of a module's header are the sources of its imports. -/
theorem candidates_moduleText (pieces : List Piece) :
    (scan (moduleText pieces)).candidates = (slotsFrom [] (moduleParts pieces)).map numbered := by
  cases pieces with
  | nil => rfl
  | cons p pieces =>
    have hp : candidatesFrom 1 p.lines = (slotsFrom [] p.parts).map numbered :=
      p.candidatesFrom_lines []
    have hbelow := candidatesFrom_below pieces p.text
    rw [← p.length_lines] at hbelow
    rw [scan_moduleText (by simp), candidates, List.flatMap_cons, candidatesFrom_append, hp, hbelow,
      moduleParts, slotsFrom_append, p.written_parts, List.map_append, List.nil_append]

/-- The edit that replaces a source, if it has an alias. -/
def slotEdit? (choose : Specifier → Option Text) (p : Text × PlainSource) : Option Edit :=
  (choose p.2.specifier).map fun a => ⟨1 + p.1.count '\n', p.2.specifier, a⟩

variable {ε : Type}

theorem text_aliasHeader_moduleText (resolve : Resolver ε) (threshold : Nat) (pieces : List Piece) :
    (aliasHeader resolve threshold (moduleText pieces)).text =
      written (fun s => (resolve.choose threshold s).getD s) (moduleParts pieces) := by
  by_cases hne : pieces = []
  · subst hne
    rfl
  · rw [← joinWith_pieces]
    simp only [aliasHeader, scan_moduleText hne, aliased, text, List.append_nil, List.map_map]
    rfl

theorem edits_aliasHeader_moduleText (resolve : Resolver ε) (threshold : Nat)
    (pieces : List Piece) :
    (aliasHeader resolve threshold (moduleText pieces)).edits =
      (slotsFrom [] (moduleParts pieces)).filterMap (slotEdit? (resolve.choose threshold)) := by
  simp only [aliasHeader, edits, candidates_moduleText, List.filterMap_map]
  rfl

end ImportAlias.Header
