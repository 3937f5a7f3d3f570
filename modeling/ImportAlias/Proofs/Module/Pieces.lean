import ImportAlias.Proofs.Module.Requires

/-! Modules of import statements as the grammar reads them: the whole text fits, and the tree shows
the statements. -/
namespace ImportAlias.Grammar

open Phrase Header

variable {w r : Text}

/-! Statements -/

theorem isTypeMark_typedText (typed : Option Separator) : IsTypeMark (typedText typed) := by
  cases typed with
  | none => exact .inl rfl
  | some s => exact .inr ⟨s.text, s.isBlank, s.ne_nil, rfl⟩

/-- The clause of an import does not start with a mark of a type. -/
theorem clear_imported (word : Separator) (x : Imported) (r : Text) :
    Clear ["type", "typeof"] [] (word.text ++ (x.text ++ r)) := by
  cases x with
  | single n after =>
    rw [Imported.text, List.append_assoc]
    exact clear_name word.isBlank n (after.apart r) (by decide) rfl
  | group first rest =>
    cases first with
    | none =>
      cases rest with
      | braces members after => exact clear_mark word.isBlank (by decide) (by simp) _
      | star afterStar afterAs n after => exact clear_mark word.isBlank (by decide) (by simp) _
    | some d =>
      have hcomma : Apart (d.before.text ++ ',' :: (d.after.text ++ (rest.text ++ r))) :=
        (isMark_comma.apart _).blank d.before.isBlank
      have hname : Clear ["type", "typeof"] [] (word.text ++ (d.name.text ++ (d.before.text ++
          ',' :: (d.after.text ++ (rest.text ++ r))))) :=
        clear_name word.isBlank d.name hcomma (by decide) rfl
      simpa [Imported.text, firstText, defaultText, Default.toDefaultName] using hname

/-- What a statement is read for. -/
def found (w : Text) (form : Form) (s : PlainSource) : Found :=
  match form with
  | .importFrom .. | .importOnly .. | .importEquals .. =>
    .literal .imported (w ++ form.lead) s.mark s.specifier
  | .declaration .. => .literal .required (w ++ form.lead) s.mark s.specifier
  | .exportFrom .. => .exported

theorem reads_exportFrom (hw : Blank w) (word : Separator) (x : Exported) (gap : Padding)
    (s : PlainSource) (before : Padding) (r : Text) :
    Reads 160 (.rule .statement) (w ++ ("export".toList ++ (word.text ++ (x.text ++
      reexportText gap s before r)))) .exported r := by
  cases x with
  | braces typed members after =>
    cases typed with
    | none =>
      have hbody := reads_exportBraces word.isBlank gap s before r members after
      simpa [Exported.text, typedText, typeWord, braced] using reads_exportStatement hw word hbody
    | some typed =>
      have hbody := reads_exportTypeBraces word.isBlank gap s before r typed members after
      simpa [Exported.text, typedText, typeWord, braced] using reads_exportStatement hw word hbody
  | star after =>
    have hbody := reads_exportStar word.isBlank gap s before r after
    simpa [Exported.text] using reads_exportStatement hw word hbody
  | starAs afterStar afterAs n after =>
    have hbody := reads_exportStarAs word.isBlank gap s before r afterStar afterAs n after
    simpa [Exported.text] using reads_exportStatement hw word hbody

/-- Every form of a statement is read up to its semicolon. -/
theorem reads_form (hw : Blank w) (form : Form) (s : PlainSource) (before : Padding) (r : Text) :
    Reads 200 (.rule .statement)
      (w ++ (form.lead ++ sourceText s (form.trail ++ (before.text ++ ';' :: r))))
      (found w form s) r := by
  cases form with
  | importFrom word typed clause gap =>
    have hp : ∀ v, Blank v → Reads 110 importBody
        (v ++ (clause.text ++ ("from".toList ++ (gap.text ++
          sourceText s (before.text ++ ';' :: r)))))
        ((Found.source (clause.text ++ ("from".toList ++ gap.text)) s.mark s.specifier).after v)
        (before.text ++ ';' :: r) := fun v hv => reads_importFrom hv clause gap s _
    have h := reads_importStatement hw word.isBlank (isTypeMark_typedText typed) (word.apart _)
      (clear_imported word clause _) before hp
    simpa only [found, Form.lead_importFrom, Form.trail, List.append_assoc, List.nil_append] using
      h.mono (by omega)
  | importOnly gap =>
    have hclear : Clear ["type", "typeof"] []
        (gap.text ++ sourceText s (before.text ++ ';' :: r)) :=
      clear_mark gap.isBlank s.isMark (by simp) _
    have hp : ∀ v, Blank v → Reads 110 importBody (v ++ sourceText s (before.text ++ ';' :: r))
        ((Found.source [] s.mark s.specifier).after v) (before.text ++ ';' :: r) := by
      intro v hv
      have hsource := reads_importOnly hv s (before.text ++ ';' :: r)
      rwa [Found.after, List.append_nil]
    have h := reads_importStatement (t := []) (r := sourceText s (before.text ++ ';' :: r)) hw
      gap.isBlank (.inl rfl) (apart_source gap s _) hclear before hp
    rw [List.nil_append, List.nil_append, List.append_nil] at h
    simpa only [found, Form.lead_importOnly, Form.trail, List.append_assoc, List.nil_append] using
      h.mono (by omega)
  | importEquals word typed n call =>
    have hclear : Clear ["type", "typeof"] [] (word.text ++ (n.text ++ (call.lead ++
        sourceText s (closeText call (before.text ++ ';' :: r))))) :=
      clear_name word.isBlank n (apart_call call _) (by decide) rfl
    have hp : ∀ v, Blank v → Reads 110 importBody (v ++ (n.text ++ (call.lead ++
        sourceText s (closeText call (before.text ++ ';' :: r)))))
        ((Found.source (n.text ++ call.lead) s.mark s.specifier).after v)
        (before.text ++ ';' :: r) := fun v hv => reads_importEquals hv n call s _
    have h := reads_importStatement hw word.isBlank (isTypeMark_typedText typed) (word.apart _)
      hclear before hp
    simpa only [found, Form.lead_importEquals, Form.trail, closeText, List.append_assoc,
      List.singleton_append] using h.mono (by omega)
  | declaration keyword isKeyword word bound call =>
    have h := reads_declaration isKeyword hw word bound call s before r
    simpa only [found, Form.lead_declaration, Form.trail, closeText, List.append_assoc,
      List.singleton_append] using h.mono (by omega)
  | exportFrom word clause gap =>
    have h := reads_exportFrom hw word clause gap s before r
    simpa only [found, Form.lead_exportFrom, Form.trail, reexportText, List.append_assoc,
      List.nil_append] using h.mono (by omega)

/-! Modules -/

/-- White space and a text are read as statements up to white space, and the mentions are found. -/
def Runs (before w t : Text) (mentions : List Mention) : Prop :=
  ∃ a u, Repeats .typeScript 200 (.rule .statement) (w ++ t) a u ∧ Blank u ∧
    ∀ id, mentionsAt (before ++ (w ++ t)) (Text.byteSize before) id a = some mentions

theorem runs_nil (before : Text) (hw : Blank w) : Runs before w [] [] := by
  have hnone : Refuses .typeScript (.rule .statement) (w ++ []) := by
    simpa using refuses_statement_blank hw
  exact ⟨[], _, fun n m hn hm => hnone.repeats n m (by omega) hm, by simpa using hw, fun _ => rfl⟩

theorem Runs.blank {before t u : Text} {mentions : List Mention}
    (h : Runs before (w ++ t) u mentions) : Runs before w (t ++ u) mentions := by
  simpa [Runs] using h

/-- What is found in a statement is what it is. -/
theorem mentionsAt_found {a : List Tree} {form : Form} {s : PlainSource}
    (h : Shows (found w form s) a) (front back : Text) (id : Nat) :
    mentionsAt (front ++ (Tree.textOf a ++ back)) (Text.byteSize front) id a =
      some [form.mention (slotLiteral (front ++ (w ++ form.lead), s))] := by
  cases form <;> first
    | simpa [found, Form.mention, slotLiteral] using h front back id
    | exact h _ _ _

/-- A statement is read, and then what is behind it. -/
theorem runs_statement {before t : Text} {mentions : List Mention} (hw : Blank w) (s : Statement)
    (h : ∀ before' w', Blank w' → before' ++ w' = before ++ (w ++ s.text) →
      Runs before' w' t mentions) :
    Runs before w (s.text ++ t) ((Piece.statement s).mentions (before ++ w) ++ mentions) := by
  obtain ⟨a, ha, hshows⟩ := reads_form (hw.append s.indent.isBlank) s.form s.source s.before
    (s.after.text ++ t)
  have htext : w ++ s.indent.text ++ (s.form.lead ++ sourceText s.source (s.form.trail ++
      (s.before.text ++ ';' :: (s.after.text ++ t)))) = w ++ (s.text ++ t) := by
    simp [sourceText, Statement.text, Source.line, Statement.lead, Statement.trail]
  rw [htext] at ha
  have hread : w ++ s.text = Tree.textOf a ++ s.after.text := by
    have hall := ha.text
    rw [← List.append_assoc, ← List.append_assoc] at hall
    exact List.append_cancel_right hall
  have hplace : before ++ (w ++ (s.text ++ t)) =
      before ++ (Tree.textOf a ++ (s.after.text ++ t)) := by
    rw [← List.append_assoc w, hread, List.append_assoc]
  obtain ⟨b, u, hb, hu, hmentions⟩ := h (before ++ Tree.textOf a) s.after.text s.after.isBlank
    (by rw [hread, List.append_assoc])
  have hlt : (s.after.text ++ t).length < (w ++ (s.text ++ t)).length := by
    simp [Statement.text, Source.line, Statement.trail]
    omega
  refine ⟨a ++ b, u, ha.repeats hlt hb, hu, fun id => ?_⟩
  have hstatement := mentionsAt_found hshows before (s.after.text ++ t) id
  have hrest := hmentions (id + Tree.countOf a)
  rw [Text.byteSize_append, List.append_assoc, ← hplace] at hrest
  rw [mentionsAt_append, hrest, hplace, hstatement]
  simp [Piece.mentions, Statement.lead]

theorem runs_piece {before t : Text} {mentions : List Mention} (hw : Blank w) (p : Piece)
    (h : ∀ before' w', Blank w' → before' ++ w' = before ++ (w ++ p.text) →
      Runs before' w' t mentions) :
    Runs before w (p.text ++ t) (p.mentions (before ++ w) ++ mentions) := by
  cases p with
  | blank gap =>
    exact (h before (w ++ gap.text) (hw.append gap.isBlank) rfl).blank
  | statement s => exact runs_statement hw s h

theorem runs_following (pieces : List Piece) : ∀ before w, Blank w →
    Runs before w (Text.following '\n' (pieces.map Piece.text))
      (mentionsFrom (before ++ (w ++ ['\n'])) pieces) := by
  induction pieces with
  | nil => exact fun before w hw => runs_nil before hw
  | cons p pieces ih =>
    intro before w hw
    have hline : Blank (w ++ ['\n']) := hw.append (by simp [Blank, isSpace, Text.isBlank, nextLine])
    have hpiece : Runs before (w ++ ['\n']) (p.text ++ Text.following '\n' (pieces.map Piece.text))
        (mentionsFrom (before ++ (w ++ ['\n'])) (p :: pieces)) := by
      refine runs_piece hline p fun before' w' hw' heq => ?_
      have hrest := ih before' w' hw'
      rwa [← List.append_assoc, heq, ← List.append_assoc before,
        List.append_assoc _ p.text] at hrest
    rw [List.map_cons, Text.following, Text.joinWith_cons]
    exact hpiece.blank

theorem runs_moduleText (pieces : List Piece) :
    Runs [] [] (moduleText pieces) (moduleMentions pieces) := by
  cases pieces with
  | nil => exact runs_nil [] blank_nil
  | cons p pieces =>
    have hpiece : Runs [] [] (p.text ++ Text.following '\n' (pieces.map Piece.text))
        (moduleMentions (p :: pieces)) := by
      refine runs_piece blank_nil p fun before w hw heq => ?_
      have hrest := runs_following pieces before w hw
      rwa [← List.append_assoc, heq] at hrest
    rwa [moduleText, List.map_cons, Text.joinWith_cons]

/-! The text does not start with an interpreter line. -/

theorem interpreterLine_eq_none {t : Text} (h : t.head? ≠ some '#') :
    Scan.interpreterLine t = none := by
  unfold Scan.interpreterLine
  split
  · simp at h
  · rfl

theorem head?_gap (g : Padding) {t : Text} (h : t.head? ≠ some '#') :
    (g.text ++ t).head? ≠ some '#' := by
  cases hg : g.text with
  | nil => simpa using h
  | cons c u =>
    have hc : isSpace c = true := g.isBlank c (by simp [hg])
    rintro he
    obtain rfl : c = '#' := by simpa using he
    exact absurd hc (by decide)

theorem head?_form (form : Form) (t : Text) : (form.lead ++ t).head? ≠ some '#' := by
  have hletter : ∀ {c : Char} {u : Text}, c ≠ '#' → (c :: u).head? ≠ some '#' := by simp
  cases form with
  | importFrom word typed clause gap => exact hletter (c := 'i') (by decide)
  | importOnly gap => exact hletter (c := 'i') (by decide)
  | importEquals word typed n call => exact hletter (c := 'i') (by decide)
  | declaration keyword isKeyword word bound call =>
    simp only [List.mem_cons, List.not_mem_nil, or_false] at isKeyword
    rcases isKeyword with rfl | rfl | rfl
    · exact hletter (c := 'c') (by decide)
    · exact hletter (c := 'l') (by decide)
    · exact hletter (c := 'v') (by decide)
  | exportFrom word clause gap => exact hletter (c := 'e') (by decide)

theorem head?_piece (p : Piece) {t : Text} (h : t.head? ≠ some '#') :
    (p.text ++ t).head? ≠ some '#' := by
  cases p with
  | blank gap => exact head?_gap gap h
  | statement s =>
    have htext : s.text ++ t =
        s.indent.text ++ (s.form.lead ++ sourceText s.source (s.trail ++ t)) := by
      simp [Statement.text, Source.line, Statement.lead, sourceText]
    rw [Piece.text, htext]
    exact head?_gap s.indent (head?_form s.form _)

theorem interpreterLine_moduleText (pieces : List Piece) :
    Scan.interpreterLine (moduleText pieces) = none := by
  refine interpreterLine_eq_none ?_
  cases pieces with
  | nil => simp [moduleText, Text.joinWith]
  | cons p pieces =>
    rw [moduleText, List.map_cons, Text.joinWith_cons]
    refine head?_piece p ?_
    cases pieces <;> simp [Text.following]

theorem gives_trivia (hw : Blank w) : Gives .typeScript 3 trivia w (spaces w) [] := by
  intro n hn
  obtain ⟨n, rfl⟩ : ∃ m, n = m + 3 := ⟨n - 3, by omega⟩
  have hcode := code_of_blank hw
  have htake : w.takeWhile isSpace = w := List.takeWhile_eq_self_iff.mpr hw
  have hread : read Dialect.typeScript.rules (n + 3) trivia w = _ :=
    read_trivia (by rw [Bare, hcode]; rfl) n
  rw [hread, hcode, htake]

/-- The whole text fits the grammar, and the tree shows the statements. -/
theorem mentions?_read_moduleText (pieces : List Piece) :
    (Dialect.read .typeScript (moduleText pieces)).hasErrors = false ∧
    (Dialect.read .typeScript (moduleText pieces)).root.mentions? (moduleText pieces) =
      some (moduleMentions pieces) := by
  obtain ⟨a, u, ha, hu, hmentions⟩ := runs_moduleText pieces
  rw [List.nil_append] at ha
  have hfirst : Gives .typeScript 2 (.choice [.token .comment Scan.interpreterLine, .seq []])
      (moduleText pieces) [] (moduleText pieces) :=
    (refuses_token (interpreterLine_moduleText pieces)).choice gives_seq_nil.choice
  have hseq : Gives .typeScript 210 program (moduleText pieces) _ [] :=
    (hfirst.seq (ha.many.seq ((gives_trivia hu).seq gives_seq_nil))).mono (by omega)
  rw [List.nil_append, List.append_nil] at hseq
  have hparse : parse? .typeScript (moduleText pieces) = some (a ++ spaces u) := by
    rw [parse?, hseq _ (by simp [depthPerCharacter]; omega)]
  have hall : mentionsAt (moduleText pieces) 0 1 (a ++ spaces u) =
      some (moduleMentions pieces) := by
    have hzero : mentionsAt (moduleText pieces) 0 1 a = some (moduleMentions pieces) := hmentions 1
    rw [mentionsAt_append, (silent_spaces u).mentions, hzero]
    simp
  rw [Dialect.read, hparse]
  refine ⟨rfl, ?_⟩
  rw [mentionsAt] at hall
  rw [Concrete.mentions?, hall]
  rfl

end ImportAlias.Grammar
