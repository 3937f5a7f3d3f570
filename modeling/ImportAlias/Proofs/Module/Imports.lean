import ImportAlias.Proofs.Module.Members

/-! Imports and re-exports as the grammar reads them: an import is found in its tree with its
literal, and a re-export is found. -/
namespace ImportAlias.Grammar

open Phrase Header

variable {k : Nat} {g : Phrase} {gs : List Phrase} {t u v w r : Text}

def sourceText (s : PlainSource) (r : Text) : Text := s.quote :: (s.specifier ++ s.quote :: r)

theorem apart_source (g : Padding) (s : PlainSource) (r : Text) :
    Apart (g.text ++ sourceText s r) :=
  (s.isMark.apart _).blank g.isBlank

/-- A phrase for a statement up to its semicolon, which ends where the next white space starts. -/
theorem reads_semicolon (g : Padding) (r : Text) :
    Reads 5 (semicolon .typeScript) (g.text ++ ';' :: r) .nothing r :=
  (reads_mark rfl g.isBlank (by decide) r).choice

theorem reads_fromClause (hw : Blank w) (gap : Padding) (s : PlainSource) (r : Text) :
    Reads 6 fromClause (w ++ ("from".toList ++ (gap.text ++ sourceText s r)))
      (.source (w ++ ("from".toList ++ gap.text)) s.mark s.specifier) r := by
  have hword : Reads 4 (keyword "from") (w ++ ("from".toList ++ (gap.text ++ sourceText s r)))
      .nothing (gap.text ++ sourceText s r) := reads_keyword hw (by decide) (apart_source gap s r)
  have hsource := (reads_source gap.isBlank s r).single
  have hseq := hword.seq (w := w ++ "from".toList) (by simp [sourceText]) hsource
  simpa [Found.after, fromClause] using hseq

/-! Import clauses -/

theorem refuses_group_name (hw : Blank w) (n : Name) (hr : Apart r) :
    Refuses .typeScript (importClause.group .typeScript) (w ++ (n.text ++ r)) := by
  have hclear : Clear [] ['*', '\x7b'] (w ++ (n.text ++ r)) := clear_name hw n hr (by simp) rfl
  exact refuses_choice_cons (refuses_node (refuses_seq_cons (hclear.literal (by decide))))
    (refuses_choice_cons (refuses_node (refuses_seq_cons (hclear.literal (by decide))))
      refuses_choice_nil)

/-- `* as name`. -/
theorem reads_star {p : Phrase} (hw : Blank w) (afterStar : Padding) (afterAs : Separator)
    (n : Name) (h : Reads k p (afterAs.text ++ (n.text ++ r)) .nothing r) :
    Reads (k + 10) (.seq [mark "*", keyword "as", p])
      (w ++ (starText afterStar afterAs n.toIdentifier ++ r)) .nothing r := by
  have hstar : Reads 4 (mark "*") (w ++ '*' :: (afterStar.text ++ ("as".toList ++ (afterAs.text ++
      (n.text ++ r))))) .nothing _ := reads_mark rfl hw (by decide) _
  have has := (reads_keyword (s := "as") afterStar.isBlank (by decide)
    (afterAs.apart (n.text ++ r))).seq_nothing h.single
  simpa [starText] using (hstar.seq_nothing has).mono (by omega)

theorem reads_group (hw : Blank w) (x : Group) (r : Text) :
    ∃ v, Blank v ∧
      Reads 80 (importClause.group .typeScript) (w ++ (x.text ++ r)) .nothing (v ++ r) := by
  cases x with
  | braces members after =>
    have hclear : Clear [] ['*'] (w ++ braced members (after.text ++ r)) :=
      clear_mark hw (by decide) (by simp) _
    have hskip : Refuses .typeScript
        (named "namespace import" [mark "*", keyword "as", name])
        (w ++ braced members (after.text ++ r)) :=
      refuses_node (refuses_seq_cons (hclear.literal (by decide)))
    have hlist := (reads_namedImports hw members (after.text ++ r)).final.skip hskip
    refine ⟨after.text, after.isBlank, ?_⟩
    simpa [Group.text, braced, importClause.group] using hlist.mono (by omega)
  | star afterStar afterAs n after =>
    have hname := reads_name afterAs.isBlank n (after.apart r)
    have hstar := (reads_star hw afterStar afterAs n hname).named (s := "namespace import")
      (by simp)
    refine ⟨after.text, after.isBlank, ?_⟩
    simpa [Group.text, importClause.group] using hstar.choice.mono (by omega)

/-- The word that the source follows. -/
def IsFrom (r : Text) : Prop := ∃ t, Apart t ∧ r = "from".toList ++ t

theorem IsFrom.clear (h : IsFrom r) (hv : Blank v) : Clear [] [','] (v ++ r) := by
  obtain ⟨t, ht, rfl⟩ := h
  exact clear_word hv (by decide) ht (by simp) rfl

/-- The ways to write an import clause. -/
def importBindings : Phrase :=
  .choice [importClause.group .typeScript,
    .seq [name, optional (.seq [mark ",", importClause.group .typeScript])]]

theorem Reads.importClause (h : Reads k importBindings t .nothing u) :
    Reads (k + 10) (importClause .typeScript) t .nothing u :=
  (h.single.named (by simp)).mono (by omega)

theorem reads_importClause (hw : Blank w) (x : Imported) (hr : IsFrom r) :
    ∃ v, Blank v ∧
      Reads 100 (importClause .typeScript) (w ++ (x.text ++ r)) .nothing (v ++ r) := by
  cases x with
  | single n after =>
    have hapart := after.apart r
    have hnone : Refuses .typeScript (.seq [mark ",", importClause.group .typeScript])
        (after.text ++ r) := refuses_seq_cons ((hr.clear after.isBlank).literal (by decide))
    have hseq := (reads_name hw n hapart).seq_nothing (reads_optional hnone).single
    have hchoice := hseq.final.skip (refuses_group_name hw n hapart)
    refine ⟨after.text, after.isBlank, ?_⟩
    simpa [Imported.text] using (Reads.importClause hchoice).mono (by omega)
  | group first rest =>
    cases first with
    | none =>
      obtain ⟨v, hv, hgroup⟩ := reads_group hw rest r
      have hclause := Reads.importClause hgroup.choice
      refine ⟨v, hv, ?_⟩
      simpa [Imported.text, firstText, defaultText] using hclause.mono (by omega)
    | some d =>
      obtain ⟨n, before, after⟩ := d
      obtain ⟨v, hv, hgroup⟩ := reads_group after.isBlank rest r
      have hapart : Apart (before.text ++ ',' :: (after.text ++ (rest.text ++ r))) :=
        (isMark_comma.apart _).blank before.isBlank
      have hrest := (reads_comma before.isBlank hgroup).optional
      have hseq := (reads_name hw n hapart).seq_nothing hrest.single
      have hchoice := hseq.final.skip (refuses_group_name hw n hapart)
      have hclause := Reads.importClause hchoice
      refine ⟨v, hv, ?_⟩
      simpa [Imported.text, firstText, defaultText, Default.toDefaultName] using
        hclause.mono (by omega)

/-! Import statements -/

/-- What follows `import`, behind a mark of a type. -/
def importBody : Phrase :=
  .choice [.seq [importClause .typeScript, fromClause],
    .seq [name, assign, keyword "require", mark "(", source, mark ")"], source]

theorem reads_importStatement {s b : Text} {q : Quote} (hw : Blank w) (hv : Blank v)
    (ht : IsTypeMark t) (hapart : Apart (v ++ (t ++ r)))
    (hclear : Clear ["type", "typeof"] [] (v ++ r)) (before : Padding)
    (hp : ∀ w, Blank w →
      Reads k importBody (w ++ r) ((Found.source s q b).after w) (before.text ++ ';' :: u)) :
    Reads (k + 30) (.rule .statement) (w ++ ("import".toList ++ (v ++ (t ++ r))))
      (.literal .imported (w ++ ("import".toList ++ (v ++ (t ++ s)))) q b) u := by
  have hbody := reads_typeMarked ht hv hclear hp
  have hattributes : Refuses .typeScript (named "attributes" [keyword "with", object .typeScript])
      (before.text ++ ';' :: u) :=
    refuses_node (refuses_seq_cons (refuses_keyword before.isBlank (by decide) u))
  have htail := (reads_optional hattributes).seq_nothing (reads_semicolon before u).single
  have hword : Reads 4 (keyword "import") (w ++ ("import".toList ++ (v ++ (t ++ r)))) .nothing
      (v ++ (t ++ r)) := reads_keyword hw (by decide) hapart
  obtain ⟨a, ha, hs⟩ := hword.seq (w := w ++ "import".toList) (by simp) (hbody.seq_nothing htail)
  have hnode : Reads (k + 20) (importStatement .typeScript) _ _ u :=
    ⟨_, ha.node.mono (by omega), hs.importStatement⟩
  have hstatement : Reads (k + 21) (statementRule .typeScript) _ _ u := hnode.choice
  have hrule : Reads (k + 22) (.rule .statement) _ _ u := Reads.rule hstatement
  simpa [Found.after] using hrule.mono (by omega)

theorem reads_importFrom (hw : Blank w) (x : Imported) (gap : Padding) (s : PlainSource)
    (r : Text) :
    Reads 110 importBody (w ++ (x.text ++ ("from".toList ++ (gap.text ++ sourceText s r))))
      (.source (w ++ (x.text ++ ("from".toList ++ gap.text))) s.mark s.specifier) r := by
  have hfrom : IsFrom ("from".toList ++ (gap.text ++ sourceText s r)) :=
    ⟨_, apart_source gap s r, rfl⟩
  obtain ⟨v, hv, hclause⟩ := reads_importClause hw x hfrom
  rw [← List.append_assoc] at hclause
  have hseq := hclause.seq_at (f := .source ("from".toList ++ gap.text) s.mark s.specifier)
    (reads_fromClause hv gap s r).single
  simpa [importBody, Found.after] using hseq.choice.mono (by omega)

theorem reads_importOnly (hw : Blank w) (s : PlainSource) (r : Text) :
    Reads 110 importBody (w ++ sourceText s r) (.source w s.mark s.specifier) r := by
  have hclear : Clear [] ['*', '\x7b'] (w ++ sourceText s r) := by
    refine clear_mark hw s.isMark ?_ _
    rcases s.isQuote with hq | hq <;> rw [hq] <;> decide
  have hname : Refuses .typeScript name (w ++ sourceText s r) :=
    refuses_word hclear.bare (nextWord_mark hw s.isMark _)
  have hgroup : Refuses .typeScript (importClause.group .typeScript) (w ++ sourceText s r) :=
    refuses_choice_cons (refuses_node (refuses_seq_cons (hclear.literal (by decide))))
      (refuses_choice_cons (refuses_node (refuses_seq_cons (hclear.literal (by decide))))
        refuses_choice_nil)
  have hclause : Refuses .typeScript (importClause .typeScript) (w ++ sourceText s r) :=
    refuses_node (refuses_seq_cons (refuses_choice_cons hgroup
      (refuses_choice_cons (refuses_seq_cons hname) refuses_choice_nil)))
  have hsource := (reads_source hw s r).final
  exact ((hsource.skip (refuses_seq_cons hname)).skip (refuses_seq_cons hclause)).mono (by omega)

/-! `import name = require("…")` -/

/-- `= require(` up to the quote, with what follows it. -/
theorem call_lead_append (call : Call) (r : Text) : call.lead ++ r =
    call.beforeSign.text ++ '=' :: (call.afterSign.text ++ ("require".toList ++
      (call.afterWord.text ++ '(' :: (call.beforeSource.text ++ r)))) := by
  simp [Call.lead]

theorem head?_afterSign (g : Padding) (r : Text) :
    ∀ c, (g.text ++ ("require".toList ++ r)).head? = some c → c ∉ "=>".toList := by
  intro c hc
  cases hg : g.text with
  | nil =>
    obtain rfl : 'r' = c := by simpa [hg] using hc
    decide
  | cons e t =>
    obtain rfl : e = c := by simpa [hg] using hc
    have he := g.isBlank e (by simp [hg])
    have hall : "=>".toList.all (fun c => !isSpace c) = true := by decide
    intro hmem
    have := List.all_eq_true.mp hall e hmem
    simp [he] at this

theorem apart_call (call : Call) (r : Text) : Apart (call.lead ++ r) := by
  rw [call_lead_append]
  exact (IsMark.apart (by decide) _).blank call.beforeSign.isBlank

def closeText (call : Call) (r : Text) : Text := call.afterSource.text ++ ')' :: r

/-- `= require("…")` with a source between the brackets. -/
theorem reads_requireSource (call : Call) (s : PlainSource) (r : Text) :
    Reads 20 (.seq [assign, keyword "require", mark "(", source, mark ")"])
      (call.lead ++ sourceText s (closeText call r)) (.source call.lead s.mark s.specifier) r := by
  have hclose : Reads 4 (mark ")") (closeText call r) .nothing r :=
    reads_mark rfl call.afterSource.isBlank (by decide) r
  have hsource := (reads_source call.beforeSource.isBlank s (closeText call r)).seq_nothing
    hclose.single
  have hopen : Reads 4 (mark "(") (call.afterWord.text ++ '(' :: (call.beforeSource.text ++
      sourceText s (closeText call r))) .nothing _ :=
    reads_mark rfl call.afterWord.isBlank (by decide) _
  have hword : Reads 4 (keyword "require") (call.afterSign.text ++ ("require".toList ++
      (call.afterWord.text ++ '(' :: (call.beforeSource.text ++
        sourceText s (closeText call r))))) .nothing _ :=
    reads_keyword call.afterSign.isBlank (by decide)
      ((IsMark.apart (by decide) _).blank call.afterWord.isBlank)
  have hsign : Reads 4 assign (call.beforeSign.text ++ '=' :: (call.afterSign.text ++
      ("require".toList ++ (call.afterWord.text ++ '(' :: (call.beforeSource.text ++
        sourceText s (closeText call r)))))) .nothing _ :=
    reads_assign call.beforeSign.isBlank (head?_afterSign call.afterSign _)
  have harguments := hopen.seq (w := call.afterWord.text ++ ['(']) (by simp) hsource
  have hcall := hword.seq (w := call.afterSign.text ++ "require".toList) (by simp) harguments
  have hall := hsign.seq (w := call.beforeSign.text ++ ['=']) (by simp) hcall
  simpa [Found.after, Call.lead] using hall.mono (by omega)

theorem reads_importEquals (hw : Blank w) (n : Name) (call : Call) (s : PlainSource) (r : Text) :
    Reads 110 importBody (w ++ (n.text ++ (call.lead ++ sourceText s (closeText call r))))
      (.source (w ++ (n.text ++ call.lead)) s.mark s.specifier) r := by
  have hapart := apart_call call (sourceText s (closeText call r))
  have hclause : Refuses .typeScript (.seq [importClause .typeScript, fromClause])
      (w ++ (n.text ++ (call.lead ++ sourceText s (closeText call r)))) := by
    have hsign : Clear ["from"] [','] (call.lead ++ sourceText s (closeText call r)) := by
      rw [call_lead_append]
      exact clear_mark call.beforeSign.isBlank (by decide) (by simp) _
    have hgroup : Refuses .typeScript (.seq [mark ",", importClause.group .typeScript])
        (call.lead ++ sourceText s (closeText call r)) :=
      refuses_seq_cons (hsign.literal (by decide))
    have hname : Settles .typeScript
        (.seq [name, optional (.seq [mark ",", importClause.group .typeScript])]) _ _ _ :=
      (settles_word hw n.isWord hapart).seq ((idle_optional hgroup).seq idle_seq_nil)
    have hbindings : Settles .typeScript importBindings _ _ _ :=
      (refuses_group_name hw n hapart).settles.choice (hname.choice refuses_choice_nil.settles)
    exact (hbindings.seq idle_seq_nil).node.refuses_seq
      (refuses_seq_cons (refuses_seq_cons (hsign.keyword (by decide))))
  have hseq := (reads_name hw n hapart).seq (w := w ++ n.text) (by simp)
    (reads_requireSource call s r)
  have hbody : Reads 110 importBody _ _ r := (hseq.choice.skip hclause).mono (by omega)
  simpa [Found.after] using hbody

/-! Re-exports -/

/-- A source is found, whatever stands in front of it. -/
def ReadsSource (k : Nat) (g : Phrase) (t : Text) (s : PlainSource) (u : Text) : Prop :=
  ∃ x, Reads k g t (.source x s.mark s.specifier) u

theorem Reads.seq_source {k' : Nat} {s : PlainSource} (h : Reads k g t .nothing u)
    (hs : ReadsSource k' (.seq gs) u s v) : ReadsSource (max k k' + 1) (.seq (g :: gs)) t s v := by
  obtain ⟨x, hx⟩ := hs
  obtain ⟨a, ha, -⟩ := id h
  exact ⟨_, h.seq ha.text hx⟩

theorem ReadsSource.mono {k' : Nat} {s : PlainSource} (h : ReadsSource k g t s u) (hk : k ≤ k') :
    ReadsSource k' g t s u := by
  obtain ⟨x, hx⟩ := h
  exact ⟨x, hx.mono hk⟩

theorem ReadsSource.choice {s : PlainSource} (h : ReadsSource k g t s u) :
    ReadsSource (k + 1) (.choice (g :: gs)) t s u := by
  obtain ⟨x, hx⟩ := h
  exact ⟨x, hx.choice⟩

theorem ReadsSource.skip {s : PlainSource} (h : ReadsSource k (.choice gs) t s u)
    (hg : Refuses .typeScript g t) : ReadsSource k (.choice (g :: gs)) t s u := by
  obtain ⟨x, hx⟩ := h
  exact ⟨x, hx.skip hg⟩

/-- The ways to write what follows `export`. -/
def exportBody (d : Dialect) : Phrase :=
  .choice [
    .seq [mark "*", optional (.seq [keyword "as", exportName]), fromClause, semicolon d],
    .seq [exportClause d, optional fromClause, semicolon d],
    .seq [keyword "default", .choice [.rule .declaration,
      .seq [.absent (namedDefinition d), ended expression, semicolon d]]],
    .rule .declaration,
    only d.typed (.choice [
      .seq [keyword "type", exportClause d, optional fromClause, semicolon d],
      importAlias d,
      .seq [assign, ended expression, semicolon d],
      .seq [keyword "as", keyword "namespace", name, semicolon d]])]

theorem exportStatement_eq (d : Dialect) : exportStatement d =
    .node .exportStatement (.seq [.many (decorator d), keyword "export", exportBody d]) := rfl

theorem reads_exportStatement {s : PlainSource} (hw : Blank w) (word : Separator)
    (h : ReadsSource k (exportBody .typeScript) (word.text ++ r) s u) :
    Reads (k + 30) (.rule .statement) (w ++ ("export".toList ++ (word.text ++ r))) .exported u := by
  have hclear : Clear ["import"] ['@'] (w ++ ("export".toList ++ (word.text ++ r))) :=
    clear_word hw (by decide) (word.apart r) (by decide) rfl
  have hword : Reads 4 (keyword "export") (w ++ ("export".toList ++ (word.text ++ r))) .nothing
      (word.text ++ r) := reads_keyword hw (by decide) (word.apart r)
  have hmany := reads_many (refuses_decorator (d := .typeScript) (hclear.mono (by simp) (by simp)))
  obtain ⟨x, hx⟩ := h
  obtain ⟨y, a, ha, hs⟩ := hmany.seq_source (hword.seq_source ⟨x, hx.single⟩)
  have hnode : Reads (k + 20) (exportStatement .typeScript)
      (w ++ ("export".toList ++ (word.text ++ r))) .exported u := by
    rw [exportStatement_eq]
    exact ⟨_, ha.node.mono (by omega), Shows.exportStatement hs⟩
  have hskip : Refuses .typeScript (importStatement .typeScript) _ :=
    refuses_importStatement (hclear.mono (by simp) (by simp))
  have hstatement : Reads (k + 21) (statementRule .typeScript) _ .exported u :=
    hnode.choice.skip hskip
  have hrule : Reads (k + 22) (.rule .statement) _ .exported u := Reads.rule hstatement
  exact hrule.mono (by omega)

/-- `from "…";` after what is passed on. -/
def reexportText (gap : Padding) (s : PlainSource) (before : Padding) (r : Text) : Text :=
  "from".toList ++ (gap.text ++ sourceText s (before.text ++ ';' :: r))

section

variable (hw : Blank w) (gap : Padding) (s : PlainSource) (before : Padding) (r : Text)
include hw

theorem reads_reexported : ReadsSource 20 (.seq [fromClause, semicolon .typeScript])
    (w ++ reexportText gap s before r) s r :=
  ⟨_, ((reads_fromClause hw gap s _).seq_nothing (reads_semicolon before r).single).mono (by omega)⟩

theorem reads_optional_reexported :
    ReadsSource 20 (.seq [optional fromClause, semicolon .typeScript])
      (w ++ reexportText gap s before r) s r :=
  ⟨_, ((reads_fromClause hw gap s _).optional.seq_nothing
    (reads_semicolon before r).single).mono (by omega)⟩

theorem reads_exportStar (after : Padding) : ReadsSource 130 (exportBody .typeScript)
    (w ++ '*' :: (after.text ++ reexportText gap s before r)) s r := by
  have hfrom : Clear ["as"] [] (after.text ++ reexportText gap s before r) :=
    clear_word after.isBlank (by decide) (apart_source gap s _) (by decide) rfl
  have hnone : Refuses .typeScript (.seq [keyword "as", exportName]) _ :=
    refuses_seq_cons (hfrom.keyword (by decide))
  have hrest := (reads_optional hnone).seq_source (reads_reexported after.isBlank gap s before r)
  have hstar : Reads 4 (mark "*") (w ++ '*' :: (after.text ++ reexportText gap s before r))
      .nothing _ :=
    reads_mark rfl hw (by decide) _
  exact (hstar.seq_source hrest).choice.mono (by omega)

theorem reads_exportStarAs (afterStar : Padding) (afterAs : Separator) (n : Name)
    (after : Separator) :
    ReadsSource 130 (exportBody .typeScript) (w ++ (starText afterStar afterAs n.toIdentifier ++
      (after.text ++ reexportText gap s before r))) s r := by
  have hname := reads_exportName afterAs.isBlank n (after.apart (reexportText gap s before r))
  have has : Reads 4 (keyword "as") (afterStar.text ++ ("as".toList ++ (afterAs.text ++ (n.text ++
      (after.text ++ reexportText gap s before r))))) .nothing _ :=
    reads_keyword afterStar.isBlank (by decide) (afterAs.apart _)
  have hrest := (has.seq_nothing hname.single).optional.seq_source
    (reads_reexported after.isBlank gap s before r)
  have hstar : Reads 4 (mark "*") (w ++ '*' :: (afterStar.text ++ ("as".toList ++ (afterAs.text ++
      (n.text ++ (after.text ++ reexportText gap s before r)))))) .nothing _ :=
    reads_mark rfl hw (by decide) _
  have hbody : ReadsSource 130 (exportBody .typeScript) _ s r :=
    (hstar.seq_source hrest).choice.mono (by omega)
  simpa [starText] using hbody

theorem reads_exportBraces (members : CommaList Member) (after : Padding) :
    ReadsSource 130 (exportBody .typeScript)
      (w ++ braced members (after.text ++ reexportText gap s before r)) s r := by
  have hclause := reads_exportClause hw members (after.text ++ reexportText gap s before r)
  have hseq := hclause.seq_source (reads_optional_reexported after.isBlank gap s before r)
  have hstar : Refuses .typeScript (mark "*")
      (w ++ braced members (after.text ++ reexportText gap s before r)) :=
    refuses_mark hw (by decide) (by decide) _
  exact (hseq.choice.skip (refuses_seq_cons hstar)).mono (by omega)

/-- A mark of a type before braces starts no declaration. -/
theorem refuses_declaration_type (typed : Separator) (r : Text) :
    Refuses .typeScript (.rule .declaration)
      (w ++ ("type".toList ++ (typed.text ++ '\x7b' :: r))) := by
  have hapart := typed.apart ('\x7b' :: r)
  have hclear : ∀ words marks, "type" ∉ words → marks.all (fun c => !isWordStart c) = true →
      Clear words marks (w ++ ("type".toList ++ (typed.text ++ '\x7b' :: r))) :=
    fun words marks hk hm => clear_word hw (by decide) hapart hk hm
  have halias : Refuses .typeScript (typeAlias .typeScript)
      (w ++ ("type".toList ++ (typed.text ++ '\x7b' :: r))) := by
    have hbrace : Clear [] [] (typed.text ++ '\x7b' :: r) :=
      clear_mark typed.isBlank (by decide) (by simp) _
    have hname : Refuses .typeScript name (typed.text ++ '\x7b' :: r) :=
      refuses_word hbrace.bare (nextWord_mark typed.isBlank (by decide) _)
    exact refuses_node
      ((settles_keyword hw (by decide) hapart).refuses_seq (refuses_seq_cons hname))
  have htyped : Refuses .typeScript (typedDeclaration .typeScript) _ :=
    refuses_typedDeclaration (hclear _ _ (by decide) rfl)
      (refuses_enumeration (hclear _ _ (by decide) rfl)) halias
  exact refuses_rule (refuses_choice_cons (refuses_functionDeclaration (hclear _ _ (by decide) rfl))
    (refuses_choice_cons (refuses_class (hclear _ _ (by decide) rfl) false)
      (refuses_choice_cons htyped
        (refuses_choice_cons (refuses_variableDeclaration (hclear _ _ (by decide) rfl))
          refuses_choice_nil))))

theorem reads_exportTypeBraces (typed : Separator) (members : CommaList Member) (after : Padding) :
    ReadsSource 130 (exportBody .typeScript) (w ++ ("type".toList ++ (typed.text ++
      braced members (after.text ++ reexportText gap s before r)))) s r := by
  have hclause :=
    reads_exportClause typed.isBlank members (after.text ++ reexportText gap s before r)
  have hseq := hclause.seq_source (reads_optional_reexported after.isBlank gap s before r)
  have hword : Reads 4 (keyword "type") (w ++ ("type".toList ++ (typed.text ++
      braced members (after.text ++ reexportText gap s before r)))) .nothing _ :=
    reads_keyword hw (by decide) (typed.apart _)
  have hclear : Clear ["default"] ['*', '\x7b'] (w ++ ("type".toList ++ (typed.text ++
      braced members (after.text ++ reexportText gap s before r)))) :=
    clear_word hw (by decide) (typed.apart _) (by decide) rfl
  have hbody : ReadsSource _ (exportBody .typeScript) _ s r :=
    ((((hword.seq_source hseq).choice.choice.skip
      (refuses_declaration_type hw typed _)).skip
      (refuses_seq_cons (hclear.keyword (by decide)))).skip
      (refuses_seq_cons (refuses_node (refuses_seq_cons (hclear.literal (by decide)))))).skip
      (refuses_seq_cons (hclear.literal (by decide)))
  exact hbody.mono (by omega)

end

end ImportAlias.Grammar
