import ImportAlias.Proofs.Header.Acceptance

/-! Every list of items is a header, and its slots are those of its items. -/
namespace ImportAlias.Header

open Text (isBlank isNameChar)

variable {t : Text}

/-- The characters that no whitespace, no name and no word of an item holds. -/
def marks : List Char := ['\n', '"', '\x27']

theorem Identifier.not_mem (n : Identifier) {c : Char} (h : c ∈ marks) : c ∉ n.text := by
  intro hc
  have hn := n.chars c hc
  simp only [marks, List.mem_cons, List.not_mem_nil, or_false] at h
  rcases h with rfl | rfl | rfl <;> exact absurd hn (by decide)

theorem Gap.not_mem (g : Gap) {c : Char} (h : c ∈ marks) : c ∉ g.text := by
  intro hc
  simp only [marks, List.mem_cons, List.not_mem_nil, or_false] at h
  rcases h with rfl | rfl | rfl
  · exact g.oneLine hc
  · exact absurd (g.blank _ hc) (by decide)
  · exact absurd (g.blank _ hc) (by decide)

theorem typeWord_not_mem (typed : Option Space) {c : Char} (h : c ∈ marks) :
    c ∉ typeWord typed := by
  cases typed with
  | none => simp [typeWord]
  | some s =>
    have hs := s.not_mem h
    have hw : ∀ c ∈ marks, c ∉ "type".toList := by simp [marks]
    simp only [typeWord, List.mem_append, not_or]
    exact ⟨hw c h, hs⟩

theorem defaultText_not_mem (first : Option DefaultName) {c : Char} (h : c ∈ marks) :
    c ∉ defaultText first := by
  cases first with
  | none => simp [defaultText]
  | some d =>
    have hw : ∀ c ∈ marks, c ≠ ',' := by simp [marks]
    simp only [defaultText, List.mem_append, List.mem_cons, not_or]
    exact ⟨d.name.not_mem h, d.before.not_mem h, hw c h, d.after.not_mem h⟩

theorem Opener.not_mem (o : Opener) {c : Char} (h : c ∈ marks) : c ∉ o.text := by
  have hi : ∀ c ∈ marks, c ∉ "import".toList := by simp [marks]
  have he : ∀ c ∈ marks, c ∉ "export".toList := by simp [marks]
  have hb : ∀ c ∈ marks, c ≠ '\x7b' := by simp [marks]
  cases o with
  | imports word typed first =>
    simp only [Opener.text_imports, List.mem_append, List.mem_singleton, not_or]
    exact ⟨hi c h, word.not_mem h, typeWord_not_mem typed h, defaultText_not_mem first h, hb c h⟩
  | exports word typed =>
    simp only [Opener.text_exports, List.mem_append, List.mem_singleton, not_or]
    exact ⟨he c h, word.not_mem h, typeWord_not_mem typed h, hb c h⟩

def openerLine (indent : Gap) (o : Opener) (t : Text) : Text := indent.text ++ (o.text ++ t)

theorem openerLine_not_mem (indent : Gap) (o : Opener) {c : Char} (h : c ∈ marks) (ht : c ∉ t) :
    c ∉ openerLine indent o t := by
  simp only [openerLine, List.mem_append, not_or]
  exact ⟨indent.not_mem h, o.not_mem h, ht⟩

theorem row_not_mem (r : Row) {c : Char} (h : c ∈ marks) : c ∉ r.text := by
  have hcomma : ∀ c ∈ marks, c ∉ (if r.comma then [','] else []) := by
    cases r.comma <;> simp [marks]
  have has : ∀ c ∈ marks, c ∉ "as".toList := by simp [marks]
  have hr : c ∉ renamedText r.entry.renamed := by
    cases r.entry.renamed with
    | none => simp [renamedText]
    | some p =>
      obtain ⟨before, after, n⟩ := p
      simp only [renamedText, List.mem_append, not_or]
      exact ⟨before.not_mem h, has c h, after.not_mem h, n.not_mem h⟩
  have he : c ∉ r.entry.text := by
    simp only [Entry.text, List.mem_append, not_or]
    exact ⟨typeWord_not_mem _ h, r.entry.name.not_mem h, hr⟩
  simp only [Row.text, List.mem_append, not_or]
  exact ⟨r.indent.not_mem h, he, r.before.not_mem h, hcomma c h, r.after.not_mem h⟩

/-- Where no quote stands, no source is found. -/
theorem Finds.eq_none {P : Text → Prop} {f : Text → Option Quoted} (hf : Finds P f)
    (h : ∀ c ∈ marks, c ∉ t) : f t = none := by
  rw [Option.eq_none_iff_forall_ne_some]
  intro q hq
  obtain ⟨lead, c, tail, -, hs⟩ := hf hq
  have hc : c ∈ t := by rw [hs.text_eq]; simp
  rcases hs.quote with rfl | rfl
  · exact h _ (by decide) hc
  · exact h _ (by decide) hc

theorem items_gap (named : Bool) (g : Gap) (t : Text) :
    items named (g.text ++ t) = items named t := by
  have h : ∀ s : Text, (∀ c ∈ s, isBlank c = true) → items named (s ++ t) = items named t := by
    intro s hs
    induction s with
    | nil => rfl
    | cons c s ih =>
      have hc : isBlank c := hs c (by simp)
      have hi := ih fun d hd => hs d (by simp [hd])
      rw [List.cons_append, items, if_neg (by simp [isNameChar_of_isBlank hc]), if_pos hc, hi]
  exact h g.text g.blank

theorem items_identifier (named : Bool) (n : Identifier) (t : Text) :
    items named (n.text ++ t) = items true t := by
  have h : ∀ (s : Text) (named : Bool), s ≠ [] → (∀ c ∈ s, isNameChar c = true) →
      items named (s ++ t) = items true t := by
    intro s
    induction s with
    | nil => intro _ hne; exact absurd rfl hne
    | cons c s ih =>
      intro named _ hs
      have hc : isNameChar c := hs c (by simp)
      rw [List.cons_append, items, if_pos hc]
      cases s with
      | nil => rfl
      | cons d s => exact ih true (by simp) fun e he => hs e (by simp [he])
  exact h n.text named n.ne_nil n.chars

private theorem items_renamed (renamed : Option (Space × Space × Identifier)) (t : Text) :
    items true (renamedText renamed ++ t) = items true t := by
  cases renamed with
  | none => rfl
  | some p =>
    obtain ⟨before, after, n⟩ := p
    have has : ∀ u, items true ("as".toList ++ u) = items true u := fun _ => rfl
    simp only [renamedText, List.append_assoc]
    rw [items_gap, has, items_gap, items_identifier]

theorem items_entry (e : Entry) (t : Text) : items false (e.text ++ t) = items true t := by
  unfold Entry.text
  rw [List.append_assoc, List.append_assoc]
  cases e.typed with
  | none => rw [typeWord, List.nil_append, items_identifier, items_renamed]
  | some s =>
    have ht : ∀ u, items false ("type".toList ++ u) = items true u := fun _ => rfl
    rw [typeWord, List.append_assoc, ht, items_gap, items_identifier, items_renamed]

theorem items_gap_nil (g : Gap) : items false g.text = [] := by
  simpa [items] using items_gap false g []

theorem items_row (r : Row) : items false r.text = [] := by
  have hend := items_gap_nil r.after
  have hend' : items true r.after.text = [] := by simpa [items] using items_gap true r.after []
  rw [Row.text, items_gap, items_entry, items_gap]
  cases r.comma with
  | true => exact hend
  | false => exact hend'

theorem items_close (g : Gap) (t : Text) : items false (g.text ++ '\x7d' :: t) = '\x7d' :: t := by
  rw [items_gap]
  rfl

/-- A line of items inside a brace list. -/
theorem scanLine_items (kind : ListKind) (hi : items false t = []) (hm : ∀ c ∈ marks, c ∉ t) :
    scanLine (.list kind) t = some (.plain t, .list kind) := by
  have hs : listSource? t = none := keeps_listSource.finds.eq_none hm
  have hc : isListClose t = false := by
    rw [isListClose, hi]
    rfl
  have hl : isListLine t = true := by
    rw [isListLine, hi]
    rfl
  simp [scanLine, scanListLine, hs, hc, hl]

theorem optionally_unit_absent {skipped? : Text → Option Text} {f : Text → Option Unit}
    (h : f t = some ()) : optionally skipped? f t = some () := by
  unfold optionally
  cases skipped? t with
  | none => exact h
  | some r =>
    cases hr : f r with
    | none => simpa [hr] using h
    | some u => simp [hr]

theorem listOpening?_brace (hi : items false t = []) : listOpening? ('\x7b' :: t) = some () := by
  have hs : skip? "\x7b" ('\x7b' :: t) = some t := skip?_append "\x7b" t
  rw [listOpening?, hs, Option.bind_some, hi]
  rfl

theorem optionally_typeWord_unit {f : Text → Option Unit} (typed : Option Space)
    (hb : Bars isBlank t) (h : f t = some ()) :
    optionally (keyword? "type") f (typeWord typed ++ t) = some () := by
  cases typed with
  | none => exact optionally_unit_absent h
  | some s =>
    have hk : keyword? "type" (typeWord (some s) ++ t) = some t := by
      rw [typeWord, List.append_assoc]
      exact keyword?_append "type" s hb
    simp [optionally, hk, h]

theorem isImportOpener_line (indent : Gap) (word : Space) (typed : Option Space)
    (first : Option DefaultName) (hi : items false t = []) :
    isImportOpener (openerLine indent (.imports word typed first) t) = true := by
  have hbrace : Bars isBlank ('\x7b' :: t) := Bars.cons (by decide) _
  have hb := bars_defaultText first hbrace
  have hf : optionally defaultName? listOpening? (defaultText first ++ '\x7b' :: t) = some () := by
    cases first with
    | none => exact optionally_unit_absent (listOpening?_brace hi)
    | some d => simp [optionally, defaultName?_text d hbrace, listOpening?_brace hi]
  have ho := optionally_typeWord_unit typed hb hf
  have hk := keyword?_indent (w := "import") indent word (Bars.cons (by decide) _) (by decide)
    (bars_typeWord typed hb)
  have hl : openerLine indent (.imports word typed first) t = indent.text ++ ("import".toList ++
      (word.text ++ (typeWord typed ++ (defaultText first ++ '\x7b' :: t)))) := by
    simp [openerLine, Opener.text_imports]
  rw [hl, isImportOpener, hk, Option.bind_some, ho]
  rfl

theorem isExportOpener_line (indent : Gap) (word : Space) (typed : Option Space)
    (hi : items false t = []) :
    isExportOpener (openerLine indent (.exports word typed) t) = true := by
  have hb : Bars isBlank ('\x7b' :: t) := Bars.cons (by decide) _
  have ho := optionally_typeWord_unit typed hb (listOpening?_brace hi)
  have hk := keyword?_indent (w := "export") indent word (Bars.cons (by decide) _) (by decide)
    (bars_typeWord typed hb)
  have hl : openerLine indent (.exports word typed) t = indent.text ++ ("export".toList ++
      (word.text ++ (typeWord typed ++ '\x7b' :: t))) := by
    simp [openerLine, Opener.text_exports]
  rw [hl, isExportOpener, hk, Option.bind_some, ho]
  rfl

def ListKind.letter : ListKind → Char
  | .imports => 'i'
  | .exports => 'e'

theorem head?_openerLine (indent : Gap) (o : Opener) (t : Text) :
    (blanks (openerLine indent o t)).head? = some o.kind.letter := by
  cases o with
  | imports word typed first =>
    have hb : Bars isBlank ((Opener.imports word typed first).text ++ t) := Bars.cons (by decide) _
    rw [openerLine, blanks_gap indent hb]
    rfl
  | exports word typed =>
    have hb : Bars isBlank ((Opener.exports word typed).text ++ t) := Bars.cons (by decide) _
    rw [openerLine, blanks_gap indent hb]
    rfl

variable {state : State}

theorem scanLine_opener (hs : state = .start ∨ state = .statement) (indent : Gap) (o : Opener)
    (hi : items false t = []) (hm : ∀ c ∈ marks, c ∉ t) : scanLine state (openerLine indent o t) =
      some (.plain (openerLine indent o t), .list o.kind) := by
  have hq : ∀ c ∈ marks, c ∉ openerLine indent o t :=
    fun c hc => openerLine_not_mem indent o hc (hm c hc)
  have hh := head?_openerLine indent o t
  have hletter : ∀ k : ListKind, k.letter ∉ ['/', '#'] ∧ k.letter ∉ ['"', '\x27'] := by
    intro k
    cases k <;> decide
  have hd : isDirective (openerLine indent o t) = false :=
    isDirective_eq_false hh fun hc => (hletter _).2 (by simpa [IsQuote] using hc)
  have he := keeps_editable.finds.eq_none hq
  have hr := finds_reexport.eq_none hq
  have hmember : isRequireMember (openerLine indent o t) = false := by
    rw [isRequireMember_eq, (keeps_declared trails_isMembers).finds.eq_none hq]
    rfl
  rw [scanLine_statement hs hh (hletter _).1, scanStatement, hd, he]
  cases o with
  | imports word typed first =>
    simp [hmember, hr, isImportOpener_line indent word typed first hi, Opener.kind]
  | exports word typed =>
    have himport : isImportOpener (openerLine indent (.exports word typed) t) = false := by
      rw [isImportOpener, keyword?_eq_none_of_head (by decide)
        (by rw [hh]; simp [Opener.kind, ListKind.letter])]
      rfl
    simp [hmember, hr, himport, isExportOpener_line indent word typed hi, Opener.kind]

theorem listSource?_closing (hi : ∀ u, items false (t ++ '\x7d' :: u) = '\x7d' :: u)
    (afterClose g : Gap) (s : Source) (e : Ending) :
    listSource? (s.line (t ++ '\x7d' :: (afterClose.text ++ ("from".toList ++ g.text))) e.text) =
      some ⟨s.specifier, s.quote :: e.text⟩ := by
  have hb : Bars isBlank ("from".toList ++ (g.text ++ s.quote :: (s.specifier ++
      s.quote :: e.text))) := Bars.cons (by decide) _
  have hl : s.line (t ++ '\x7d' :: (afterClose.text ++ ("from".toList ++ g.text))) e.text =
      t ++ '\x7d' :: (afterClose.text ++
        ("from".toList ++ (g.text ++ s.quote :: (s.specifier ++ s.quote :: e.text)))) := by
    simp [Source.line]
  have hskip : ∀ u, skip? "\x7d" ('\x7d' :: u) = some u := fun u => skip?_append "\x7d" u
  rw [hl]
  simp only [listSource?, hi, bind, hskip, Option.bind_some, blanks_gap afterClose hb]
  exact source?_from g s e

theorem Source.text_slot (lead : Text) (s : Source) (trail : Text) :
    (s.slot lead trail).text = s.line lead trail := by
  simp [Source.slot, Source.line, HeaderLine.text]

theorem text_closing (kind : ListKind) (lead : Text) (s : Source) (trail : Text) :
    (closing kind lead s trail).text = s.line lead trail := by
  cases kind with
  | imports => exact s.text_slot lead trail
  | exports => rfl

theorem scanLine_closing (kind : ListKind) {lead trail : Text} {s : Source}
    (h : listSource? (s.line lead trail) = some ⟨s.specifier, s.quote :: trail⟩) :
    scanLine (.list kind) (closing kind lead s trail).text =
      some (closing kind lead s trail, .statement) := by
  have hslot : slotOf (s.line lead trail) ⟨s.specifier, s.quote :: trail⟩ = s.slot lead trail :=
    slotOf_append lead s.specifier trail s.quote
  rw [text_closing, scanLine, scanListLine, h]
  cases kind with
  | imports => simp [closing, hslot]
  | exports => rfl

theorem comments?_gap (g : Gap) (t : Text) : comments? false (g.text ++ t) = comments? false t := by
  have h : ∀ s : Text, (∀ c ∈ s, isBlank c = true) →
      comments? false (s ++ t) = comments? false t := by
    intro s hs
    induction s with
    | nil => rfl
    | cons c s ih =>
      rw [List.cons_append, comments?_blank_cons (hs c (by simp)),
        ih fun d hd => hs d (by simp [hd])]
  exact h g.text g.blank

theorem comments?_gap_nil (g : Gap) : comments? false g.text = some .statement := by
  rw [← List.append_nil g.text, comments?_gap]
  rfl

theorem comments?_body {body : Text} (h : ¬ ['*', '/'] <:+: body) (t : Text) :
    comments? true (body ++ '*' :: '/' :: t) = comments? false t := by
  induction body with
  | nil => rfl
  | cons c body ih =>
    have hi := ih fun hin => h (hin.trans (List.suffix_cons c body).isInfix)
    have hne : c = '*' → (body ++ '*' :: '/' :: t).head? ≠ some '/' := by
      rintro rfl hh
      cases body with
      | nil => simp at hh
      | cons d body =>
        obtain rfl : d = '/' := by simpa using hh
        exact h ⟨[], body, rfl⟩
    rw [List.cons_append, comments?_inside_cons hne, hi]

theorem scanLine_comment (hs : state = .start ∨ state = .statement)
    (h : comments? false t = some .statement) : scanLine state t = some (.plain t, .statement) := by
  rcases hs with rfl | rfl <;> simp [scanLine, h]

theorem scanLine_editable (hs : state = .start ∨ state = .statement) {lead trail : Text}
    {s : Source} (h : editable? (s.line lead trail) = some ⟨s.specifier, s.quote :: trail⟩) :
    scanLine state (s.line lead trail) = some (s.slot lead trail, .statement) := by
  obtain ⟨c, hc, hh⟩ := head?_of_editable h
  have hletter : ∀ c ∈ ['i', 'e', 'c', 'l', 'v'], c ∉ ['/', '#'] ∧ c ∉ ['"', '\x27'] := by simp
  have hd : isDirective (s.line lead trail) = false :=
    isDirective_eq_false hh fun hq => (hletter c hc).2 (by simpa [IsQuote] using hq)
  have hslot := slotOf_append lead s.specifier trail s.quote
  rw [scanLine_statement hs hh (hletter c hc).1, scanStatement, hd, h]
  exact congrArg (fun l => some (l, State.statement)) hslot

theorem scanLine_exportFrom (hs : state = .start ∨ state = .statement) (indent : Gap)
    (word : Space) (typed : Option Space) (c : ExportClause) (g : Gap) (s : Source) (e : Ending) :
    let line := s.line (indent.text ++ ("export".toList ++ (word.text ++ (typeWord typed ++
      (c.text ++ ("from".toList ++ g.text)))))) e.text
    scanLine state line = some (.plain line, .statement) := by
  intro line
  obtain ⟨he, hr⟩ := editable?_exportFrom indent word typed c g s e
  have hh : (blanks line).head? = some 'e' := by
    have hb : Bars isBlank ("export".toList ++ (word.text ++ (typeWord typed ++ (c.text ++
        ("from".toList ++ g.text)))) ++ s.quote :: (s.specifier ++ s.quote :: e.text)) :=
      Bars.cons (by decide) _
    rw [show line = _ from List.append_assoc .., blanks_gap indent hb]
    rfl
  have hd : isDirective line = false :=
    isDirective_eq_false hh (by rintro (h | h) <;> exact absurd h (by decide))
  rw [scanLine_statement hs hh (by decide), scanStatement, hd, he]
  simp only [Bool.false_eq_true, if_false]
  exact if_pos (.inr hr)

theorem scanLine_directive (hs : state = .start ∨ state = .statement) (indent : Gap) (s : Source)
    (e : Ending) :
    let line := indent.text ++ s.quote :: ("use ".toList ++ (s.specifier ++ s.quote :: e.text))
    scanLine state line = some (.plain line, .statement) := by
  intro line
  have hfresh : s.quote ∉ "use ".toList ++ s.specifier := by
    have huse : ∀ c ∈ ['"', '\x27'], c ∉ "use ".toList := by simp
    simp only [List.mem_append, not_or]
    exact ⟨huse _ (by simpa [IsQuote] using s.isQuote), s.fresh⟩
  have hb : blanks line = s.quote :: (("use ".toList ++ s.specifier) ++ s.quote :: e.text) := by
    have hq :=
      s.bars (p := isBlank) (by decide) ("use ".toList ++ (s.specifier ++ s.quote :: e.text))
    rw [blanks_gap indent hq, List.append_assoc]
  have hq : quoted? (blanks line) = some ⟨"use ".toList ++ s.specifier, s.quote :: e.text⟩ :=
    quoted?_eq_some.mpr ⟨s.quote, e.text, hb, rfl, s.isQuote, hfresh⟩
  have hd : isDirective line = true := by
    simp only [isDirective, hq, skip?_append, Quoted.after, List.drop_one, List.tail_cons,
      isTail_ending, Option.isSome_some, Bool.and_self]
  have hh : (blanks line).head? = some s.quote := by rw [hb]; rfl
  have hfirst : s.quote ∉ ['/', '#'] := by
    rcases s.isQuote with hq | hq <;> rw [hq] <;> decide
  rw [scanLine_statement hs hh hfirst, scanStatement, if_pos hd]

/-- The scanner reads the lines one after another, and gives them back as they are. -/
def Passes : State → List HeaderLine → State → Prop
  | s, [], s' => s = s'
  | s, l :: ls, s' => ∃ m, scanLine s l.text = some (l, m) ∧ Passes m ls s'

theorem Passes.append {s m s' : State} {ls ls' : List HeaderLine} (h : Passes s ls m)
    (h' : Passes m ls' s') : Passes s (ls ++ ls') s' := by
  induction ls generalizing s with
  | nil =>
    obtain rfl : s = m := h
    exact h'
  | cons l ls ih =>
    obtain ⟨n, hl, hn⟩ := h
    exact ⟨n, hl, ih hn⟩

theorem Passes.single {s s' : State} {l : HeaderLine} (h : scanLine s l.text = some (l, s')) :
    Passes s [l] s' := ⟨s', h, rfl⟩

theorem Passes.scanLines {s s' : State} {ls : List HeaderLine} (h : Passes s ls s') :
    scanLines s (ls.map HeaderLine.text) = ⟨ls, []⟩ := by
  induction ls generalizing s with
  | nil => rfl
  | cons l ls ih =>
    obtain ⟨n, hl, hn⟩ := h
    simp [Header.scanLines, hl, ih hn]

theorem passes_rows (kind : ListKind) (rows : List Row) :
    Passes (.list kind) (rows.map fun r => .plain r.text) (.list kind) := by
  induction rows with
  | nil => rfl
  | cons r rows ih =>
    exact ⟨.list kind, scanLine_items kind (items_row r) fun c hc => row_not_mem r hc, ih⟩

theorem passes_editable (hs : state = .start ∨ state = .statement) {lead trail : Text}
    {s : Source} (h : editable? (s.line lead trail) = some ⟨s.specifier, s.quote :: trail⟩) :
    Passes state [s.slot lead trail] .statement :=
  .single (by rw [s.text_slot]; exact scanLine_editable hs h)

/-- One item takes the scanner from statement to statement. -/
theorem Item.passes (i : Item) (hs : state = .start ∨ state = .statement) :
    Passes state i.lines .statement := by
  cases i with
  | blank gap =>
    exact .single (scanLine_comment hs (comments?_gap_nil gap))
  | lineComment indent body _ =>
    refine .single (scanLine_comment hs ?_)
    rw [HeaderLine.text, List.append_assoc, comments?_gap]
    rfl
  | blockComment indent body _ unclosed after =>
    refine .single (scanLine_comment hs ?_)
    have hopen : ∀ u, comments? false ("/*".toList ++ u) = comments? true u := fun _ => rfl
    rw [HeaderLine.text, comments?_gap, hopen]
    exact (comments?_body unclosed after.text).trans (comments?_gap_nil after)
  | directive indent rest ending => exact .single (scanLine_directive hs indent rest ending)
  | importFrom indent word typed clause gap source ending =>
    exact passes_editable hs (editable?_importFrom indent word typed clause gap source ending)
  | importOnly indent gap source ending =>
    exact passes_editable hs (editable?_importOnly indent gap source ending)
  | importEquals indent word typed name required =>
    exact passes_editable hs (editable?_importEquals indent word typed name required)
  | declaration indent keyword isKeyword word binding required =>
    exact passes_editable hs (editable?_declaration indent isKeyword word binding required)
  | exportFrom indent word typed clause gap source ending =>
    exact .single (scanLine_exportFrom hs indent word typed clause gap source ending)
  | list indent opener afterOpener rows beforeClose afterClose gap source ending =>
    have ho : Passes state [.plain (openerLine indent opener afterOpener.text)]
        (.list opener.kind) :=
      .single (scanLine_opener hs indent opener (items_gap_nil afterOpener)
        fun c hc => afterOpener.not_mem hc)
    have hc := scanLine_closing opener.kind
      (listSource?_closing (items_close beforeClose) afterClose gap source ending)
    exact ho.append ((passes_rows opener.kind rows).append (.single hc))

/-- What each of a list's members does, the list does. -/
theorem passes_flatMap {α : Type} {f : α → List HeaderLine}
    (hf : ∀ {state : State} (a : α), state = .start ∨ state = .statement →
      Passes state (f a) .statement)
    (xs : List α) (hs : state = .start ∨ state = .statement) (hne : xs ≠ []) :
    Passes state (xs.flatMap f) .statement := by
  induction xs generalizing state with
  | nil => exact absurd rfl hne
  | cons x xs ih =>
    have hx := hf x hs
    cases xs with
    | nil => simpa using hx
    | cons y xs => exact hx.append (ih (.inr rfl) (by simp))

/-! No item has a line end inside one of its lines. -/

theorem Identifier.oneLine (n : Identifier) : '\n' ∉ n.text := n.not_mem (by decide)

theorem Source.oneLine_line {lead trail : Text} (s : Source) (hl : '\n' ∉ lead)
    (ht : '\n' ∉ trail) : '\n' ∉ s.line lead trail := by
  have hq : '\n' ≠ s.quote := by
    rcases s.isQuote with hq | hq <;> rw [hq] <;> decide
  simp [Source.line, hl, ht, hq, s.oneLine]

theorem Ending.oneLine (e : Ending) : '\n' ∉ e.text := by
  unfold Ending.text
  cases e.semicolon <;> simp [e.before.oneLine, e.after.oneLine]

theorem Braces.oneLine_inBraces (b : Braces) : '\n' ∉ b.inBraces := by
  simp [Braces.inBraces, b.oneLine]

theorem oneLine_typeWord (typed : Option Space) : '\n' ∉ typeWord typed :=
  typeWord_not_mem typed (by decide)

theorem oneLine_defaultText (first : Option DefaultName) : '\n' ∉ defaultText first :=
  defaultText_not_mem first (by decide)

theorem oneLine_starText (a : Gap) (b : Space) (n : Identifier) : '\n' ∉ starText a b n := by
  simp [starText, a.oneLine, b.oneLine, n.oneLine]

theorem ImportClause.oneLine (c : ImportClause) : '\n' ∉ c.text := by
  cases c <;> simp [ImportClause.text, Identifier.oneLine, Gap.oneLine, oneLine_defaultText,
    Braces.oneLine_inBraces, oneLine_starText]

theorem ExportClause.oneLine (c : ExportClause) : '\n' ∉ c.text := by
  cases c <;> simp [ExportClause.text, Gap.oneLine, Braces.oneLine_inBraces, oneLine_starText]

theorem Binding.oneLine (b : Binding) : '\n' ∉ b.text := by
  cases b with
  | name n => exact n.oneLine
  | braces body => exact body.oneLine_inBraces

theorem Required.oneLine_line {before : Text} (r : Required) (h : '\n' ∉ before) :
    '\n' ∉ r.source.line (before ++ r.lead) r.trail := by
  refine r.source.oneLine_line ?_ ?_
  · simp [h, Required.lead, Gap.oneLine]
  · simp [Required.trail, Gap.oneLine, Ending.oneLine]

theorem Item.oneLine (i : Item) : ∀ l ∈ i.lines, '\n' ∉ l.text := by
  intro l hl
  cases i with
  | blank gap =>
    obtain rfl := List.mem_singleton.mp hl
    exact gap.oneLine
  | lineComment indent body hb =>
    obtain rfl := List.mem_singleton.mp hl
    simp [HeaderLine.text, indent.oneLine, hb]
  | blockComment indent body hb _ after =>
    obtain rfl := List.mem_singleton.mp hl
    simp [HeaderLine.text, indent.oneLine, hb, after.oneLine]
  | directive indent rest ending =>
    obtain rfl := List.mem_singleton.mp hl
    have hq : '\n' ∉ rest.line indent.text ending.text :=
      rest.oneLine_line indent.oneLine ending.oneLine
    simp only [Source.line, List.mem_append, List.mem_cons, not_or] at hq
    simp [HeaderLine.text, hq]
  | importFrom indent word typed clause gap source ending =>
    obtain rfl := List.mem_singleton.mp hl
    rw [source.text_slot]
    refine source.oneLine_line ?_ ending.oneLine
    simp [Gap.oneLine, oneLine_typeWord, clause.oneLine]
  | importOnly indent gap source ending =>
    obtain rfl := List.mem_singleton.mp hl
    rw [source.text_slot]
    refine source.oneLine_line ?_ ending.oneLine
    simp [Gap.oneLine]
  | importEquals indent word typed name required =>
    obtain rfl := List.mem_singleton.mp hl
    have hb : '\n' ∉ indent.text ++ ("import".toList ++ (word.text ++ (typeWord typed ++
        name.text))) := by
      simp [Gap.oneLine, oneLine_typeWord, name.oneLine]
    have hl := required.oneLine_line hb
    simp only [List.append_assoc] at hl
    rwa [Source.text_slot]
  | declaration indent keyword hk word binding required =>
    obtain rfl := List.mem_singleton.mp hl
    have hw : ∀ k ∈ ["const", "let", "var"], '\n' ∉ k.toList := by decide
    have hb : '\n' ∉ indent.text ++ (keyword.toList ++ (word.text ++ binding.text)) := by
      simp [Gap.oneLine, hw keyword hk, binding.oneLine]
    have hl := required.oneLine_line hb
    simp only [List.append_assoc] at hl
    rwa [Source.text_slot]
  | exportFrom indent word typed clause gap source ending =>
    obtain rfl := List.mem_singleton.mp hl
    refine source.oneLine_line ?_ ending.oneLine
    simp [Gap.oneLine, oneLine_typeWord, clause.oneLine]
  | list indent opener afterOpener rows beforeClose afterClose gap source ending =>
    rcases List.mem_append.mp hl with hl | hl
    · rcases List.mem_cons.mp hl with rfl | hl
      · exact openerLine_not_mem indent opener (by decide) (afterOpener.not_mem (by decide))
      · obtain ⟨r, -, rfl⟩ := List.mem_map.mp hl
        exact row_not_mem r (by decide)
    · obtain rfl := List.mem_singleton.mp hl
      rw [text_closing]
      refine source.oneLine_line ?_ ending.oneLine
      simp [Gap.oneLine]

theorem Item.lines_ne_nil (i : Item) : i.lines ≠ [] := by
  cases i <;> exact List.cons_ne_nil _ _

theorem text_aliased_none (l : HeaderLine) : (l.aliased fun _ => none).text = l.text := by
  cases l <;> rfl

theorem scan_render {items : List Item} (hne : items ≠ []) :
    scan (render items) = ⟨items.flatMap Item.lines, []⟩ := by
  have hl : items.flatMap Item.lines ≠ [] := by
    obtain ⟨i, rest, rfl⟩ := List.exists_cons_of_ne_nil hne
    simp [i.lines_ne_nil]
  have hn : ∀ t ∈ (items.flatMap Item.lines).map HeaderLine.text, '\n' ∉ t := by
    intro t ht
    obtain ⟨l, hl, rfl⟩ := List.mem_map.mp ht
    obtain ⟨i, -, hi⟩ := List.mem_flatMap.mp hl
    exact i.oneLine l hi
  have hr : render items = Text.joinWith '\n' ((items.flatMap Item.lines).map HeaderLine.text) := by
    simp only [render, renderWith, text_aliased_none]
  rw [hr, scan, Text.splitOn_joinWith (by simpa using hl) hn]
  exact (passes_flatMap Item.passes items (.inl rfl) hne).scanLines

/-- Every list of items is a header as a whole. Aliasing gives the rendering of the same items in
which the specifiers that have an alias are replaced. -/
theorem aliasHeader_render {ε : Type} (resolve : Resolver ε) (threshold : Nat)
    (items : List Item) :
    (scan (render items)).body = [] ∧
      (aliasHeader resolve threshold (render items)).text =
        renderWith (resolve.choose threshold) items := by
  by_cases hne : items = []
  · subst hne
    exact ⟨rfl, rfl⟩
  · have hs := scan_render hne
    constructor
    · rw [hs]
    · simp only [aliasHeader, hs, Header.aliased, Header.text, List.append_nil, List.map_map]
      rfl

end ImportAlias.Header
