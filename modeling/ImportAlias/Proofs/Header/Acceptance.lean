import ImportAlias.Proofs.Header.Items
import ImportAlias.Proofs.Header.Scan

/-! The scanner accepts every list of items, and finds their specifiers. -/
namespace ImportAlias.Header

open Text (isBlank isNameChar after?_eq_some)

/-- The text does not go on with a character of a class. -/
def Bars (p : Char → Bool) (t : Text) : Prop := ∀ c, t.head? = some c → p c = false

private def blankCodes : List Nat :=
  [9, 10, 11, 12, 13, 0x20, 0x85, 0xA0, 0x1680, 0x2000, 0x2001, 0x2002, 0x2003, 0x2004,
    0x2005, 0x2006, 0x2007, 0x2008, 0x2009, 0x200A, 0x2028, 0x2029, 0x202F, 0x205F, 0x3000]

theorem isNameChar_of_isBlank {c : Char} (h : isBlank c) : isNameChar c = false := by
  have hn : c.toNat ∈ blankCodes := by
    simp only [isBlank, Bool.or_eq_true, Bool.and_eq_true, decide_eq_true_eq, beq_iff_eq] at h
    simp only [blankCodes, List.mem_cons, List.not_mem_nil, or_false]
    omega
  have hall : ∀ n ∈ blankCodes, isNameChar (Char.ofNat n) = false := by decide +kernel
  have := hall _ hn
  rwa [Char.ofNat_toNat] at this

variable {t : Text}

theorem Bars.cons {p : Char → Bool} {c : Char} (h : p c = false) (t : Text) : Bars p (c :: t) := by
  intro d hd
  obtain rfl : c = d := by simpa using hd
  exact h

theorem Bars.nil {p : Char → Bool} : Bars p [] := by
  intro c hc
  simp at hc

/-- A name does not start with whitespace. -/
theorem bars_identifier (n : Identifier) (t : Text) : Bars isBlank (n.text ++ t) := by
  intro c hc
  obtain ⟨d, u, hn⟩ := List.exists_cons_of_ne_nil n.ne_nil
  obtain rfl : d = c := by simpa [hn] using hc
  have hd : isNameChar d := n.chars d (by simp [hn])
  cases hb : isBlank d with
  | false => rfl
  | true => simp [isNameChar_of_isBlank hb] at hd

/-- A name ends before whitespace, and before what stops it. -/
theorem Bars.gap (h : Bars isNameChar t) (g : Gap) : Bars isNameChar (g.text ++ t) := by
  intro c hc
  cases hg : g.text with
  | nil => exact h c (by simpa [hg] using hc)
  | cons d u =>
    obtain rfl : d = c := by simpa [hg] using hc
    exact isNameChar_of_isBlank (g.blank d (by simp [hg]))

theorem Bars.space (s : Space) (t : Text) : Bars isNameChar (s.text ++ t) := by
  intro c hc
  obtain ⟨d, u, hs⟩ := List.exists_cons_of_ne_nil s.ne_nil
  obtain rfl : d = c := by simpa [hs] using hc
  exact isNameChar_of_isBlank (s.blank d (by simp [hs]))

private theorem dropWhile_bars {p : Char → Bool} {s : Text} (hs : ∀ c ∈ s, p c = true)
    (h : Bars p t) : (s ++ t).dropWhile p = t := by
  rw [List.dropWhile_append_of_pos hs]
  cases t with
  | nil => rfl
  | cons c t => simp [h c rfl]

theorem blanks_gap (g : Gap) (h : Bars isBlank t) : blanks (g.text ++ t) = t :=
  dropWhile_bars g.blank h

theorem blanks_gap_nil (g : Gap) : blanks g.text = [] := by
  simpa using blanks_gap g Bars.nil

theorem blanks?_space (s : Space) (h : Bars isBlank t) : blanks? (s.text ++ t) = some t := by
  obtain ⟨c, u, hs⟩ := List.exists_cons_of_ne_nil s.ne_nil
  have hc : isBlank c := s.blank c (by simp [hs])
  have hu : ∀ d ∈ u, isBlank d := fun d hd => s.blank d (by simp [hs, hd])
  rw [hs, List.cons_append, blanks?, if_pos hc, blanks, dropWhile_bars hu h]

theorem name?_identifier (n : Identifier) (h : Bars isNameChar t) :
    name? (n.text ++ t) = some (n.text, t) := by
  have ht : (n.text ++ t).takeWhile isNameChar = n.text := by
    rw [List.takeWhile_append_of_pos n.chars]
    cases t with
    | nil => simp
    | cons c t => simp [h c rfl]
  have hd := dropWhile_bars n.chars h
  unfold name?
  rw [ht, hd]
  split
  · rename_i hn
    exact absurd hn n.ne_nil
  · rfl

theorem skipName?_identifier (n : Identifier) (h : Bars isNameChar t) :
    skipName? (n.text ++ t) = some t := by
  rw [skipName?, name?_identifier n h, Option.map_some]

theorem skip?_append (s : String) (t : Text) : skip? s (s.toList ++ t) = some t :=
  after?_eq_some.mpr rfl

theorem keyword?_append (s : String) (sp : Space) (h : Bars isBlank t) :
    keyword? s (s.toList ++ (sp.text ++ t)) = some t := by
  rw [keyword?, skip?_append, Option.bind_some, blanks?_space sp h]

/-- A word or mark after whitespace. -/
theorem skip?_gap (s : String) (g : Gap) (t : Text)
    (hs : s.toList.head?.any (fun c => !isBlank c) = true) :
    skip? s (blanks (g.text ++ (s.toList ++ t))) = some t := by
  have hb : Bars isBlank (s.toList ++ t) := by
    intro c hc
    cases hl : s.toList with
    | nil => simp [hl] at hs
    | cons d u =>
      obtain rfl : d = c := by simpa [hl] using hc
      simpa [hl] using hs
  rw [blanks_gap g hb, skip?_append]

theorem Source.isQuote (s : Source) : IsQuote s.quote := by
  unfold Source.quote
  cases s.single with
  | true => exact .inr rfl
  | false => exact .inl rfl

theorem Source.fresh (s : Source) : s.quote ∉ s.specifier := by
  unfold Source.quote
  cases s.single with
  | true => exact s.noSingle
  | false => exact s.noDouble

/-- A quote is neither whitespace nor part of a name. -/
theorem Source.bars (s : Source) {p : Char → Bool} (h : ['"', '\x27'].any p = false) (t : Text) :
    Bars p (s.quote :: t) := by
  refine Bars.cons ?_ t
  simp only [List.any_cons, List.any_nil, Bool.or_false, Bool.or_eq_false_iff] at h
  rcases s.isQuote with hq | hq
  · rw [hq]; exact h.1
  · rw [hq]; exact h.2

theorem quoted?_source (s : Source) (t : Text) :
    quoted? (s.quote :: (s.specifier ++ s.quote :: t)) = some ⟨s.specifier, s.quote :: t⟩ :=
  quoted?_eq_some.mpr ⟨s.quote, t, rfl, rfl, s.isQuote, s.fresh⟩

theorem isTail_ending (e : Ending) : isTail e.text = true := by
  have hs : blanks e.text = (if e.semicolon then [';'] else []) ++
      (if e.semicolon then e.after.text else []) := by
    unfold Ending.text
    cases e.semicolon with
    | true => exact blanks_gap e.before (Bars.cons (by decide) _)
    | false =>
      have hb : ∀ c ∈ e.before.text ++ e.after.text, isBlank c = true := by
        intro c hc
        rcases List.mem_append.mp hc with hc | hc
        · exact e.before.blank c hc
        · exact e.after.blank c hc
      have := dropWhile_bars hb Bars.nil
      simpa [blanks] using this
  have hr : blanks ((skip? ";" (blanks e.text)).getD (blanks e.text)) = [] := by
    rw [hs]
    cases e.semicolon with
    | true =>
      have hk : skip? ";" (';' :: e.after.text) = some e.after.text := skip?_append ";" e.after.text
      simpa [hk] using blanks_gap_nil e.after
    | false => rfl
  unfold isTail
  simp only [hr]

theorem source?_from (g : Gap) (s : Source) (e : Ending) :
    source? ("from".toList ++ (g.text ++ s.quote :: (s.specifier ++ s.quote :: e.text))) =
      some ⟨s.specifier, s.quote :: e.text⟩ := by
  have hg := blanks_gap g (s.bars (p := isBlank) (by decide) (s.specifier ++ s.quote :: e.text))
  simp only [source?, skip?_append, bind, Option.bind_some, hg, quoted?_source]
  simp [ending?, Quoted.after, isTail_ending]

variable {f g : Text → Option Quoted} {skipped? : Text → Option Text} {q : Quoted}

/-- A line has one place for a source, so an earlier reader cannot find another. -/
theorem Finds.or_right (hf : Finds Lead f) (hg : Finds Lead g) (h : g t = some q) :
    (f t).or (g t) = some q := by
  cases hq : f t with
  | none => simpa using h
  | some q' =>
    obtain ⟨_, _, _, hl, hs⟩ := hf hq
    obtain ⟨_, _, _, hl', hs'⟩ := hg h
    rw [Option.some_or, hs.unique hl hs' hl']

theorem optionally_absent (hs : Skips skipped?) (hf : Finds Lead f) (h : f t = some q) :
    optionally skipped? f t = some q := by
  rw [optionally_eq]
  exact (hf.bind hs fun _ _ => Lead.append).or_right hf h

theorem optionally_present {r : Text} (hr : skipped? t = some r) (h : f r = some q) :
    optionally skipped? f t = some q := by
  simp [optionally_eq, hr, h]

theorem optionally_typeWord (typed : Option Space) (hf : Finds Lead f) (hb : Bars isBlank t)
    (h : f t = some q) : optionally (keyword? "type") f (typeWord typed ++ t) = some q := by
  cases typed with
  | none => exact optionally_absent (skips_keyword (by decide)) hf h
  | some s =>
    refine optionally_present ?_ h
    rw [typeWord, List.append_assoc]
    exact keyword?_append "type" s hb

theorem defaultName?_text (d : DefaultName) (hb : Bars isBlank t) :
    defaultName? (defaultText (some d) ++ t) = some t := by
  have hc := blanks_gap d.before (Bars.cons (p := isBlank) (by decide : isBlank ',' = false)
    (d.after.text ++ t))
  have hn : Bars isNameChar (d.before.text ++ ',' :: (d.after.text ++ t)) :=
    (Bars.cons (by decide) _).gap d.before
  have hk : skip? "," (',' :: (d.after.text ++ t)) = some (d.after.text ++ t) :=
    skip?_append "," (d.after.text ++ t)
  simp [defaultName?, defaultText, skipName?_identifier d.name hn, hc, hk, blanks_gap d.after hb]

theorem optionally_defaultText (first : Option DefaultName) (hf : Finds Lead f)
    (hb : Bars isBlank t) (h : f t = some q) :
    optionally defaultName? f (defaultText first ++ t) = some q := by
  cases first with
  | none => exact optionally_absent skips_defaultName hf h
  | some d => exact optionally_present (defaultName?_text d hb) h

theorem bars_defaultText (first : Option DefaultName) (hb : Bars isBlank t) :
    Bars isBlank (defaultText first ++ t) := by
  cases first with
  | none => exact hb
  | some d =>
    rw [defaultText, List.append_assoc]
    exact bars_identifier d.name _

theorem bars_typeWord (typed : Option Space) (hb : Bars isBlank t) :
    Bars isBlank (typeWord typed ++ t) := by
  cases typed with
  | none => exact hb
  | some s => exact Bars.cons (by decide) _

theorem braces?_inBraces (b : Braces) (t : Text) : braces? (b.inBraces ++ t) = some t := by
  refine braces?_eq_some.mpr ⟨b.text, ?_, b.closed⟩
  simp [Braces.inBraces]

private def fromSource (g : Gap) (s : Source) (e : Ending) : Text :=
  "from".toList ++ (g.text ++ s.quote :: (s.specifier ++ s.quote :: e.text))

private theorem bars_fromSource (g : Gap) (s : Source) (e : Ending) :
    Bars isBlank (fromSource g s e) := Bars.cons (by decide) _

private theorem nameFrom?_text (n : Identifier) (sp : Space) (g : Gap) (s : Source) (e : Ending) :
    (skipName? (n.text ++ (sp.text ++ fromSource g s e))).bind (fun t => (blanks? t).bind source?) =
      some ⟨s.specifier, s.quote :: e.text⟩ := by
  rw [skipName?_identifier n (Bars.space sp _), Option.bind_some,
    blanks?_space sp (bars_fromSource g s e), Option.bind_some]
  exact source?_from g s e

private theorem keyword?_as (a : Gap) (b : Space) (n : Identifier) (t : Text) :
    skip? "*" (starText a b n ++ t) = some (a.text ++ ("as".toList ++ (b.text ++ (n.text ++ t)))) ∧
      keyword? "as" (blanks (a.text ++ ("as".toList ++ (b.text ++ (n.text ++ t))))) =
        some (n.text ++ t) := by
  constructor
  · have := skip?_append "*" (a.text ++ ("as".toList ++ (b.text ++ (n.text ++ t))))
    simpa [starText] using this
  · have hb : Bars isBlank ("as".toList ++ (b.text ++ (n.text ++ t))) := Bars.cons (by decide) _
    rw [blanks_gap a hb]
    exact keyword?_append "as" b (bars_identifier n t)

private theorem importClause?_text (c : ImportClause) (g : Gap) (s : Source) (e : Ending) :
    optionally defaultName? clause? (c.text ++ fromSource g s e) =
      some ⟨s.specifier, s.quote :: e.text⟩ := by
  cases c with
  | single n sp =>
    refine optionally_absent skips_defaultName keeps_clause.finds ?_
    obtain ⟨d, u, hn⟩ := List.exists_cons_of_ne_nil n.ne_nil
    have hd : isNameChar d := n.chars d (by simp [hn])
    have hb : d ≠ '\x7b' := by rintro rfl; exact absurd hd (by decide)
    have hs : d ≠ '*' := by rintro rfl; exact absurd hd (by decide)
    rw [clause?_eq, ImportClause.text, List.append_assoc, nameFrom?_text]
    simp [hn, hb, hs]
  | braces first body after =>
    have hb : Bars isBlank (body.inBraces ++ (after.text ++ fromSource g s e)) :=
      Bars.cons (by decide) _
    have hc : clause? (body.inBraces ++ (after.text ++ fromSource g s e)) =
        some ⟨s.specifier, s.quote :: e.text⟩ := by
      rw [clause?_eq, braces?_inBraces, Option.bind_some,
        blanks_gap after (bars_fromSource g s e)]
      rw [if_pos (by simp [Braces.inBraces])]
      exact source?_from g s e
    simpa [ImportClause.text] using optionally_defaultText first keeps_clause.finds hb hc
  | star first a b n sp =>
    have hb : Bars isBlank (starText a b n ++ (sp.text ++ fromSource g s e)) :=
      Bars.cons (by decide) _
    have hc : clause? (starText a b n ++ (sp.text ++ fromSource g s e)) =
        some ⟨s.specifier, s.quote :: e.text⟩ := by
      obtain ⟨hstar, has⟩ := keyword?_as a b n (sp.text ++ fromSource g s e)
      rw [clause?_eq, if_neg (by simp [starText]), if_pos (by simp [starText]), hstar,
        Option.bind_some, Option.bind_some, has, Option.bind_some, nameFrom?_text]
    simpa [ImportClause.text] using optionally_defaultText first keeps_clause.finds hb hc

private theorem bars_importClause (c : ImportClause) (t : Text) : Bars isBlank (c.text ++ t) := by
  cases c with
  | single n sp =>
    rw [ImportClause.text, List.append_assoc]
    exact bars_identifier n _
  | braces first body after =>
    rw [ImportClause.text, List.append_assoc]
    exact bars_defaultText first (Bars.cons (by decide) _)
  | star first a b n sp =>
    rw [ImportClause.text, List.append_assoc]
    exact bars_defaultText first (Bars.cons (by decide) _)

/-- The indentation and the first word of a statement. -/
theorem keyword?_indent {w : String} (indent : Gap) (sp : Space) (hw : Bars isBlank w.toList)
    (hne : w.toList ≠ []) (hb : Bars isBlank t) :
    keyword? w (blanks (indent.text ++ (w.toList ++ (sp.text ++ t)))) = some t := by
  have hh : Bars isBlank (w.toList ++ (sp.text ++ t)) := by
    obtain ⟨c, u, hc⟩ := List.exists_cons_of_ne_nil hne
    rw [hc] at hw ⊢
    exact Bars.cons (hw c rfl) _
  rw [blanks_gap indent hh, keyword?_append w sp hb]

theorem editable?_importFrom (indent : Gap) (word : Space) (typed : Option Space)
    (c : ImportClause) (g : Gap) (s : Source) (e : Ending) :
    editable? (s.line (indent.text ++ ("import".toList ++ (word.text ++ (typeWord typed ++
      (c.text ++ ("from".toList ++ g.text)))))) e.text) =
      some ⟨s.specifier, s.quote :: e.text⟩ := by
  have hb := bars_importClause c (fromSource g s e)
  have hf := Finds.optionally skips_defaultName keeps_clause.finds
  have hc := optionally_typeWord typed hf hb (importClause?_text c g s e)
  have hk := keyword?_indent (w := "import") indent word (Bars.cons (by decide) _) (by decide)
    (bars_typeWord typed hb)
  have hi : importFrom? (indent.text ++ ("import".toList ++ (word.text ++ (typeWord typed ++
      (c.text ++ fromSource g s e))))) = some ⟨s.specifier, s.quote :: e.text⟩ := by
    simp only [importFrom?, bind, hk, Option.bind_some, hc]
  have ht : s.line (indent.text ++ ("import".toList ++ (word.text ++ (typeWord typed ++ (c.text ++
      ("from".toList ++ g.text)))))) e.text = indent.text ++ ("import".toList ++ (word.text ++
        (typeWord typed ++ (c.text ++ fromSource g s e)))) := by
    simp [Source.line, fromSource]
  rw [ht, editable?, hi, Option.some_or]

private theorem finds_editableRest : Finds Lead fun line =>
    (importOnly? line).or ((importEquals? line).or (requireAssignment? line)) :=
  keeps_importOnly.finds.or (keeps_importEquals.finds.or keeps_requireAssignment.finds)

theorem editable?_importOnly (indent g : Gap) (s : Source) (e : Ending) :
    editable? (s.line (indent.text ++ ("import".toList ++ g.text)) e.text) =
      some ⟨s.specifier, s.quote :: e.text⟩ := by
  have hq := s.bars (p := isBlank) (by decide) (s.specifier ++ s.quote :: e.text)
  have hb : Bars isBlank ("import".toList ++ (g.text ++ s.quote :: (s.specifier ++
      s.quote :: e.text))) := Bars.cons (by decide) _
  have hi : importOnly? (s.line (indent.text ++ ("import".toList ++ g.text)) e.text) =
      some ⟨s.specifier, s.quote :: e.text⟩ := by
    rw [Source.line, List.append_assoc, List.append_assoc]
    simp only [importOnly?, blanks_gap indent hb, bind, skip?_append, Option.bind_some,
      blanks_gap g hq, quoted?_source]
    simp [ending?, Quoted.after, isTail_ending]
  exact keeps_importFrom.finds.or_right finds_editableRest (by rw [hi, Option.some_or])

theorem assigned?_required (r : Required) :
    assigned? (r.source.line r.lead r.trail) =
      some ⟨r.source.specifier, r.source.quote :: r.trail⟩ := by
  have hq := r.source.bars (p := isBlank) (by decide)
    (r.source.specifier ++ r.source.quote :: r.trail)
  have hclose : skip? ")" (blanks r.trail) = some r.ending.text :=
    skip?_gap ")" r.afterSource r.ending.text (by decide)
  have hline : r.source.line r.lead r.trail = r.beforeSign.text ++ ("=".toList ++
      (r.afterSign.text ++ ("require".toList ++ (r.afterWord.text ++ ("(".toList ++
        (r.beforeSource.text ++ r.source.quote ::
          (r.source.specifier ++ r.source.quote :: r.trail))))))) := by
    simp [Source.line, Required.lead]
  have hr : required? (r.source.line r.lead r.trail) =
      some (⟨r.source.specifier, r.source.quote :: r.trail⟩, r.ending.text) := by
    rw [hline]
    simp only [required?, bind, skip?_gap "=" r.beforeSign _ (by decide), Option.bind_some,
      skip?_gap "require" r.afterSign _ (by decide), skip?_gap "(" r.afterWord _ (by decide),
      blanks_gap r.beforeSource hq, quoted?_source, Quoted.after, List.drop_one, List.tail_cons,
      hclose]
    rfl
  simp [assigned?, hr, isTail_ending]

theorem bars_required (r : Required) : Bars isNameChar (r.source.line r.lead r.trail) := by
  rw [Source.line, Required.lead, List.append_assoc]
  exact (Bars.cons (by decide) _).gap r.beforeSign

theorem editable?_importEquals (indent : Gap) (word : Space) (typed : Option Space)
    (n : Identifier) (r : Required) :
    editable? (r.source.line (indent.text ++ ("import".toList ++ (word.text ++ (typeWord typed ++
      (n.text ++ r.lead))))) r.trail) =
      some ⟨r.source.specifier, r.source.quote :: r.trail⟩ := by
  have hn := bars_identifier n (r.source.line r.lead r.trail)
  have hf : Finds Lead fun t => (skipName? t).bind assigned? :=
    (keeps_assigned.bind skips_name fun _ _ => Quiet.append).lead.finds
  have ha : (skipName? (n.text ++ r.source.line r.lead r.trail)).bind assigned? =
      some ⟨r.source.specifier, r.source.quote :: r.trail⟩ := by
    rw [skipName?_identifier n (bars_required r), Option.bind_some]
    exact assigned?_required r
  have ho := optionally_typeWord typed hf hn ha
  have hk := keyword?_indent (w := "import") indent word (Bars.cons (by decide) _) (by decide)
    (bars_typeWord typed hn)
  have hi : importEquals? (indent.text ++ ("import".toList ++ (word.text ++ (typeWord typed ++
      (n.text ++ r.source.line r.lead r.trail))))) =
      some ⟨r.source.specifier, r.source.quote :: r.trail⟩ := by
    have hh := head?_of_keyword hk (by decide)
    rw [importEquals?_eq]
    simp only [hh]
    rw [if_neg (by decide), importEqualsFrom?, hk, Option.bind_some, ho]
  have ht : r.source.line (indent.text ++ ("import".toList ++ (word.text ++ (typeWord typed ++
      (n.text ++ r.lead))))) r.trail = indent.text ++ ("import".toList ++ (word.text ++
        (typeWord typed ++ (n.text ++ r.source.line r.lead r.trail)))) := by
    simp [Source.line]
  have hrest := keeps_importOnly.finds.or_right
    (keeps_importEquals.finds.or keeps_requireAssignment.finds) (by rw [hi, Option.some_or])
  rw [ht]
  exact keeps_importFrom.finds.or_right finds_editableRest hrest

theorem declares?_append {keyword : String} (h : keyword ∈ ["const", "let", "var"]) (sp : Space)
    (hb : Bars isBlank t) : declares? (keyword.toList ++ (sp.text ++ t)) = some t := by
  have hk := keyword?_append keyword sp hb
  unfold declares?
  simp only [List.mem_cons, List.not_mem_nil, or_false] at h
  rcases h with rfl | rfl | rfl
  · rw [hk, Option.some_or]
  · rw [hk, Option.some_or]
    rfl
  · rw [hk]
    rfl

theorem editable?_declaration (indent : Gap) {keyword : String}
    (h : keyword ∈ ["const", "let", "var"]) (word : Space) (b : Binding) (r : Required) :
    editable? (r.source.line (indent.text ++ (keyword.toList ++ (word.text ++ (b.text ++ r.lead))))
      r.trail) = some ⟨r.source.specifier, r.source.quote :: r.trail⟩ := by
  have hb : Bars isBlank (b.text ++ r.source.line r.lead r.trail) := by
    cases b with
    | name n => exact bars_identifier n _
    | braces body => exact Bars.cons (by decide) _
  have hkw : Bars isBlank (keyword.toList ++ (word.text ++ (b.text ++
      r.source.line r.lead r.trail))) := by
    simp only [List.mem_cons, List.not_mem_nil, or_false] at h
    rcases h with rfl | rfl | rfl <;> exact Bars.cons (by decide) _
  have hd := declares?_append h word hb
  have hbind : binding? (indent.text ++ (keyword.toList ++ (word.text ++ (b.text ++
      r.source.line r.lead r.trail)))) = some (r.source.line r.lead r.trail) := by
    rw [binding?_eq, blanks_gap indent hkw, hd, Option.bind_some]
    cases b with
    | name n =>
      obtain ⟨d, u, hn⟩ := List.exists_cons_of_ne_nil n.ne_nil
      have hdn : isNameChar d := n.chars d (by simp [hn])
      have hne : d ≠ '\x7b' := by rintro rfl; exact absurd hdn (by decide)
      rw [if_neg (by simp [Binding.text, hn, hne])]
      exact skipName?_identifier n (bars_required r)
    | braces body =>
      rw [if_pos (by simp [Binding.text, Braces.inBraces])]
      exact braces?_inBraces body _
  have hr : requireAssignment? (indent.text ++ (keyword.toList ++ (word.text ++ (b.text ++
      r.source.line r.lead r.trail)))) =
      some ⟨r.source.specifier, r.source.quote :: r.trail⟩ := by
    rw [requireAssignment?, hbind, Option.bind_some, assigned?_required]
  have ht : r.source.line (indent.text ++ (keyword.toList ++ (word.text ++ (b.text ++ r.lead))))
      r.trail = indent.text ++ (keyword.toList ++ (word.text ++ (b.text ++
        r.source.line r.lead r.trail))) := by
    simp [Source.line]
  have hlast := keeps_importEquals.finds.or_right keeps_requireAssignment.finds hr
  have hrest := keeps_importOnly.finds.or_right
    (keeps_importEquals.finds.or keeps_requireAssignment.finds) hlast
  rw [ht]
  exact keeps_importFrom.finds.or_right finds_editableRest hrest

theorem skip?_eq_none {w : String} (hw : w.toList ≠ []) (h : t.head? ≠ w.toList.head?) :
    skip? w t = none := by
  rw [Option.eq_none_iff_forall_ne_some]
  intro r hr
  exact h (head?_of_skip hr hw)

theorem keyword?_eq_none_of_head {w : String} (hw : w.toList ≠ []) (h : t.head? ≠ w.toList.head?) :
    keyword? w t = none := by
  rw [keyword?, skip?_eq_none hw h, Option.bind_none]

/-- No export but one of an import has a specifier to replace. -/
theorem editable?_export (indent : Gap) (word : Space) (hb : Bars isBlank t)
    (hi : t.head? ≠ some 'i') :
    editable? (indent.text ++ ("export".toList ++ (word.text ++ t))) = none := by
  have he := blanks_gap (t := "export".toList ++ (word.text ++ t)) indent (Bars.cons (by decide) _)
  have hk := keyword?_append "export" word hb
  generalize hline : indent.text ++ ("export".toList ++ (word.text ++ t)) = line at he
  have hh : (blanks line).head? = some 'e' := by rw [he]; rfl
  have hfrom : importFrom? line = none := by
    simp [importFrom?, keyword?_eq_none_of_head (w := "import") (by decide) (by rw [hh]; decide)]
  have honly : importOnly? line = none := by
    simp [importOnly?, skip?_eq_none (w := "import") (by decide) (by rw [hh]; decide)]
  have hequals : importEquals? line = none := by
    rw [importEquals?_eq]
    simp only [hh, if_true]
    rw [he, hk, Option.bind_some, importEqualsFrom?,
      keyword?_eq_none_of_head (by decide) hi, Option.bind_none]
  have hrequire : requireAssignment? line = none := by
    have hd : declares? (blanks line) = none := by
      unfold declares?
      rw [keyword?_eq_none_of_head (by decide) (by rw [hh]; decide),
        keyword?_eq_none_of_head (by decide) (by rw [hh]; decide),
        keyword?_eq_none_of_head (by decide) (by rw [hh]; decide)]
      rfl
    rw [requireAssignment?, binding?_eq, hd, Option.bind_none, Option.bind_none]
  simp [editable?, hfrom, honly, hequals, hrequire]

theorem head?_typeWord (typed : Option Space) (h : t.head? ≠ some 'i') :
    (typeWord typed ++ t).head? ≠ some 'i' := by
  cases typed with
  | none => exact h
  | some s => simp [typeWord]

private theorem exported?_text (c : ExportClause) (g : Gap) (s : Source) (e : Ending) :
    exported? (c.text ++ fromSource g s e) = some ⟨s.specifier, s.quote :: e.text⟩ := by
  have hf := bars_fromSource g s e
  cases c with
  | braces body after =>
    have hb : braces? (body.inBraces ++ (after.text ++ fromSource g s e)) =
        some (after.text ++ fromSource g s e) := braces?_inBraces body _
    have hs : source? (blanks (after.text ++ fromSource g s e)) =
        some ⟨s.specifier, s.quote :: e.text⟩ := by
      rw [blanks_gap after hf]
      exact source?_from g s e
    simp only [ExportClause.text, List.append_assoc, Braces.inBraces, List.cons_append] at hb ⊢
    simp only [exported?, hb, Option.bind_some, hs]
  | star after =>
    have hs : source? (blanks (after.text ++ fromSource g s e)) =
        some ⟨s.specifier, s.quote :: e.text⟩ := by
      rw [blanks_gap after hf]
      exact source?_from g s e
    have has : keyword? "as" (blanks (after.text ++ fromSource g s e)) = none := by
      rw [blanks_gap after hf]
      exact keyword?_eq_none_of_head (by decide) (by simp [fromSource])
    simp only [ExportClause.text, List.cons_append, exported?, has, Option.bind_none,
      Option.none_or, hs]
  | starAs a b n sp =>
    obtain ⟨-, has⟩ := keyword?_as a b n (sp.text ++ fromSource g s e)
    have hn : nameThenSource? (n.text ++ (sp.text ++ fromSource g s e)) =
        some ⟨s.specifier, s.quote :: e.text⟩ := by
      have hs := source?_from g s e
      simp only [nameThenSource?, name?_identifier n (Bars.space sp _), bind, Option.bind_some,
        blanks_gap sp.toGap hf]
      rw [fromSource, hs, Option.some_or]
    simp only [ExportClause.text, starText, List.append_assoc, List.cons_append, exported?] at has ⊢
    rw [has, Option.bind_some, hn, Option.some_or]

private theorem bars_exportClause (c : ExportClause) (t : Text) : Bars isBlank (c.text ++ t) := by
  cases c <;> exact Bars.cons (by decide) _

private theorem head?_exportClause (c : ExportClause) (t : Text) :
    (c.text ++ t).head? ≠ some 'i' := by
  cases c <;> simp [ExportClause.text, Braces.inBraces, starText]

/-- A re-export is passed over. -/
theorem editable?_exportFrom (indent : Gap) (word : Space) (typed : Option Space)
    (c : ExportClause) (g : Gap) (s : Source) (e : Ending) :
    let line := s.line (indent.text ++ ("export".toList ++ (word.text ++ (typeWord typed ++
      (c.text ++ ("from".toList ++ g.text)))))) e.text
    editable? line = none ∧ (reexport? line).isSome = true := by
  have hb := bars_typeWord typed (bars_exportClause c (fromSource g s e))
  have ht : s.line (indent.text ++ ("export".toList ++ (word.text ++ (typeWord typed ++ (c.text ++
      ("from".toList ++ g.text)))))) e.text = indent.text ++ ("export".toList ++ (word.text ++
        (typeWord typed ++ (c.text ++ fromSource g s e)))) := by
    simp [Source.line, fromSource]
  have ho := optionally_typeWord typed finds_exported (bars_exportClause c _)
    (exported?_text c g s e)
  have hk := keyword?_indent (w := "export") indent word (Bars.cons (by decide) _) (by decide) hb
  intro line
  constructor
  · rw [show line = _ from ht]
    exact editable?_export indent word hb (head?_typeWord typed (head?_exportClause c _))
  · rw [show line = _ from ht, reexport?_eq, hk, Option.bind_some, ho]
    rfl

end ImportAlias.Header
