import ImportAlias.Proofs.Header.Forms

/-! Scanning keeps every character, and scanning again after the specifiers of a header have been
replaced finds the same header. -/
namespace ImportAlias

namespace HeaderLine

/-- The specifier `s` stands on the line between two `c`. -/
def Encloses (l : HeaderLine) (c : Char) (s : Specifier) : Prop :=
  ∃ lead tail, l = .slot (lead ++ [c]) s (c :: tail)

/-- The alias that the line gets, if it gets one, has no line break and not the character that
its specifier stands between. -/
def Takes (choose : Specifier → Option Text) (l : HeaderLine) : Prop :=
  ∀ c s a, l.Encloses c s → choose s = some a → '\n' ∉ a ∧ c ∉ a

end HeaderLine

namespace Header

theorem slotOf_append (lead body tail : Text) (c : Char) :
    slotOf (lead ++ c :: (body ++ c :: tail)) ⟨body, c :: tail⟩ =
      .slot (lead ++ [c]) body (c :: tail) := by
  have hl : (lead ++ c :: (body ++ c :: tail)).length - (body.length + (c :: tail).length) =
      (lead ++ [c]).length := by
    simp only [List.length_append, List.length_cons, List.length_nil]
    omega
  have ht : (lead ++ c :: (body ++ c :: tail)).take (lead ++ [c]).length = lead ++ [c] := by
    rw [show lead ++ c :: (body ++ c :: tail) = (lead ++ [c]) ++ (body ++ c :: tail) by simp]
    exact List.take_left
  unfold slotOf
  rw [hl, ht]

theorem slotOf_eq {line lead tail : Text} {q : Quoted} {c : Char}
    (h : IsSlot line q lead c tail) : slotOf line q = .slot (lead ++ [c]) q.body (c :: tail) := by
  have hq : q = ⟨q.body, c :: tail⟩ := by rw [← h.rest_eq]
  rw [h.text_eq, hq, slotOf_append]

theorem comments?_ne_start {inside : Bool} {t : Text} : comments? inside t ≠ some .start := by
  fun_induction comments? inside t <;> simp_all

/-! Reading comments goes on by a character where no mark of a comment starts. -/

theorem comments?_inside_cons {c : Char} {t : Text} (h : c = '*' → t.head? ≠ some '/') :
    comments? true (c :: t) = comments? true t := by
  rw [comments?.eq_def true (c :: t)]
  split <;> simp_all

theorem comments?_outside_cons {c : Char} {t : Text}
    (h : c = '/' → t.head? ≠ some '/' ∧ t.head? ≠ some '*') :
    comments? false (c :: t) = if Text.isBlank c then comments? false t else none := by
  rw [comments?.eq_def false (c :: t)]
  split <;> simp_all

theorem comments?_blank_cons {c : Char} (hc : Text.isBlank c) (t : Text) :
    comments? false (c :: t) = comments? false t := by
  have hne : c ≠ '/' := by rintro rfl; exact absurd hc (by decide)
  rw [comments?_outside_cons fun h => absurd h hne, if_pos hc]

theorem comments?_eq_none {line : Text} {c : Char} (h : (blanks line).head? = some c)
    (hc : c ≠ '/') : comments? false line = none := by
  induction line with
  | nil => simp [blanks] at h
  | cons d line ih =>
    by_cases hb : Text.isBlank d
    · have hh : (blanks line).head? = some c := by simpa [blanks, hb] using h
      rw [comments?_blank_cons hb, ih hh]
    · obtain rfl : d = c := by simpa [blanks, hb] using h
      rw [comments?_outside_cons fun h => absurd h hc, if_neg hb]

/-- What is first on a line, whitespace aside, does not depend on what follows a quote. -/
private theorem head?_blanks {lead : Text} {c : Char} (hc : IsQuote c) (u v : Text) :
    (blanks (lead ++ c :: u)).head? = (blanks (lead ++ c :: v)).head? := by
  have hb : Text.isBlank c = false := by rcases hc with rfl | rfl <;> decide
  induction lead with
  | nil => simp [blanks, hb]
  | cons d lead ih =>
    by_cases hd : Text.isBlank d
    · simpa [blanks, hd] using ih
    · simp [blanks, hd]

theorem isDirective_eq_false {line : Text} {c : Char} (h : (blanks line).head? = some c)
    (hc : ¬ IsQuote c) : isDirective line = false := by
  unfold isDirective
  cases hq : quoted? (blanks line) with
  | none => rfl
  | some q =>
    obtain ⟨d, tail, ht, -, hd, -⟩ := quoted?_eq_some.mp hq
    rw [ht] at h
    obtain rfl : d = c := by simpa using h
    exact absurd hd hc

/-- The states in which a whole statement may stand on a line. -/
theorem scanLine_statement {state : State} (hs : state = .start ∨ state = .statement)
    {line : Text} {c : Char} (h : (blanks line).head? = some c)
    (hc : c ∉ ['/', '#']) : scanLine state line = scanStatement line := by
  have hn := comments?_eq_none h fun hslash => hc (by simp [hslash])
  have hsb : Text.startsWith ['#', '!'] (blanks line) = false := by
    unfold Text.startsWith
    rw [Option.isSome_eq_false_iff, Option.isNone_iff_eq_none,
      Option.eq_none_iff_forall_ne_some]
    intro r hr
    rw [Text.after?_eq_some.mp hr] at h
    obtain rfl : '#' = c := by simpa using h
    exact hc (by decide)
  rcases hs with rfl | rfl <;> simp [scanLine, hn, hsb]

/-- What one step of the scanner can do. -/
inductive Scanned : State → Text → HeaderLine → State → Prop where
  | insideComment {line next} : comments? true line = some next →
      Scanned .comment line (.plain line) next
  | comment {state line next} : state = .start ∨ state = .statement →
      comments? false line = some next → Scanned state line (.plain line) next
  | hashbang {line} : Text.startsWith ['#', '!'] (blanks line) →
      Scanned .start line (.plain line) .statement
  | directive {state line} : state = .start ∨ state = .statement → isDirective line →
      Scanned state line (.plain line) .statement
  | editable {state line q} : state = .start ∨ state = .statement → editable? line = some q →
      Scanned state line (slotOf line q) .statement
  | passive {state line} : state = .start ∨ state = .statement →
      isRequireMember line ∨ (reexport? line).isSome → Scanned state line (.plain line) .statement
  | importOpener {state line} : state = .start ∨ state = .statement → isImportOpener line →
      Scanned state line (.plain line) (.list .imports)
  | exportOpener {state line} : state = .start ∨ state = .statement → isExportOpener line →
      Scanned state line (.plain line) (.list .exports)
  | importSource {line q} : listSource? line = some q →
      Scanned (.list .imports) line (slotOf line q) .statement
  | exportSource {line q} : listSource? line = some q →
      Scanned (.list .exports) line (.plain line) .statement
  | listClose {line} : isListClose line → Scanned (.list .exports) line (.plain line) .statement
  | listLine {kind line} : isListLine line → Scanned (.list kind) line (.plain line) (.list kind)

private theorem scanned_of_scanStatement {state : State} (hst : state = .start ∨ state = .statement)
    {line : Text} {found : HeaderLine} {next : State}
    (h : scanStatement line = some (found, next)) : Scanned state line found next := by
  unfold scanStatement at h
  by_cases hd : isDirective line
  · obtain ⟨rfl, rfl⟩ : .plain line = found ∧ .statement = next := by simpa [hd] using h
    exact .directive hst hd
  cases hq : editable? line with
  | some q =>
    obtain ⟨rfl, rfl⟩ : slotOf line q = found ∧ .statement = next := by simpa [hd, hq] using h
    exact .editable hst hq
  | none =>
    rw [if_neg hd, hq] at h
    dsimp only at h
    split_ifs at h with hp hi he
    · obtain ⟨rfl, rfl⟩ := Prod.mk.inj (Option.some.inj h)
      exact .passive hst hp
    · obtain ⟨rfl, rfl⟩ := Prod.mk.inj (Option.some.inj h)
      exact .importOpener hst hi
    · obtain ⟨rfl, rfl⟩ := Prod.mk.inj (Option.some.inj h)
      exact .exportOpener hst he

private theorem scanned_of_scanListLine {kind : ListKind} {line : Text} {found : HeaderLine}
    {next : State} (h : scanListLine kind line = some (found, next)) :
    Scanned (.list kind) line found next := by
  unfold scanListLine at h
  cases hq : listSource? line with
  | some q =>
    cases kind with
    | imports =>
      obtain ⟨rfl, rfl⟩ : slotOf line q = found ∧ .statement = next := by simpa [hq] using h
      exact .importSource hq
    | exports =>
      obtain ⟨rfl, rfl⟩ : .plain line = found ∧ .statement = next := by simpa [hq] using h
      exact .exportSource hq
  | none =>
    simp only [hq] at h
    split_ifs at h with hc hl
    · obtain ⟨rfl, rfl⟩ := Prod.mk.inj (Option.some.inj h)
      obtain ⟨rfl, hc⟩ := hc
      exact .listClose hc
    · obtain ⟨rfl, rfl⟩ := Prod.mk.inj (Option.some.inj h)
      exact .listLine hl

theorem scanned_of_scanLine {state : State} {line : Text} {found : HeaderLine} {next : State}
    (h : scanLine state line = some (found, next)) : Scanned state line found next := by
  cases state with
  | comment =>
    obtain ⟨s, hs, he⟩ := Option.map_eq_some_iff.mp h
    obtain ⟨rfl, rfl⟩ := Prod.mk.inj he
    exact .insideComment hs
  | list kind => exact scanned_of_scanListLine h
  | start =>
    simp only [scanLine] at h
    cases hc : comments? false line with
    | some s =>
      obtain ⟨rfl, rfl⟩ : .plain line = found ∧ s = next := by simpa [hc] using h
      exact .comment (.inl rfl) hc
    | none =>
      simp only [hc] at h
      split_ifs at h with hb
      · obtain ⟨rfl, rfl⟩ := Prod.mk.inj (Option.some.inj h)
        exact .hashbang hb
      · exact scanned_of_scanStatement (.inl rfl) h
  | statement =>
    simp only [scanLine] at h
    cases hc : comments? false line with
    | some s =>
      obtain ⟨rfl, rfl⟩ : .plain line = found ∧ s = next := by simpa [hc] using h
      exact .comment (.inr rfl) hc
    | none =>
      simp only [hc] at h
      exact scanned_of_scanStatement (.inr rfl) h

/-- The slot of a scanned line. Every other text between its quotes is scanned alike. -/
structure IsCut (state : State) (line before : Text) (s : Specifier) (after : Text)
    (lead : Text) (c : Char) (tail : Text) : Prop where
  isLead : Lead lead
  slot : IsSlot line ⟨s, after⟩ lead c tail
  before_eq : before = lead ++ [c]
  replaced : ∀ s', c ∉ s' →
    scanLine state (before ++ s' ++ after) = some (.slot before s' after, .statement)

private theorem isCut_editable {state : State} (hst : state = .start ∨ state = .statement)
    {line before after : Text} {s : Specifier} {q : Quoted} (hq : editable? line = some q)
    (h : slotOf line q = .slot before s after) :
    ∃ lead c tail, IsCut state line before s after lead c tail := by
  obtain ⟨lead, c, tail, hl, hs, hk⟩ := keeps_editable hq
  rw [slotOf_eq hs] at h
  obtain ⟨rfl, rfl, rfl⟩ := HeaderLine.slot.inj h
  refine ⟨lead, c, tail, hl, { hs with rest_eq := rfl }, rfl, fun s' hs' => ?_⟩
  obtain ⟨d, hd, hh⟩ := head?_of_editable hq
  have heq : lead ++ [c] ++ s' ++ c :: tail = lead ++ c :: (s' ++ c :: tail) := by simp
  have hh' : (blanks (lead ++ c :: (s' ++ c :: tail))).head? = some d := by
    rw [head?_blanks hs.quote _ (q.body ++ c :: tail), ← hs.text_eq, hh]
  have hquote : ¬ IsQuote d := by rintro (rfl | rfl) <;> exact absurd hd (by decide)
  have hfirst : d ∉ ['/', '#'] := by
    have hall : ∀ d ∈ ['i', 'e', 'c', 'l', 'v'], d ∉ ['/', '#'] := by simp
    exact hall d hd
  have hs'' : IsSlot (lead ++ c :: (s' ++ c :: tail)) ⟨s', c :: tail⟩ lead c tail :=
    ⟨rfl, rfl, hs.quote, hs', hs.trails⟩
  rw [heq, scanLine_statement hst hh' hfirst]
  simp [scanStatement, isDirective_eq_false hh' hquote, hk s' hs', slotOf_eq hs'']

private theorem isCut_importSource {line before after : Text} {s : Specifier} {q : Quoted}
    (hq : listSource? line = some q) (h : slotOf line q = .slot before s after) :
    ∃ lead c tail, IsCut (.list .imports) line before s after lead c tail := by
  obtain ⟨lead, c, tail, hl, hs, hk⟩ := keeps_listSource hq
  rw [slotOf_eq hs] at h
  obtain ⟨rfl, rfl, rfl⟩ := HeaderLine.slot.inj h
  refine ⟨lead, c, tail, .plain hl, { hs with rest_eq := rfl }, rfl, fun s' hs' => ?_⟩
  have heq : lead ++ [c] ++ s' ++ c :: tail = lead ++ c :: (s' ++ c :: tail) := by simp
  have hs'' : IsSlot (lead ++ c :: (s' ++ c :: tail)) ⟨s', c :: tail⟩ lead c tail :=
    ⟨rfl, rfl, hs.quote, hs', hs.trails⟩
  rw [heq]
  simp [scanLine, scanListLine, hk s' hs', slotOf_eq hs'']

theorem Scanned.isCut {state : State} {line before after : Text} {s : Specifier} {next : State}
    (h : Scanned state line (.slot before s after) next) :
    next = .statement ∧ ∃ lead c tail, IsCut state line before s after lead c tail := by
  generalize hf : HeaderLine.slot before s after = found at h
  cases h with
  | editable hst hq => exact ⟨rfl, isCut_editable hst hq hf.symm⟩
  | importSource hq => exact ⟨rfl, isCut_importSource hq hf.symm⟩
  | _ => cases hf

theorem Scanned.plain_eq {state : State} {line t : Text} {next : State}
    (h : Scanned state line (.plain t) next) : t = line := by
  generalize hf : HeaderLine.plain t = found at h
  cases h with
  | editable => cases hf
  | importSource => cases hf
  | _ => exact HeaderLine.plain.inj hf

theorem Scanned.text_eq {state : State} {line : Text} {found : HeaderLine} {next : State}
    (h : Scanned state line found next) : found.text = line := by
  cases found with
  | plain t => exact h.plain_eq
  | slot before s after =>
    obtain ⟨-, lead, c, tail, hc⟩ := h.isCut
    have ha : after = c :: tail := hc.slot.rest_eq
    have ht : line = lead ++ c :: (s ++ c :: tail) := hc.slot.text_eq
    simp [HeaderLine.text, hc.before_eq, ha, ht]

/-- Scanning keeps every character of every line. -/
theorem text_scanLines (state : State) (ls : List Text) :
    (scanLines state ls).lines.map HeaderLine.text ++ (scanLines state ls).body = ls := by
  induction ls generalizing state with
  | nil => rfl
  | cons line rest ih =>
    unfold scanLines
    cases h : scanLine state line with
    | none => rfl
    | some p =>
      obtain ⟨found, next⟩ := p
      have ht := (scanned_of_scanLine h).text_eq
      simp [ht, ih next]

@[simp] theorem text_scan (text : Text) : (scan text).text = text := by
  unfold Header.text scan
  rw [text_scanLines, Text.joinWith_splitOn]

theorem IsCut.encloses {state : State} {line before after lead tail : Text} {s : Specifier}
    {c : Char} (h : IsCut state line before s after lead c tail) :
    (HeaderLine.slot before s after).Encloses c s := by
  have ha : after = c :: tail := h.slot.rest_eq
  exact ⟨lead, tail, by rw [h.before_eq, ha]⟩

/-- A line of a header was scanned as such. -/
theorem scanned_of_mem {state : State} {ls : List Text} {l : HeaderLine}
    (h : l ∈ (scanLines state ls).lines) :
    ∃ at? line next, line ∈ ls ∧ Scanned at? line l next := by
  induction ls generalizing state with
  | nil => simp [scanLines] at h
  | cons line rest ih =>
    cases hs : scanLine state line with
    | none => simp [scanLines, hs] at h
    | some p =>
      obtain ⟨found, next⟩ := p
      simp only [scanLines, hs, List.mem_cons] at h
      rcases h with rfl | h
      · exact ⟨state, line, next, by simp, scanned_of_scanLine hs⟩
      · obtain ⟨at?, line', next', hm, hsc⟩ := ih h
        exact ⟨at?, line', next', by simp [hm], hsc⟩

theorem not_mem_text_of_mem_scan {text : Text} {l : HeaderLine} (h : l ∈ (scan text).lines) :
    '\n' ∉ l.text := by
  obtain ⟨state, line, next, hm, hs⟩ := scanned_of_mem h
  rw [hs.text_eq]
  exact Text.not_mem_of_mem_splitOn hm

/-- The specifier of a slot stands between two quotes that it does not hold. -/
theorem exists_encloses {text before after : Text} {s : Specifier}
    (h : .slot before s after ∈ (scan text).lines) :
    ∃ c, IsQuote c ∧ c ∉ s ∧ (HeaderLine.slot before s after).Encloses c s := by
  obtain ⟨state, line, next, -, hs⟩ := scanned_of_mem h
  obtain ⟨-, lead, c, tail, hcut⟩ := hs.isCut
  exact ⟨c, hcut.slot.quote, hcut.slot.fresh, hcut.encloses⟩

theorem quote_of_encloses {text : Text} {l : HeaderLine} (h : l ∈ (scan text).lines) {c : Char}
    {s : Specifier} (he : l.Encloses c s) : IsQuote c ∧ c ∉ s := by
  obtain ⟨lead, tail, rfl⟩ := he
  obtain ⟨d, hq, hd, lead', tail', hl⟩ := exists_encloses h
  obtain ⟨hb, -, -⟩ := HeaderLine.slot.inj hl
  obtain ⟨-, rfl⟩ : lead = lead' ∧ c = d := by simpa using hb
  exact ⟨hq, hd⟩

/-- Every alias fits between the quotes of a line, whichever they are. -/
def Fits (choose : Specifier → Option Text) : Prop :=
  ∀ ⦃s a⦄, choose s = some a → '"' ∉ a ∧ '\x27' ∉ a ∧ '\n' ∉ a

/-- Every alias that goes into the header fits between the quotes of its own line. -/
def Intact (choose : Specifier → Option Text) (h : Header) : Prop :=
  ∀ l ∈ h.lines, l.Takes choose

variable {choose : Specifier → Option Text}

/-- A specifier that is replaced by an alias that fits still misses the quote around it. -/
theorem IsCut.fresh_aliased {state : State} {line before after lead tail : Text} {s : Specifier}
    {c : Char} (h : IsCut state line before s after lead c tail)
    (hc : (HeaderLine.slot before s after).Takes choose) : c ∉ (choose s).getD s := by
  cases ha : choose s with
  | none => exact h.slot.fresh
  | some a => exact (hc c s a h.encloses ha).2

theorem scanLine_aliased {state : State} {line : Text} {found : HeaderLine} {next : State}
    (h : scanLine state line = some (found, next)) (hc : found.Takes choose) :
    scanLine state (found.aliased choose).text = some (found.aliased choose, next) := by
  have hs := scanned_of_scanLine h
  cases found with
  | plain t =>
    obtain rfl := hs.plain_eq
    exact h
  | slot before s after =>
    obtain ⟨rfl, lead, c, tail, hcut⟩ := hs.isCut
    exact hcut.replaced _ (hcut.fresh_aliased hc)

theorem scanLines_aliased (state : State) (ls : List Text)
    (hc : (scanLines state ls).Intact choose) :
    scanLines state ((scanLines state ls).lines.map (fun l => (l.aliased choose).text) ++
      (scanLines state ls).body) = (scanLines state ls).aliased choose := by
  induction ls generalizing state with
  | nil => rfl
  | cons line rest ih =>
    cases h : scanLine state line with
    | none => simp [scanLines, h, Header.aliased]
    | some p =>
      obtain ⟨found, next⟩ := p
      simp only [Intact, scanLines, h, List.forall_mem_cons] at hc
      have hi := ih next hc.2
      have hl := scanLine_aliased h hc.1
      simp only [scanLines, h, Header.aliased, List.map_cons, List.cons_append, hl, hi]

theorem splitOn_text (text : Text) :
    Text.splitOn '\n' text = (scan text).lines.map HeaderLine.text ++ (scan text).body :=
  (text_scanLines .start _).symm

/-- A line stays one line if its alias, if it gets one, has no line break. -/
theorem not_mem_text_aliased {text : Text} {l : HeaderLine} (hl : l ∈ (scan text).lines)
    (hc : ∀ s a, l.specifier? = some s → choose s = some a → '\n' ∉ a) :
    '\n' ∉ (l.aliased choose).text := by
  have hn := not_mem_text_of_mem_scan hl
  cases l with
  | plain t => exact hn
  | slot before s after =>
    cases ha : choose s with
    | none => simpa [HeaderLine.aliased, ha] using hn
    | some a =>
      have hr := hc s a rfl ha
      simp only [HeaderLine.text, List.mem_append, not_or] at hn
      simp [HeaderLine.aliased, HeaderLine.text, ha, hn.1.1, hn.2, hr]

def textsAliased (choose : Specifier → Option Text) (h : Header) : List Text :=
  h.lines.map (fun l => (l.aliased choose).text) ++ h.body

theorem text_aliased_eq (choose : Specifier → Option Text) (h : Header) :
    (h.aliased choose).text = Text.joinWith '\n' (h.textsAliased choose) := by
  simp [Header.text, Header.aliased, textsAliased, Function.comp_def]

theorem not_mem_of_mem_textsAliased {text : Text}
    (hc : ∀ l ∈ (scan text).lines, '\n' ∉ (l.aliased choose).text) :
    ∀ t ∈ (scan text).textsAliased choose, '\n' ∉ t := by
  intro t ht
  rcases List.mem_append.mp ht with ht | ht
  · obtain ⟨l, hl, rfl⟩ := List.mem_map.mp ht
    exact hc l hl
  · refine Text.not_mem_of_mem_splitOn (t := text) ?_
    rw [splitOn_text]
    exact List.mem_append_right _ ht

theorem splitOn_text_aliased {text : Text}
    (hc : ∀ l ∈ (scan text).lines, '\n' ∉ (l.aliased choose).text) :
    Text.splitOn '\n' ((scan text).aliased choose).text =
      (scan text).lines.map (fun l => (l.aliased choose).text) ++ (scan text).body := by
  have hne : (scan text).textsAliased choose ≠ [] := by
    intro hnil
    have hs := splitOn_text text
    simp only [textsAliased, List.append_eq_nil_iff, List.map_eq_nil_iff] at hnil
    rw [hnil.1, hnil.2] at hs
    exact Text.splitOn_ne_nil '\n' text hs
  rw [text_aliased_eq, Text.splitOn_joinWith hne (not_mem_of_mem_textsAliased hc)]
  rfl

theorem Intact.splitOn {text : Text} (hc : (scan text).Intact choose) :
    Text.splitOn '\n' ((scan text).aliased choose).text =
      (scan text).lines.map (fun l => (l.aliased choose).text) ++ (scan text).body := by
  refine splitOn_text_aliased fun l hl => not_mem_text_aliased hl fun s a hs ha => ?_
  cases l with
  | plain t => cases hs
  | slot before s' after =>
    obtain rfl : s' = s := Option.some.inj hs
    obtain ⟨c, -, -, he⟩ := exists_encloses hl
    exact (hc _ hl c s' a he ha).1

/-- Scanning a text in which aliases have been put in gives the header with the aliases in it, if
each of them fits between the quotes of its line. -/
theorem scan_text_intact {text : Text} (hc : (scan text).Intact choose) :
    scan ((scan text).aliased choose).text = (scan text).aliased choose := by
  change scanLines .start (Text.splitOn '\n' _) = _
  rw [hc.splitOn]
  exact scanLines_aliased .start _ hc

theorem Fits.intact (hc : Fits choose) (text : Text) : (scan text).Intact choose := by
  intro l hl c s a he ha
  obtain ⟨hd, hsq, hn⟩ := hc ha
  refine ⟨hn, ?_⟩
  rcases (quote_of_encloses hl he).1 with rfl | rfl
  · exact hd
  · exact hsq

theorem scan_text_aliased (hc : Fits choose) (text : Text) :
    scan ((scan text).aliased choose).text = (scan text).aliased choose :=
  scan_text_intact (hc.intact text)

def editsFrom (choose : Specifier → Option Text) (n : Nat) (ls : List HeaderLine) :
    List Edit :=
  (candidatesFrom n ls).filterMap fun (n, s) => (choose s).map fun a => ⟨n, s, a⟩

theorem editsFrom_plain (n : Nat) (t : Text) (ls : List HeaderLine) :
    editsFrom choose n (.plain t :: ls) = editsFrom choose (n + 1) ls := rfl

theorem editsFrom_slot (n : Nat) (before after : Text) (s : Specifier)
    (ls : List HeaderLine) : editsFrom choose n (.slot before s after :: ls) =
      ((choose s).map fun a => ⟨n, s, a⟩).toList ++ editsFrom choose (n + 1) ls := by
  cases h : choose s <;> simp [editsFrom, candidatesFrom, h]

end Header

end ImportAlias
