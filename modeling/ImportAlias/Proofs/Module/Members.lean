import ImportAlias.Proofs.Module.Phrases

/-! Comma lists as the grammar reads them: the members of named imports and re-exports, and the
names of a pattern. -/
namespace ImportAlias.Grammar

open Phrase Header

variable {k k' : Nat} {g : Phrase} {t u v w r : Text}

/-- A repetition in which nothing is found. -/
def Rounds (k : Nat) (g : Phrase) (t u : Text) : Prop :=
  ∃ a, Repeats .typeScript k g t a u ∧ Silent a

theorem rounds_nil (h : Refuses .typeScript g t) : Rounds k g t t :=
  ⟨[], fun n m _ hm => h.repeats n m (by omega) hm, silent_nil⟩

theorem Rounds.cons (h : Reads k g t .nothing u) (hlt : u.length < t.length) (hs : Rounds k g u v) :
    Rounds k g t v := by
  obtain ⟨a, ha, hsa⟩ := h
  obtain ⟨b, hb, hsb⟩ := hs
  exact ⟨a ++ b, by simpa using ha.repeats hlt hb, Silent.append hsa hsb⟩

theorem Rounds.many (h : Rounds k g t u) : Reads (k + 1) (.many g) t .nothing u := by
  obtain ⟨a, ha, hs⟩ := h
  exact ⟨a, ha.many, hs⟩

/-- The text after a member: whitespace, and a comma or the closing brace. -/
def Follows (t : Text) : Prop := ∃ v c r, t = v ++ c :: r ∧ Blank v ∧ (c = ',' ∨ c = '\x7d')

theorem follows_comma (hv : Blank v) (r : Text) : Follows (v ++ ',' :: r) :=
  ⟨v, ',', r, rfl, hv, .inl rfl⟩

theorem follows_brace (hv : Blank v) (r : Text) : Follows (v ++ '\x7d' :: r) :=
  ⟨v, '\x7d', r, rfl, hv, .inr rfl⟩

theorem isMark_of_follows {c : Char} (h : c = ',' ∨ c = '\x7d') : IsMark c := by
  rcases h with rfl | rfl <;> decide

theorem Follows.apart (h : Follows t) : Apart t := by
  obtain ⟨v, c, r, rfl, hv, hc⟩ := h
  exact ((isMark_of_follows hc).apart r).blank hv

theorem Follows.clear (h : Follows t) {words : List String} {marks : List Char}
    (hm : (marks.contains ',' || marks.contains '\x7d') = false) : Clear words marks t := by
  obtain ⟨v, c, r, rfl, hv, hc⟩ := h
  refine clear_mark hv (isMark_of_follows hc) ?_ r
  simp only [Bool.or_eq_false_iff, List.contains_eq_mem, decide_eq_false_iff_not] at hm
  rcases hc with rfl | rfl
  · exact hm.1
  · exact hm.2

/-! Lists of items -/

section Lists

variable {α : Type} {f : α → Text}

/-- A phrase reads an item before a comma or a brace. -/
def ReadsItems (k : Nat) (f : α → Text) (p : Phrase) : Prop :=
  ∀ (a : α) (w r : Text), Blank w → Follows r → Reads k p (w ++ (f a ++ r)) .nothing r

/-- The rest of a comma list from a comma on, up to the closing brace. -/
def restText (f : α → Text) (listed : List (α × Padding × Wide)) (last : Option (α × Wide))
    (r : Text) : Text := listedText f listed ++ (lastText f last ++ '\x7d' :: r)

theorem isMark_comma : IsMark ',' := by decide

theorem isMark_brace : IsMark '\x7d' := by decide

theorem reads_comma {p : Phrase} (hv : Blank v) (h : Reads k p r .nothing u) :
    Reads (max 4 (max k 1 + 1) + 1) (.seq [mark ",", p]) (v ++ ',' :: r) .nothing u :=
  (reads_mark rfl hv isMark_comma r).seq_nothing h.single

/-- No item follows at the closing brace. -/
theorem rounds_brace {p : Phrase} (hv : Blank v) (r : Text) :
    Rounds k (.seq [mark ",", p]) (v ++ '\x7d' :: r) (v ++ '\x7d' :: r) :=
  rounds_nil (refuses_seq_cons (refuses_mark hv isMark_brace (by decide) r))

/-- From a comma on, one item after another is read. What a last comma leads to is `hlast`. -/
theorem rounds_listed {p : Phrase} {C : Text → Prop} (hp : ReadsItems k f p)
    (hC : ∀ v, Blank v → C (v ++ '\x7d' :: r))
    (hlast : ∀ v v', Blank v → Blank v' → ∃ u, C u ∧
      Rounds (k + 10) (.seq [mark ",", p]) (v ++ ',' :: (v' ++ '\x7d' :: r)) u)
    (listed : List (α × Padding × Wide)) (last : Option (α × Wide)) (before : Padding)
    (after : Wide) :
    ∃ u, C u ∧ Rounds (k + 10) (.seq [mark ",", p])
      (before.text ++ ',' :: (after.text ++ restText f listed last r)) u := by
  have hround : ∀ (a : α) (before : Padding) (after : Wide) (t : Text), Follows t →
      Reads (k + 10) (.seq [mark ",", p]) (before.text ++ ',' :: (after.text ++ (f a ++ t)))
        .nothing t := fun a before after t ht =>
    (reads_comma before.isBlank (hp a _ t after.isBlank ht)).mono (by omega)
  induction listed generalizing before after with
  | nil =>
    cases last with
    | none => exact hlast _ _ before.isBlank after.isBlank
    | some b =>
      obtain ⟨b, wide⟩ := b
      refine ⟨_, hC _ wide.isBlank, ?_⟩
      have hr := hround b before after _ (follows_brace wide.isBlank r)
      refine Rounds.cons (u := wide.text ++ '\x7d' :: r) ?_ ?_ (rounds_brace wide.isBlank r)
      · simpa [restText, listedText, lastText] using hr
      · simp [restText, listedText, lastText]
        omega
  | cons e listed ih =>
    obtain ⟨b, g, wide⟩ := e
    obtain ⟨u, hu, hrounds⟩ := ih g wide
    refine ⟨u, hu, ?_⟩
    have hr :=
      hround b before after _ (follows_comma g.isBlank (wide.text ++ restText f listed last r))
    refine Rounds.cons ?_ ?_ hrounds
    · simpa [restText, listedText] using hr
    · simp [restText, listedText]
      omega

/-- A list is empty, or its first item is followed by the others. -/
theorem commaList_cases {p : Phrase} {C : Text → Prop} (hp : ReadsItems k f p)
    (hC : ∀ v, Blank v → C (v ++ '\x7d' :: r))
    (hlast : ∀ v v', Blank v → Blank v' → ∃ u, C u ∧
      Rounds (k + 10) (.seq [mark ",", p]) (v ++ ',' :: (v' ++ '\x7d' :: r)) u)
    (l : CommaList α) :
    l.text f = l.lead.text ∨ ∃ a t u, l.text f ++ '\x7d' :: r = l.lead.text ++ (f a ++ t) ∧
      Follows t ∧ C u ∧ Rounds (k + 10) (.seq [mark ",", p]) t u := by
  obtain ⟨lead, listed, last⟩ := l
  cases listed with
  | cons e listed =>
    obtain ⟨a, g, wide⟩ := e
    obtain ⟨u, hu, hrounds⟩ := rounds_listed hp hC hlast listed last g wide
    exact .inr ⟨a, _, u, by simp [CommaList.text, listedText, restText],
      follows_comma g.isBlank _, hu, hrounds⟩
  | nil =>
    cases last with
    | some e =>
      obtain ⟨a, wide⟩ := e
      exact .inr ⟨a, _, _, by simp [CommaList.text, listedText, lastText],
        follows_brace wide.isBlank r, hC _ wide.isBlank, rounds_brace wide.isBlank r⟩
    | none => exact .inl (by simp [CommaList.text, listedText, lastText])

/-- Without another item, a comma is not read as one before an item. -/
theorem refuses_comma {p : Phrase} (hv : Blank v) (h : Refuses .typeScript p r) :
    Refuses .typeScript (.seq [mark ",", p]) (v ++ ',' :: r) :=
  (settles_mark rfl hv isMark_comma r).refuses_seq (refuses_seq_cons h)

theorem reads_list {p : Phrase} (hp : ReadsItems k f p)
    (hend : ∀ v, Blank v → Refuses .typeScript p (v ++ '\x7d' :: r)) (l : CommaList α) :
    ∃ v, Blank v ∧
      Reads (k + 20) (list p) (l.text f ++ '\x7d' :: r) .nothing (v ++ '\x7d' :: r) := by
  let C : Text → Prop := fun u => ∃ v, Blank v ∧
    Reads 5 (optional (mark ",")) u .nothing (v ++ '\x7d' :: r)
  have hC : ∀ v, Blank v → C (v ++ '\x7d' :: r) := fun v hv =>
    ⟨v, hv, (reads_optional (refuses_mark hv isMark_brace (by decide) r)).mono (by omega)⟩
  have hlast : ∀ v v', Blank v → Blank v' → ∃ u, C u ∧
      Rounds (k + 10) (.seq [mark ",", p]) (v ++ ',' :: (v' ++ '\x7d' :: r)) u := fun v v' hv hv' =>
    ⟨_, ⟨v', hv', (reads_mark rfl hv isMark_comma _).optional⟩,
      rounds_nil (refuses_comma hv (hend v' hv'))⟩
  rcases commaList_cases hp hC hlast l with ht | ⟨a, t, u, ht, hfollows, ⟨v, hv, hcomma⟩, hrounds⟩
  · obtain ⟨v, hv, hcomma⟩ := hC _ l.lead.isBlank
    have hnone : Refuses .typeScript (separated p) (l.lead.text ++ '\x7d' :: r) :=
      refuses_seq_cons (hend _ l.lead.isBlank)
    rw [ht]
    exact ⟨v, hv, ((reads_optional hnone).seq_nothing hcomma.single).mono (by omega)⟩
  · have hseparated : Reads _ (separated p) _ .nothing u :=
      (hp a _ t l.lead.isBlank hfollows).seq_nothing hrounds.many.single
    rw [ht]
    exact ⟨v, hv, (hseparated.optional.seq_nothing hcomma.single).mono (by omega)⟩

theorem reads_elements {p : Phrase} (hp : ReadsItems k f p)
    (hend : ∀ v, Blank v → Refuses .typeScript p (v ++ '\x7d' :: r)) (l : CommaList α) :
    ∃ v, Blank v ∧
      Reads (k + 20) (elements p) (l.text f ++ '\x7d' :: r) .nothing (v ++ '\x7d' :: r) := by
  let C : Text → Prop := fun u => ∃ v, Blank v ∧ u = v ++ '\x7d' :: r
  have hC : ∀ v, Blank v → C (v ++ '\x7d' :: r) := fun v hv => ⟨v, hv, rfl⟩
  have hp' : ReadsItems (k + 1) f (optional p) := fun a w r hw hr => (hp a w r hw hr).optional
  have hlast : ∀ v v', Blank v → Blank v' → ∃ u, C u ∧
      Rounds (k + 1 + 10) (.seq [mark ",", optional p]) (v ++ ',' :: (v' ++ '\x7d' :: r)) u := by
    intro v v' hv hv'
    have hcomma := reads_comma hv (reads_optional (hend v' hv'))
    refine ⟨_, hC v' hv', Rounds.cons (hcomma.mono (by omega)) ?_ (rounds_brace hv' r)⟩
    simp only [List.length_append, List.length_cons]
    omega
  rcases commaList_cases hp' hC hlast l with ht | ⟨a, t, _, ht, hfollows, ⟨v, hv, rfl⟩, hrounds⟩
  · have hrounds : Rounds 0 (.seq [mark ",", optional p]) _ _ := rounds_brace l.lead.isBlank r
    rw [ht]
    exact ⟨_, l.lead.isBlank, ((reads_optional (hend _ l.lead.isBlank)).seq_nothing
      hrounds.many.single).mono (by omega)⟩
  · rw [ht]
    exact ⟨v, hv, ((hp' a _ t l.lead.isBlank hfollows).seq_nothing hrounds.many.single).mono
      (by omega)⟩

end Lists

/-! Members of named imports and re-exports -/

theorem isTypeMark_typeMark (typed : Option WideSpace) : IsTypeMark (typeMark typed) := by
  cases typed with
  | none => exact .inl rfl
  | some s => exact .inr ⟨s.text, s.isBlank, s.ne_nil, rfl⟩

theorem apart_asText (renamed : Option (WideSpace × WideSpace × Name)) (hr : Follows r) :
    Apart (asText renamed ++ r) := by
  cases renamed with
  | none => exact hr.apart
  | some e =>
    obtain ⟨before, after, n⟩ := e
    rw [asText, List.append_assoc]
    exact before.apart _

theorem clear_name (hw : Blank w) (n : Name) (hr : Apart r) {words : List String}
    (h : ∀ k ∈ words, k ∈ languageWords) {marks : List Char}
    (hm : marks.all (fun c => !isWordStart c) = true) : Clear words marks (w ++ (n.text ++ r)) :=
  clear_word hw n.isWord hr (n.not_mem h) hm

theorem refuses_string_name (hw : Blank w) (n : Name) (hr : Apart r) :
    Refuses .typeScript string (w ++ (n.text ++ r)) := by
  have hclear : Clear [] ['"', '\x27'] (w ++ (n.text ++ r)) :=
    clear_name hw n hr (by simp) (by decide)
  exact hclear.findsAt findsAt_string fun c hc => hc

theorem reads_exportName (hw : Blank w) (n : Name) (hr : Apart r) :
    Reads 5 exportName (w ++ (n.text ++ r)) .nothing r := (reads_name hw n hr).choice

theorem settles_exportName (hw : Blank w) (n : Name) (hr : Apart r) :
    Settles .typeScript exportName (w ++ (n.text ++ r)) (tokenTrees .identifier w n.text) r :=
  (settles_word hw n.isWord hr).choice
    ((refuses_choice_cons (refuses_string_name hw n hr) refuses_choice_nil).settles)

/-- `as` and the new name. -/
theorem reads_renamed {p : Phrase} (hw : Blank w) (after : WideSpace) (n : Name)
    (h : Reads k p (after.text ++ (n.text ++ r)) .nothing r) :
    Reads (max 4 (max k 1 + 1) + 1) (.seq [keyword "as", p])
      (w ++ ("as".toList ++ (after.text ++ (n.text ++ r)))) .nothing r :=
  (reads_keyword hw (by decide) (after.apart _)).seq_nothing h.single

theorem refuses_as (hr : Follows r) : Refuses .typeScript (keyword "as") r := by
  have hclear : Clear ["as"] [] r := hr.clear rfl
  exact hclear.keyword (by decide)

def importedName : Phrase :=
  .choice [.seq [exportName, keyword "as", name],
    lexeme .identifier (Scan.wordExcept ["default"])]

theorem reads_importedName (hw : Blank w) (n : Name)
    (renamed : Option (WideSpace × WideSpace × Name)) (hr : Follows r) :
    Reads 10 importedName (w ++ (n.text ++ (asText renamed ++ r))) .nothing r := by
  cases renamed with
  | none =>
    have hskip : Refuses .typeScript (.seq [exportName, keyword "as", name]) (w ++ (n.text ++ r)) :=
      (settles_exportName hw n hr.apart).refuses_seq
        (refuses_seq_cons (refuses_as hr))
    have hname : Reads 4 (lexeme .identifier (Scan.wordExcept ["default"])) (w ++ (n.text ++ r))
        .nothing r :=
      reads_token (by decide) hw n.isWord.starts
        (wordExcept_append n.isWord (n.not_mem (by decide)) hr.apart)
    exact (hname.choice.skip hskip).mono (by omega)
  | some e =>
    obtain ⟨before, after, m⟩ := e
    have has := reads_renamed before.isBlank after m (reads_name after.isBlank m hr.apart)
    have hseq := (reads_exportName hw n (before.apart _)).seq_nothing has
    simpa [asText, importedName] using hseq.choice.mono (by omega)

theorem readsItems_importSpecifier : ReadsItems 30 Member.text (importSpecifier .typeScript) := by
  intro m w r hw hr
  have hmarked : Reads 20 (typeMarked .typeScript importedName)
      (w ++ (typeMark m.typed ++ (m.name.text ++ (asText m.renamed ++ r)))) .nothing r :=
    reads_typeMarked (f := .nothing) (isTypeMark_typeMark m.typed) hw
      (clear_name hw m.name (apart_asText m.renamed hr) (by decide) rfl)
      fun w hw => reads_importedName hw m.name m.renamed hr
  have hnamed := hmarked.single.named (s := "import specifier") (by simp)
  simpa [Member.text, importSpecifier, importedName] using hnamed.mono (by omega)

theorem refuses_exportName_brace (hv : Blank v) (r : Text) :
    Refuses .typeScript exportName (v ++ '\x7d' :: r) := by
  have hclear : Clear [] ['"', '\x27'] (v ++ '\x7d' :: r) :=
    clear_mark hv isMark_brace (by decide) r
  exact refuses_choice_cons (refuses_word hclear.bare (nextWord_mark hv isMark_brace r))
    (refuses_choice_cons (hclear.findsAt findsAt_string fun c hc => hc) refuses_choice_nil)

theorem refuses_typeMarked {p : Phrase} (hclear : Clear ["type", "typeof"] [] t)
    (h : Refuses .typeScript p t) : Refuses .typeScript (typeMarked .typeScript p) t :=
  refuses_choice_cons (refuses_seq_cons (hclear.keywords fun _ hk => hk))
    (refuses_choice_cons h refuses_choice_nil)

theorem refuses_importSpecifier (hv : Blank v) (r : Text) :
    Refuses .typeScript (importSpecifier .typeScript) (v ++ '\x7d' :: r) := by
  have hclear : Clear ["type", "typeof"] [] (v ++ '\x7d' :: r) :=
    clear_mark hv isMark_brace (by simp) r
  have hname : Refuses .typeScript importedName (v ++ '\x7d' :: r) :=
    refuses_choice_cons (refuses_seq_cons (refuses_exportName_brace hv r))
      (refuses_choice_cons
        (refuses_wordExcept hclear.bare (nextWord_mark hv isMark_brace r) _) refuses_choice_nil)
  exact refuses_node (refuses_seq_cons (refuses_typeMarked hclear hname))

def exportedName : Phrase := .seq [exportName, optional (.seq [keyword "as", exportName])]

def exportSpecifier : Phrase := named "export specifier" [typeMarked .typeScript exportedName]

theorem reads_exportedName (hw : Blank w) (n : Name)
    (renamed : Option (WideSpace × WideSpace × Name)) (hr : Follows r) :
    Reads 20 exportedName (w ++ (n.text ++ (asText renamed ++ r))) .nothing r := by
  cases renamed with
  | none =>
    have hnone : Refuses .typeScript (.seq [keyword "as", exportName]) r :=
      refuses_seq_cons (refuses_as hr)
    exact ((reads_exportName hw n hr.apart).seq_nothing (reads_optional hnone).single).mono
      (by omega)
  | some e =>
    obtain ⟨before, after, m⟩ := e
    have has := reads_renamed before.isBlank after m (reads_exportName after.isBlank m hr.apart)
    have hseq := (reads_exportName hw n (before.apart _)).seq_nothing has.optional.single
    simpa [asText, exportedName] using hseq.mono (by omega)

theorem readsItems_exportSpecifier : ReadsItems 40 Member.text exportSpecifier := by
  intro m w r hw hr
  have hmarked : Reads 30 (typeMarked .typeScript exportedName)
      (w ++ (typeMark m.typed ++ (m.name.text ++ (asText m.renamed ++ r)))) .nothing r :=
    reads_typeMarked (f := .nothing) (isTypeMark_typeMark m.typed) hw
      (clear_name hw m.name (apart_asText m.renamed hr) (by decide) rfl)
      fun w hw => reads_exportedName hw m.name m.renamed hr
  have hnamed := hmarked.single.named (s := "export specifier") (by simp)
  simpa [Member.text, exportSpecifier] using hnamed.mono (by omega)

theorem refuses_exportSpecifier (hv : Blank v) (r : Text) :
    Refuses .typeScript exportSpecifier (v ++ '\x7d' :: r) := by
  have hclear : Clear ["type", "typeof"] [] (v ++ '\x7d' :: r) :=
    clear_mark hv isMark_brace (by simp) r
  exact refuses_node (refuses_seq_cons
    (refuses_typeMarked hclear (refuses_seq_cons (refuses_exportName_brace hv r))))

/-! Names of a pattern -/

def patternItem : Phrase :=
  .choice [restPattern, named "pair" [propertyName, mark ":", patternElement],
    .seq [lexeme (.other "property name") Scan.word, optional initializer]]

theorem settles_propertyName (hw : Blank w) (n : Name) (hr : Apart r) :
    Settles .typeScript propertyName (w ++ (n.text ++ r))
      (tokenTrees (.other "property name") w n.text) r := by
  have hclear : ∀ marks : List Char, marks.all (fun c => !isWordStart c) = true →
      Clear [] marks (w ++ (n.text ++ r)) := fun marks hm => clear_name hw n hr (by simp) hm
  have hothers : Refuses .typeScript (.choice [privateName, string, number,
      named "computed name" [mark "[", .rule (.expression true), mark "]"]]) (w ++ (n.text ++ r)) :=
    refuses_choice_cons (refuses_privateName (hclear _ rfl))
      (refuses_choice_cons (refuses_string_name hw n hr)
        (refuses_choice_cons ((hclear _ (by decide)).findsAt findsAt_number fun c hc => hc)
          (refuses_choice_cons
            (refuses_node (refuses_seq_cons ((hclear ['['] rfl).literal (by decide))))
            refuses_choice_nil)))
  exact (settles_word hw n.isWord hr).choice hothers.settles

theorem readsItems_patternItem : ReadsItems 20 (fun n : Name => n.text) patternItem := by
  intro n w r hw hr
  have hdots : Clear [] ['.'] (w ++ (n.text ++ r)) := clear_name hw n hr.apart (by simp) rfl
  have hrest : Refuses .typeScript restPattern (w ++ (n.text ++ r)) :=
    refuses_node (refuses_seq_cons (hdots.literal (by decide)))
  have hcolon : Clear [] [':'] r := hr.clear rfl
  have hpair : Refuses .typeScript (named "pair" [propertyName, mark ":", patternElement])
      (w ++ (n.text ++ r)) :=
    refuses_node ((settles_propertyName hw n hr.apart).refuses_seq
      (refuses_seq_cons (hcolon.literal (by decide))))
  have hsign : Clear [] ['='] r := hr.clear rfl
  have hvalue : Refuses .typeScript initializer r := refuses_seq_cons (hsign.sign (by decide))
  have hname : Reads 4 (lexeme (.other "property name") Scan.word) (w ++ (n.text ++ r))
      .nothing r :=
    reads_token (by decide) hw n.isWord.starts (word_append n.isWord hr.apart)
  have hseq := hname.seq_nothing (reads_optional hvalue).single
  exact ((hseq.choice.skip hpair).skip hrest).mono (by omega)

theorem refuses_patternItem (hv : Blank v) (r : Text) :
    Refuses .typeScript patternItem (v ++ '\x7d' :: r) := by
  have hclear : ∀ marks : List Char, '\x7d' ∉ marks → Clear [] marks (v ++ '\x7d' :: r) :=
    fun marks hm => clear_mark hv isMark_brace hm r
  have hword : ∀ kind, Refuses .typeScript (lexeme kind Scan.word) (v ++ '\x7d' :: r) := fun kind =>
    refuses_word (hclear [] (by simp)).bare (nextWord_mark hv isMark_brace r)
  have hproperty : Refuses .typeScript propertyName (v ++ '\x7d' :: r) :=
    refuses_choice_cons (hword _)
      (refuses_choice_cons (refuses_privateName (hclear _ (by decide)))
        (refuses_choice_cons ((hclear _ (by decide)).findsAt findsAt_string fun c hc => hc)
          (refuses_choice_cons ((hclear _ (by decide)).findsAt findsAt_number fun c hc => hc)
            (refuses_choice_cons
              (refuses_node (refuses_seq_cons ((hclear ['['] (by decide)).literal (by decide))))
              refuses_choice_nil))))
  exact refuses_choice_cons
    (refuses_node (refuses_seq_cons ((hclear ['.'] (by decide)).literal (by decide))))
    (refuses_choice_cons (refuses_node (refuses_seq_cons hproperty))
      (refuses_choice_cons (refuses_seq_cons (hword _)) refuses_choice_nil))

/-! Lists in braces -/

theorem reads_braces {p : Phrase} {x : Text} (s : String) (hw : Blank w)
    (h : ∃ v, Blank v ∧ Reads k p (x ++ '\x7d' :: r) .nothing (v ++ '\x7d' :: r)) :
    Reads (k + 20) (named s [mark "\x7b", p, mark "\x7d"]) (w ++ '\x7b' :: (x ++ '\x7d' :: r))
      .nothing r := by
  obtain ⟨v, hv, hp⟩ := h
  have hclose : Reads 4 (mark "\x7d") (v ++ '\x7d' :: r) .nothing r :=
    reads_mark rfl hv isMark_brace r
  have hopen : Reads 4 (mark "\x7b") (w ++ '\x7b' :: (x ++ '\x7d' :: r)) .nothing _ :=
    reads_mark rfl hw (by decide) _
  exact ((hopen.seq_nothing (hp.seq_nothing hclose.single)).named (by simp)).mono (by omega)

theorem reads_namedImports (hw : Blank w) (members : CommaList Member) (r : Text) :
    Reads 70 (named "named imports" [mark "\x7b", list (importSpecifier .typeScript), mark "\x7d"])
      (w ++ braced members r) .nothing r :=
  reads_braces _ hw (reads_list readsItems_importSpecifier
    (fun _ hv => refuses_importSpecifier hv r) members)

theorem reads_exportClause (hw : Blank w) (members : CommaList Member) (r : Text) :
    Reads 80 (exportClause .typeScript) (w ++ braced members r) .nothing r :=
  reads_braces _ hw (reads_list readsItems_exportSpecifier
    (fun _ hv => refuses_exportSpecifier hv r) members)

theorem reads_objectPattern (hw : Blank w) (names : CommaList Name) (r : Text) :
    Reads 60 objectPattern (w ++ '\x7b' :: (names.text (fun n => n.text) ++ '\x7d' :: r))
      .nothing r :=
  reads_braces _ hw (reads_elements readsItems_patternItem
    (fun _ hv => refuses_patternItem hv r) names)

end ImportAlias.Grammar
