import ImportAlias.Proofs.Grammar.Reading

/-! What scanners find at the start of a text: words, marks and strings where they stand, and
nothing where the next word or the next character is another. -/
namespace ImportAlias.Grammar

open Phrase

/-- A text of white space, over any number of lines. -/
def Blank (w : Text) : Prop := ∀ c ∈ w, isSpace c = true

/-- A text that no word goes on into. -/
def Apart (t : Text) : Prop := ∀ c, t.head? = some c → isWordPart c = false ∧ c ≠ '\\'

/-- A word without escapes. -/
def IsWord : Text → Prop
  | [] => False
  | c :: t => isWordStart c = true ∧ t.all isWordPart = true

instance : DecidablePred IsWord
  | [] => isFalse id
  | _ :: _ => inferInstanceAs (Decidable (_ ∧ _))

/-- A text that starts with a token: neither with white space nor with a comment. -/
def Starts (s : Text) : Prop := ∃ c t, s = c :: t ∧ isSpace c = false ∧ c ≠ '/'

variable {d : Dialect} {w s t r n : Text} {c : Char} {kind : Kind}

/-! Classes of characters -/

theorem isSpace_of_isWordPart (h : isWordPart c = true) : isSpace c = false := by
  simp only [isWordPart, Bool.and_eq_true, Bool.not_eq_true'] at h
  exact h.1.2

theorem ne_of_isWordPart {e : Char} (h : isWordPart c = true) (he : e ∈ punctuation) : c ≠ e := by
  rintro rfl
  have hc : punctuation.contains c = false := by
    simp only [isWordPart, Bool.and_eq_true, Bool.not_eq_true'] at h
    exact h.2
  simp [he] at hc

theorem isWordPart_of_isWordStart (h : isWordStart c = true) : isWordPart c = true := by
  simp only [isWordStart, Bool.and_eq_true] at h
  exact h.1

theorem isWordPart_of_isSpace (h : isSpace c = true) : isWordPart c = false := by
  cases hp : isWordPart c with
  | false => rfl
  | true => exact absurd (isSpace_of_isWordPart hp) (by simp [h])

theorem isWordPart_of_punctuation (h : c ∈ punctuation) : isWordPart c = false := by
  cases hp : isWordPart c with
  | false => rfl
  | true => exact absurd rfl (ne_of_isWordPart hp h)

theorem ne_backslash_of_isSpace (h : isSpace c = true) : c ≠ '\\' := by
  rintro rfl
  exact absurd h (by decide)

/-! White space -/

theorem blank_nil : Blank [] := by simp [Blank]

theorem Blank.append {v : Text} (hw : Blank w) (hv : Blank v) : Blank (w ++ v) := by
  intro c hc
  rcases List.mem_append.mp hc with hc | hc
  · exact hw c hc
  · exact hv c hc

theorem code_append (hw : Blank w) (t : Text) : code (w ++ t) = code t :=
  List.dropWhile_append_of_pos hw

theorem code_of_blank (hw : Blank w) : code w = [] := by
  simpa [code] using code_append hw []

theorem code_of_starts (hs : Starts s) (r : Text) : code (s ++ r) = s ++ r := by
  obtain ⟨c, t, rfl, hc, -⟩ := hs
  simp [code, hc]

theorem takeWhile_isSpace (hw : Blank w) (hs : Starts s) (r : Text) :
    (w ++ (s ++ r)).takeWhile isSpace = w := by
  obtain ⟨c, t, rfl, hc, -⟩ := hs
  simp [List.takeWhile_append_of_pos hw, hc]

theorem comment_of_starts (hs : Starts s) (r : Text) : Scan.comment (s ++ r) = none := by
  obtain ⟨c, t, rfl, -, hc⟩ := hs
  unfold Scan.comment
  split <;> simp_all

theorem bare_of_starts (hw : Blank w) (hs : Starts s) (r : Text) : Bare (w ++ (s ++ r)) := by
  unfold Bare
  rw [code_append hw, code_of_starts hs, comment_of_starts hs]

theorem apart_cons (h : isWordPart c = false) (hc : c ≠ '\\') : Apart (c :: t) := by
  intro e he
  obtain rfl : c = e := by simpa using he
  exact ⟨h, hc⟩

theorem Apart.blank (ht : Apart t) (hw : Blank w) : Apart (w ++ t) := by
  cases w with
  | nil => exact ht
  | cons c w =>
    have hc := hw c List.mem_cons_self
    exact apart_cons (isWordPart_of_isSpace hc) (ne_backslash_of_isSpace hc)

theorem apart_of_blank (hw : Blank w) (hne : w ≠ []) (t : Text) : Apart (w ++ t) := by
  obtain ⟨c, v, rfl⟩ := List.exists_cons_of_ne_nil hne
  have hc := hw c List.mem_cons_self
  exact apart_cons (isWordPart_of_isSpace hc) (ne_backslash_of_isSpace hc)

/-! Words -/

theorem IsWord.starts (hn : IsWord n) : Starts n := by
  cases n with
  | nil => exact hn.elim
  | cons c t =>
    have hc := isWordPart_of_isWordStart hn.1
    exact ⟨c, t, rfl, isSpace_of_isWordPart hc, ne_of_isWordPart hc (by decide)⟩

theorem codeEscape_eq_none (hc : c ≠ '\\') : Scan.codeEscape (c :: t) = none := by
  unfold Scan.codeEscape
  split <;> simp_all

theorem wordRest_append (hn : ∀ e ∈ n, isWordPart e = true) (hr : Apart r) :
    Scan.wordRest 0 (n ++ r) = n.length := by
  induction n with
  | nil =>
    cases r with
    | nil => rfl
    | cons c r =>
      obtain ⟨hc, hne⟩ := hr c rfl
      simp [Scan.wordRest, hc, codeEscape_eq_none hne]
  | cons c n ih =>
    have hc : isWordPart c = true := hn c List.mem_cons_self
    have hrest := ih fun e he => hn e (List.mem_cons_of_mem _ he)
    simp only [List.cons_append, Scan.wordRest, hc, if_true, hrest, List.length_cons]
    omega

theorem word_append (hn : IsWord n) (hr : Apart r) : Scan.word (n ++ r) = some n.length := by
  cases n with
  | nil => exact hn.elim
  | cons c t =>
    simp only [List.cons_append, Scan.word, hn.1, if_true,
      wordRest_append (List.all_eq_true.mp hn.2) hr, List.length_cons, Option.some.injEq]
    omega

theorem word_eq_none (h : isWordStart c = false) (hc : c ≠ '\\') : Scan.word (c :: t) = none := by
  simp [Scan.word, h, codeEscape_eq_none hc]

theorem keyword_append {k : String} (hk : IsWord k.toList) (hr : Apart r) :
    Scan.keyword k (k.toList ++ r) = some k.toList.length := by
  simp [Scan.keyword, word_append hk hr]

theorem keywords_append {words : List String} {k : String} (hk : IsWord k.toList)
    (h : k ∈ words) (hr : Apart r) :
    Scan.keywords words (k.toList ++ r) = some k.toList.length := by
  simp [Scan.keywords, word_append hk hr, h]

theorem wordExcept_append {reserved : List String} (hn : IsWord n)
    (h : String.ofList n ∉ reserved) (hr : Apart r) :
    Scan.wordExcept reserved (n ++ r) = some n.length := by
  simp [Scan.wordExcept, word_append hn hr, h]

/-! Marks and strings -/

theorem literal_append (k : String) (r : Text) :
    Scan.literal k (k.toList ++ r) = some k.toList.length := by
  have h : Text.after? k.toList (k.toList ++ r) = some r := Text.after?_eq_some.mpr rfl
  simp [Scan.literal, h, String.length_toList]

theorem sign_append {k next : String} (h : ∀ c, r.head? = some c → c ∉ next.toList) :
    Scan.sign k next (k.toList ++ r) = some k.toList.length := by
  have ha : Text.after? k.toList (k.toList ++ r) = some r := Text.after?_eq_some.mpr rfl
  unfold Scan.sign
  rw [ha]
  cases r with
  | nil => simp [String.length_toList]
  | cons c r => simp [h c rfl, String.length_toList]

/-- A text that a string can hold as it is. -/
def Literally (q : Char) (s : Text) : Prop := q ∉ s ∧ '\\' ∉ s ∧ '\n' ∉ s ∧ '\r' ∉ s

theorem stringRest_append {q : Char} (h : Literally q s) (r : Text) :
    Scan.stringRest q 0 (s ++ q :: r) = some (s.length + 1) := by
  induction s with
  | nil => simp [Scan.stringRest]
  | cons c s ih =>
    simp only [Literally, List.mem_cons, not_or] at h
    obtain ⟨⟨hq, hqs⟩, ⟨hb, hbs⟩, ⟨hn, hns⟩, hr, hrs⟩ := h
    have hrest := ih ⟨hqs, hbs, hns, hrs⟩
    simp [Scan.stringRest, Ne.symm hq, Ne.symm hb, Ne.symm hn, Ne.symm hr, hrest]

theorem string_append {q : Char} (hq : q = '"' ∨ q = '\x27') (h : Literally q s) (r : Text) :
    Scan.string (q :: (s ++ q :: r)) = some (s.length + 2) := by
  simp [Scan.string, hq, stringRest_append h]

/-! Tokens -/

theorem gives_token {scan : Scanner} (hw : Blank w) (hs : Starts s)
    (h : scan (s ++ r) = some s.length) :
    Gives d 4 (lexeme kind scan) (w ++ (s ++ r)) (tokenTrees kind w s) r := by
  have hcode : code (w ++ (s ++ r)) = s ++ r := by rw [code_append hw, code_of_starts hs]
  have hscan : scan (code (w ++ (s ++ r))) = some s.length := by rw [hcode, h]
  have hg : Gives d 4 (lexeme kind scan) _ _ _ := gives_lexeme (bare_of_starts hw hs r) hscan
  simpa [hcode, takeWhile_isSpace hw hs] using hg

theorem settles_token {scan : Scanner} (hsolid : Solid scan) (hw : Blank w) (hs : Starts s)
    (h : scan (s ++ r) = some s.length) :
    Settles d (lexeme kind scan) (w ++ (s ++ r)) (tokenTrees kind w s) r := by
  have hcode : code (w ++ (s ++ r)) = s ++ r := by rw [code_append hw, code_of_starts hs]
  have hscan : scan (code (w ++ (s ++ r))) = some s.length := by rw [hcode, h]
  have hg : Settles d (lexeme kind scan) _ _ _ :=
    settles_lexeme (bare_of_starts hw hs r) hsolid hscan
  simpa [hcode, takeWhile_isSpace hw hs] using hg

/-! Where scanners find nothing -/

theorem solid_word : Solid Scan.word := by
  intro c t hc
  have hs : isWordStart c = false := by simp [isWordStart, isWordPart_of_isSpace hc]
  exact word_eq_none hs (ne_backslash_of_isSpace hc)

theorem solid_keyword (k : String) : Solid (Scan.keyword k) := by
  intro c t hc
  simp [Scan.keyword, solid_word c t hc]

theorem solid_keywords (words : List String) : Solid (Scan.keywords words) := by
  intro c t hc
  simp [Scan.keywords, solid_word c t hc]

theorem solid_wordExcept (reserved : List String) : Solid (Scan.wordExcept reserved) := by
  intro c t hc
  simp [Scan.wordExcept, solid_word c t hc]

/-- A scanner that finds something at some characters only, none of which is white space. -/
structure FindsAt (cs : List Char) (scan : Scanner) : Prop where
  solid : cs.all (fun c => !isSpace c) = true
  eq_none : ∀ t : Text, (∀ c, t.head? = some c → c ∉ cs) → scan t = none

theorem FindsAt.toSolid {cs : List Char} {scan : Scanner} (h : FindsAt cs scan) : Solid scan := by
  intro c t hc
  refine h.eq_none _ fun e he hmem => ?_
  obtain rfl : c = e := by simpa using he
  have hs := List.all_eq_true.mp h.solid c hmem
  simp [hc] at hs

theorem after?_eq_none (h : ∀ e, t.head? = some e → e ≠ c) : Text.after? (c :: s) t = none := by
  cases t with
  | nil => rfl
  | cons e t => simp [Text.after?, Ne.symm (h e rfl)]

theorem findsAt_literal {k : String} (hk : k.toList.head? = some c) (hc : isSpace c = false) :
    FindsAt [c] (Scan.literal k) := by
  obtain ⟨s, hs⟩ : ∃ s, k.toList = c :: s := List.head?_eq_some_iff.mp hk
  refine ⟨by simpa using hc, fun t ht => ?_⟩
  simp [Scan.literal, hs, after?_eq_none fun e he => by simpa using ht e he]

theorem findsAt_sign {k next : String} (hk : k.toList.head? = some c) (hc : isSpace c = false) :
    FindsAt [c] (Scan.sign k next) := by
  obtain ⟨s, hs⟩ : ∃ s, k.toList = c :: s := List.head?_eq_some_iff.mp hk
  refine ⟨by simpa using hc, fun t ht => ?_⟩
  simp [Scan.sign, hs, after?_eq_none fun e he => by simpa using ht e he]

theorem findsAt_string : FindsAt ['"', '\x27'] Scan.string := by
  refine ⟨by decide, fun t ht => ?_⟩
  cases t with
  | nil => rfl
  | cons c t =>
    have hc : ¬ (c = '"' ∨ c = '\x27') := by simpa using ht c rfl
    simp [Scan.string, hc]

theorem findsAt_regex : FindsAt ['/'] Scan.regex := by
  refine ⟨by decide, fun t ht => ?_⟩
  unfold Scan.regex
  split
  · simp at ht
  · rfl

theorem mem_of_isDigit (h : c.isDigit = true) : c ∈ "0123456789".toList := by
  have hn : c.toNat ∈ List.range' 48 10 := by
    simp only [Char.isDigit, Bool.and_eq_true, decide_eq_true_eq, ge_iff_le,
      UInt32.le_iff_toNat_le] at h
    have hlo : 48 ≤ c.toNat := h.1
    have hhi : c.toNat ≤ 57 := h.2
    rw [List.mem_range'_1]
    omega
  have hall : ∀ n ∈ List.range' 48 10, Char.ofNat n ∈ "0123456789".toList := by decide
  simpa using hall c.toNat hn

theorem findsAt_number : FindsAt ('.' :: "0123456789".toList) Scan.number := by
  refine ⟨by decide, fun t ht => ?_⟩
  cases t with
  | nil => rfl
  | cons c t =>
    have hc : c ∉ ('.' :: "0123456789".toList) := ht c rfl
    have hdigit : c.isDigit = false := by
      cases h : c.isDigit with
      | false => rfl
      | true => exact absurd (List.mem_cons_of_mem _ (mem_of_isDigit h)) hc
    have hzero : c ≠ '0' := by
      rintro rfl
      exact hc (by decide)
    have hdot : c ≠ '.' := by
      rintro rfl
      exact hc (by decide)
    unfold Scan.number
    split <;> simp_all

/-- The next word is none of some words, and the next character none of some marks. -/
structure Clear (words : List String) (marks : List Char) (t : Text) : Prop where
  bare : Bare t
  word : ∀ n, nextWord t = some n → String.ofList n ∉ words
  mark : ∀ c, (code t).head? = some c → c ∉ marks

section Clear

variable {words : List String} {marks : List Char}

theorem word_code : Scan.word (code t) = none ↔ nextWord t = none := by
  simp [nextWord]

theorem refuses_word (hb : Bare t) (hw : nextWord t = none) : Refuses d (lexeme kind Scan.word) t :=
  refuses_lexeme hb solid_word (word_code.mpr hw)

theorem refuses_wordExcept (hb : Bare t) (hw : nextWord t = none) (reserved : List String) :
    Refuses d (lexeme kind (Scan.wordExcept reserved)) t := by
  have hn : Scan.word (code t) = none := word_code.mpr hw
  exact refuses_lexeme hb (solid_wordExcept _) (by simp [Scan.wordExcept, hn])

theorem Clear.keywords (h : Clear words marks t) {ks : List String} (hk : ∀ k ∈ ks, k ∈ words) :
    Refuses d (lexeme kind (Scan.keywords ks)) t := by
  refine refuses_lexeme h.bare (solid_keywords ks) ?_
  unfold Scan.keywords
  cases hn : Scan.word (code t) with
  | none => rfl
  | some n =>
    have hw : nextWord t = some ((code t).take n) := by simp [nextWord, hn]
    have hmem : String.ofList ((code t).take n) ∉ ks := fun hmem => h.word _ hw (hk _ hmem)
    simp [hmem]

theorem Clear.keyword (h : Clear words marks t) {k : String} (hk : k ∈ words) :
    Refuses d (lexeme kind (Scan.keyword k)) t := by
  refine refuses_lexeme h.bare (solid_keyword k) ?_
  unfold Scan.keyword
  cases hn : Scan.word (code t) with
  | none => rfl
  | some n =>
    have hw : nextWord t = some ((code t).take n) := by simp [nextWord, hn]
    have hne : (code t).take n ≠ k.toList := by
      intro he
      exact h.word _ hw (by simpa [he] using hk)
    simp [hne]

theorem Clear.findsAt (h : Clear words marks t) {cs : List Char} {scan : Scanner}
    (hs : FindsAt cs scan) (hc : ∀ c ∈ cs, c ∈ marks) : Refuses d (lexeme kind scan) t :=
  refuses_lexeme h.bare hs.toSolid
    (hs.eq_none _ fun c he hmem => h.mark c he (hc c hmem))

theorem Clear.literal (h : Clear words marks t) {k : String}
    (hk : (k.toList.head?.any fun c => !isSpace c && marks.contains c) = true) :
    Refuses d (lexeme kind (Scan.literal k)) t := by
  cases hc : k.toList.head? with
  | none => simp [hc] at hk
  | some c =>
    rw [hc] at hk
    simp only [Option.any_some, Bool.and_eq_true, Bool.not_eq_true', List.contains_iff_mem] at hk
    exact h.findsAt (findsAt_literal hc hk.1) (by simpa using hk.2)

theorem Clear.sign (h : Clear words marks t) {k next : String}
    (hk : (k.toList.head?.any fun c => !isSpace c && marks.contains c) = true) :
    Refuses d (lexeme kind (Scan.sign k next)) t := by
  cases hc : k.toList.head? with
  | none => simp [hc] at hk
  | some c =>
    rw [hc] at hk
    simp only [Option.any_some, Bool.and_eq_true, Bool.not_eq_true', List.contains_iff_mem] at hk
    exact h.findsAt (findsAt_sign hc hk.1) (by simpa using hk.2)

theorem Clear.mono {words' : List String} {marks' : List Char} (h : Clear words marks t)
    (hw : ∀ k ∈ words', k ∈ words) (hm : ∀ c ∈ marks', c ∈ marks) : Clear words' marks' t :=
  ⟨h.bare, fun n hn hmem => h.word n hn (hw _ hmem), fun c hc hmem => h.mark c hc (hm c hmem)⟩

/-- Marks that stand for themselves and start no comment. -/
def IsMark (c : Char) : Prop := c ∈ punctuation ∧ c ≠ '/' ∧ c ≠ '\\'

instance : DecidablePred IsMark := fun _ => inferInstanceAs (Decidable (_ ∧ _ ∧ _))

theorem IsMark.starts (h : IsMark c) (s : Text) : Starts (c :: s) := by
  have hall : punctuation.all (fun c => !isSpace c) = true := by decide
  have hs : isSpace c = false := by simpa using List.all_eq_true.mp hall c h.1
  exact ⟨c, s, rfl, hs, h.2.1⟩

theorem IsMark.apart (h : IsMark c) (s : Text) : Apart (c :: s) :=
  apart_cons (isWordPart_of_punctuation h.1) h.2.2

theorem nextWord_mark (hw : Blank w) (hc : IsMark c) (r : Text) :
    nextWord (w ++ c :: r) = none := by
  have hcode : code (w ++ c :: r) = c :: r := by
    rw [code_append hw]
    simpa using code_of_starts (hc.starts []) r
  have hs : isWordStart c = false := by simp [isWordStart, isWordPart_of_punctuation hc.1]
  rw [← word_code, hcode, word_eq_none hs hc.2.2]

theorem clear_mark (hw : Blank w) (hc : IsMark c) (hm : c ∉ marks) (r : Text) :
    Clear words marks (w ++ c :: r) := by
  have hs := hc.starts []
  refine ⟨bare_of_starts hw hs r, ?_, ?_⟩
  · intro n hn
    simp [nextWord_mark hw hc] at hn
  · intro e he
    rw [code_append hw] at he
    have hcode : code (c :: r) = c :: r := code_of_starts hs r
    obtain rfl : c = e := by simpa [hcode] using he
    exact hm

theorem nextWord_word (hw : Blank w) (hn : IsWord n) (hr : Apart r) :
    nextWord (w ++ (n ++ r)) = some n := by
  have hcode : code (w ++ (n ++ r)) = n ++ r := by rw [code_append hw, code_of_starts hn.starts]
  simp [nextWord, hcode, word_append hn hr]

theorem clear_word (hw : Blank w) (hn : IsWord n) (hr : Apart r) (hk : String.ofList n ∉ words)
    (hm : marks.all (fun c => !isWordStart c) = true) : Clear words marks (w ++ (n ++ r)) := by
  refine ⟨bare_of_starts hw hn.starts r, ?_, ?_⟩
  · intro k hk'
    rw [nextWord_word hw hn hr] at hk'
    obtain rfl : n = k := by simpa using hk'
    exact hk
  · intro c hc hmem
    rw [code_append hw, code_of_starts hn.starts] at hc
    cases n with
    | nil => exact hn
    | cons e n =>
      obtain rfl : e = c := by simpa using hc
      have hs := List.all_eq_true.mp hm e hmem
      simp [hn.1] at hs

theorem nextWord_blank (hw : Blank w) : nextWord w = none := by
  simp [nextWord, code_of_blank hw, Scan.word]

theorem clear_blank (hw : Blank w) : Clear words marks w := by
  refine ⟨?_, ?_, ?_⟩
  · simp [Bare, code_of_blank hw, Scan.comment]
  · simp [nextWord_blank hw]
  · simp [code_of_blank hw]

theorem refuses_mark {k : String} (hw : Blank w) (hc : IsMark c)
    (hk : (k.toList.head?.any fun e => !isSpace e && e != c) = true) (r : Text) :
    Refuses d (lexeme kind (Scan.literal k)) (w ++ c :: r) := by
  cases he : k.toList.head? with
  | none => simp [he] at hk
  | some e =>
    simp only [he, Option.any_some, Bool.and_eq_true, Bool.not_eq_true', bne_iff_ne] at hk
    have hclear : Clear [] [e] (w ++ c :: r) := clear_mark hw hc (by simpa using Ne.symm hk.2) r
    exact hclear.literal (by simp [he, hk.1])

theorem refuses_keyword {k : String} (hw : Blank w) (hc : IsMark c) (r : Text) :
    Refuses d (lexeme kind (Scan.keyword k)) (w ++ c :: r) := by
  have hclear : Clear [k] [] (w ++ c :: r) := clear_mark hw hc (by simp) r
  exact hclear.keyword (by simp)

theorem settles_mark {k : String} (hk : k.toList = [c]) (hw : Blank w) (hc : IsMark c) (r : Text) :
    Settles d (lexeme kind (Scan.literal k)) (w ++ c :: r) (tokenTrees kind w [c]) r := by
  have hs := hc.starts []
  obtain ⟨e, t, he, hspace, -⟩ := hs
  obtain rfl : c = e := by simpa using congrArg List.head? he
  have hscan := literal_append k r
  rw [hk] at hscan
  exact settles_token (findsAt_literal (by simp [hk]) hspace).toSolid hw (hc.starts []) hscan

theorem settles_word (hw : Blank w) (hn : IsWord n) (hr : Apart r) :
    Settles d (lexeme kind Scan.word) (w ++ (n ++ r)) (tokenTrees kind w n) r :=
  settles_token solid_word hw hn.starts (word_append hn hr)

theorem settles_keyword {k : String} (hw : Blank w) (hk : IsWord k.toList) (hr : Apart r) :
    Settles d (lexeme kind (Scan.keyword k)) (w ++ (k.toList ++ r))
      (tokenTrees kind w k.toList) r :=
  settles_token (solid_keyword k) hw hk.starts (keyword_append hk hr)

end Clear

end ImportAlias.Grammar
