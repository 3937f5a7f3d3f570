import ImportAlias.Manifest.Basic
import ImportAlias.Proofs.Json.Spacing
import ImportAlias.Proofs.Manifest.Cleaning

/-! Comments and trailing commas do not change what a manifest says. -/
namespace ImportAlias.Manifest

open Json (isSpace isMark isScalarChar Closes Shape Reads Adjacent Lexeme Spacing Laid IsSpaces
  strict Document words)

/-- What may stand between the tokens of a manifest: whitespace, block comments and line
comments. -/
inductive Filler : Text → Prop where
  | nil : Filler []
  | space {c : Char} {t : Text} (hc : isSpace c = true) (h : Filler t) : Filler (c :: t)
  | block {body t : Text} (hb : ¬ ['*', '/'] <:+: body) (h : Filler t) :
      Filler ('/' :: '*' :: (body ++ '*' :: '/' :: t))
  | line {body t : Text} (hb : '\n' ∉ body) (h : Filler t) :
      Filler ('/' :: '/' :: (body ++ '\n' :: t))

/-- What may stand behind the last token: also a line comment that the text ends in. -/
def Ending (e : Text) : Prop :=
  Filler e ∨ ∃ f body, Filler f ∧ '\n' ∉ body ∧ e = f ++ '/' :: '/' :: body

/-- Comments, and a comma before each closing bracket or brace. -/
def decorated : Spacing := ⟨Filler, Ending, True⟩

/-- Whitespace, and commas before closing brackets and braces. -/
def trailing : Spacing := ⟨IsSpaces, IsSpaces, True⟩

/-! Comments -/

theorem dropComments_code {c : Char} (hs : c ≠ '/') (hq : c ≠ '"') (t : Text) :
    dropComments .code (c :: t) = c :: dropComments .code t := by
  rw [dropComments_code_cons fun h => absurd h hs, if_neg hq]

theorem dropComments_line {body : Text} (hb : '\n' ∉ body) (t : Text) :
    dropComments .line (body ++ t) = dropComments .line t := by
  induction body with
  | nil => rfl
  | cons c body ih =>
    obtain ⟨hc, hb⟩ := not_or.mp (mt List.mem_cons.mpr hb)
    rw [List.cons_append, dropComments, if_neg (Ne.symm hc), ih hb]

/-- A block comment leaves its line breaks. -/
theorem dropComments_block {body : Text} {star : Bool}
    (hb : ¬ ['*', '/'] <:+: (if star then '*' :: body else body)) (t : Text) :
    dropComments (.block star) (body ++ '*' :: '/' :: t) =
      body.filter (· = '\n') ++ dropComments .code t := by
  induction body generalizing star with
  | nil => simp [dropComments]
  | cons c body ih =>
    have hclose : ¬ (star = true ∧ c = '/') := by
      rintro ⟨rfl, rfl⟩
      exact hb ⟨[], body, rfl⟩
    have hrest : ¬ ['*', '/'] <:+: c :: body := by
      intro h
      refine hb (h.trans ?_)
      split
      · exact (List.suffix_cons '*' _).isInfix
      · exact List.infix_refl _
    have hbody : ¬ ['*', '/'] <:+: body := fun h => hrest (h.trans (List.suffix_cons c _).isInfix)
    rw [List.cons_append, dropComments, if_neg hclose]
    by_cases hc : c = '\n'
    · rw [if_pos hc, ih (by simpa using hbody)]
      simp [hc]
    · have hstar : ¬ ['*', '/'] <:+: (if (c == '*') = true then '*' :: body else body) := by
        split
        · rename_i h
          rwa [beq_iff_eq.mp h] at hrest
        · exact hbody
      rw [if_neg hc, ih hstar]
      simp [hc]

theorem isSpace_newline : isSpace '\n' = true := by decide

/-- A filler leaves whitespace. -/
theorem Filler.exists_spaces {f : Text} (h : Filler f) :
    ∃ g, IsSpaces g ∧ ∀ t, dropComments .code (f ++ t) = g ++ dropComments .code t := by
  induction h with
  | nil => exact ⟨[], Json.isSpaces_nil, fun t => rfl⟩
  | @space c f hc _ ih =>
    obtain ⟨g, hg, hall⟩ := ih
    refine ⟨c :: g, List.forall_mem_cons.mpr ⟨hc, hg⟩, fun t => ?_⟩
    have hs : c ≠ '/' ∧ c ≠ '"' := by
      rcases Json.isSpace_cases hc with rfl | rfl | rfl | rfl <;> decide
    rw [List.cons_append, dropComments_code hs.1 hs.2, hall t, List.cons_append]
  | @block body f hb _ ih =>
    obtain ⟨g, hg, hall⟩ := ih
    refine ⟨body.filter (· = '\n') ++ g, ?_, fun t => ?_⟩
    · intro c hc
      rcases List.mem_append.mp hc with hc | hc
      · obtain rfl : c = '\n' := by simpa using (List.mem_filter.mp hc).2
        exact isSpace_newline
      · exact hg c hc
    · have hopen : ∀ u, dropComments .code ('/' :: '*' :: u) = dropComments (.block false) u :=
        fun u => rfl
      simp only [List.cons_append, List.append_assoc]
      rw [hopen, dropComments_block (by simpa using hb), hall t]
  | @line body f hb _ ih =>
    obtain ⟨g, hg, hall⟩ := ih
    refine ⟨'\n' :: g, List.forall_mem_cons.mpr ⟨isSpace_newline, hg⟩, fun t => ?_⟩
    have hopen : ∀ u, dropComments .code ('/' :: '/' :: u) = dropComments .line u := fun u => rfl
    have hend : ∀ u, dropComments .line ('\n' :: u) = '\n' :: dropComments .code u := fun u => rfl
    simp only [List.cons_append, List.append_assoc]
    rw [hopen, dropComments_line hb, hend, hall t]

theorem Ending.isSpaces {e : Text} (h : Ending e) : IsSpaces (dropComments .code e) := by
  rcases h with h | ⟨f, body, h, hb, rfl⟩
  · obtain ⟨g, hg, hall⟩ := h.exists_spaces
    have he := hall []
    rw [List.append_nil] at he
    rw [he]
    simpa [dropComments] using hg
  · obtain ⟨g, hg, hall⟩ := h.exists_spaces
    have hopen : dropComments .code ('/' :: '/' :: body) = dropComments .line body := rfl
    have hbody : dropComments .line body = [] := by
      have hline := dropComments_line hb []
      rw [List.append_nil] at hline
      rw [hline]
      rfl
    rw [hall, hopen, hbody, List.append_nil]
    exact hg

theorem dropComments_string {body : Text} (h : Closes body) (t : Text) :
    dropComments .string (body ++ t) = body ++ dropComments .code t := by
  induction h with
  | quote => rfl
  | escape c _ ih => exact congrArg (fun r => '\\' :: c :: r) ih
  | @plain c body hq hb _ ih =>
    rw [List.cons_append, dropComments_string_cons fun h => absurd h hb, if_neg hq, ih,
      List.cons_append]

theorem isScalarChar_ne {c : Char} (h : isScalarChar c = true) : c ≠ '/' ∧ c ≠ '"' ∧ c ≠ ',' := by
  refine ⟨?_, ?_, ?_⟩ <;> rintro rfl <;> exact absurd h (by decide)

/-- Tokens stay. -/
theorem dropComments_word {w : Text} {l : Lexeme} (h : Shape w l) (t : Text) :
    dropComments .code (w ++ t) = w ++ dropComments .code t := by
  cases h with
  | @mark c h =>
    have hc : c ≠ '/' ∧ c ≠ '"' := by
      rcases Json.isMark_cases h with rfl | rfl | rfl | rfl | rfl | rfl <;> decide
    exact dropComments_code hc.1 hc.2 t
  | @string body s h =>
    have hopen : dropComments .code ('"' :: (body ++ t)) =
        '"' :: dropComments .string (body ++ t) := rfl
    rw [List.cons_append, hopen, dropComments_string h, List.cons_append]
  | @scalar c body v h =>
    generalize c :: body = w at h
    induction w with
    | nil => rfl
    | cons d w ih =>
      obtain ⟨hd, hw⟩ := List.forall_mem_cons.mp h
      obtain ⟨hs, hq, -⟩ := isScalarChar_ne hd
      rw [List.cons_append, dropComments_code hs hq, ih hw, List.cons_append]

/-- Without its comments a manifest has whitespace between its tokens, and maybe commas. -/
theorem laid_dropComments {ws : List Text} {ls : List Lexeme} {u : Text} (h : Laid decorated ws u)
    (hr : List.Forall₂ Reads ws ls) : Laid trailing ws (dropComments .code u) := by
  induction h generalizing ls with
  | nil he => exact .nil (Ending.isSpaces he)
  | @token g w u ws hg h ih =>
    cases hr with
    | cons hw hrest =>
      obtain ⟨g', hg', hall⟩ := Filler.exists_spaces hg
      rw [hall, dropComments_word hw.shape]
      exact .token hg' (ih hrest)
  | @comma g g' w u ws hm hg hg' hclose h ih =>
    cases hr with
    | cons hw hrest =>
      obtain ⟨f, hf, hall⟩ := Filler.exists_spaces hg
      obtain ⟨f', hf', hall'⟩ := Filler.exists_spaces hg'
      rw [hall, dropComments_code (by decide) (by decide), hall', dropComments_word hw.shape]
      exact .comma trivial hf hf' hclose (ih hrest)

/-! Commas -/

theorem dropCommas_plain {c : Char} (hc : c ≠ ',') (hq : c ≠ '"') (t : Text) :
    dropCommas false (c :: t) = c :: dropCommas false t := by
  rw [dropCommas, if_neg fun h => hc h.1, beq_eq_false_iff_ne.mpr hq]

theorem dropCommas_string {body : Text} (h : Closes body) (t : Text) :
    dropCommas true (body ++ t) = body ++ dropCommas false t := by
  induction h with
  | quote => rfl
  | escape c _ ih => exact congrArg (fun r => '\\' :: c :: r) ih
  | plain hq hb _ ih =>
    rw [List.cons_append, dropCommas_inString fun h => absurd h hb, bne_iff_ne.mpr hq, ih,
      List.cons_append]

theorem dropCommas_spaces {g : Text} (hg : IsSpaces g) (t : Text) :
    dropCommas false (g ++ t) = g ++ dropCommas false t := by
  induction g with
  | nil => rfl
  | cons c g ih =>
    obtain ⟨hc, hg⟩ := List.forall_mem_cons.mp hg
    have hs : c ≠ ',' ∧ c ≠ '"' := by
      rcases Json.isSpace_cases hc with rfl | rfl | rfl | rfl <;> decide
    rw [List.cons_append, dropCommas_plain hs.1 hs.2, ih hg, List.cons_append]

/-- Tokens other than commas stay. -/
theorem dropCommas_word {w : Text} {l : Lexeme} (h : Shape w l) (hl : l ≠ .mark ',') (t : Text) :
    dropCommas false (w ++ t) = w ++ dropCommas false t := by
  cases h with
  | @mark c h =>
    have hc : c ≠ ',' := by
      rintro rfl
      exact hl rfl
    have hq : c ≠ '"' := by
      rintro rfl
      exact absurd h (by decide)
    exact dropCommas_plain hc hq t
  | @string body s h =>
    have hopen : dropCommas false ('"' :: (body ++ t)) = '"' :: dropCommas true (body ++ t) := rfl
    rw [List.cons_append, hopen, dropCommas_string h, List.cons_append]
  | @scalar c body v h =>
    generalize c :: body = w at h
    induction w with
    | nil => rfl
    | cons d w ih =>
      obtain ⟨hd, hw⟩ := List.forall_mem_cons.mp h
      obtain ⟨-, hq, hc⟩ := isScalarChar_ne hd
      rw [List.cons_append, dropCommas_plain hc hq, ih hw, List.cons_append]

theorem closesNext_spaces {g : Text} (hg : IsSpaces g) (t : Text) :
    closesNext (g ++ t) = closesNext t := by
  have hblank : ∀ c ∈ g, Text.isBlank c = true := by
    intro c hc
    rcases Json.isSpace_cases (hg c hc) with rfl | rfl | rfl | rfl <;> decide
  rw [closesNext, closesNext, List.dropWhile_append_of_pos hblank]

theorem closesNext_cons {c : Char} (hc : Text.isBlank c = false) (t : Text) :
    closesNext (c :: t) = (c == ']' || c == '\x7d') := by
  simp [closesNext, hc]

theorem isBlank_of_isScalarChar {c : Char} (h : isScalarChar c = true) :
    Text.isBlank c = false := by
  have hrange : 43 ≤ c.toNat ∧ c.toNat ≤ 122 := by
    simp only [isScalarChar, Json.isNumberChar, Bool.or_eq_true, beq_iff_eq, Char.isDigit,
      Bool.and_eq_true, decide_eq_true_eq] at h
    rcases h with (((((h | rfl) | rfl) | rfl) | rfl) | rfl) | h
    · have hlo : 48 ≤ c.toNat := UInt32.le_iff_toNat_le.mp h.1
      have hhi : c.toNat ≤ 57 := UInt32.le_iff_toNat_le.mp h.2
      omega
    · decide
    · decide
    · decide
    · decide
    · decide
    · obtain ⟨ha, hz⟩ := Bool.and_eq_true_iff.mp h
      have hlo : 97 ≤ c.toNat := UInt32.le_iff_toNat_le.mp (of_decide_eq_true ha)
      have hhi : c.toNat ≤ 122 := UInt32.le_iff_toNat_le.mp (of_decide_eq_true hz)
      omega
  simp [Text.isBlank]
  omega

/-- Only a closing mark closes. -/
theorem closesNext_word {w : Text} {l : Lexeme} (h : Shape w l) (t : Text) :
    closesNext (w ++ t) = true ↔ l = .mark ']' ∨ l = .mark '\x7d' := by
  cases h with
  | @mark c h =>
    have hblank : Text.isBlank c = false := by
      rcases Json.isMark_cases h with rfl | rfl | rfl | rfl | rfl | rfl <;> decide
    rw [List.singleton_append, closesNext_cons hblank]
    simp
  | string h => simp [closesNext_cons (show Text.isBlank '"' = false by decide)]
  | @scalar c body v h =>
    have hc : isScalarChar c = true := h c (by simp)
    have hne : c ≠ ']' ∧ c ≠ '\x7d' := by
      constructor <;> rintro rfl <;> exact absurd hc (by decide)
    rw [List.cons_append, closesNext_cons (isBlank_of_isScalarChar hc)]
    simp [hne]

theorem Shape.eq_mark_of_close {w : Text} {l : Lexeme} (h : Shape w l)
    (hw : w = [']'] ∨ w = ['\x7d']) : l = .mark ']' ∨ l = .mark '\x7d' := by
  rw [← closesNext_word h []]
  rcases hw with rfl | rfl <;> decide

/-- Nothing closes before a token that is no closing mark. -/
theorem closesNext_laid {ws : List Text} {ls : List Lexeme} {u : Text} (h : Laid trailing ws u)
    (hr : List.Forall₂ Reads ws ls) (hl : ∀ l ∈ ls.head?, l ≠ .mark ']' ∧ l ≠ .mark '\x7d') :
    closesNext u = false := by
  cases h with
  | nil he =>
    have hend := closesNext_spaces he []
    rw [List.append_nil] at hend
    rw [hend]
    rfl
  | token hg h =>
    cases hr with
    | cons hw _ =>
      obtain ⟨hbracket, hbrace⟩ := hl _ rfl
      rw [closesNext_spaces hg]
      by_contra hc
      rw [Bool.not_eq_false, closesNext_word hw.shape] at hc
      rcases hc with hc | hc
      · exact hbracket hc
      · exact hbrace hc
  | comma hm hg hg' hclose h =>
    cases hr with
    | cons hw _ =>
      obtain ⟨hbracket, hbrace⟩ := hl _ rfl
      rcases Shape.eq_mark_of_close hw.shape hclose with hc | hc
      · exact absurd hc hbracket
      · exact absurd hc hbrace

/-- Without trailing commas the tokens have whitespace between them, and nothing else. -/
theorem laid_dropCommas {ws : List Text} {ls : List Lexeme} {u : Text} (h : Laid trailing ws u)
    (hr : List.Forall₂ Reads ws ls) (hc : ls.IsChain Adjacent) :
    Laid strict ws (dropCommas false u) := by
  induction h generalizing ls with
  | nil he =>
    have hend := dropCommas_spaces he []
    rw [List.append_nil] at hend
    rw [hend, dropCommas, List.append_nil]
    exact .nil he
  | @token g w u ws hg h ih =>
    cases hr with
    | @cons _ l _ ls hw hrest =>
      rw [dropCommas_spaces hg]
      have htail := ih hrest hc.tail
      by_cases hl : l = .mark ','
      · subst hl
        obtain ⟨rfl, -⟩ := hw.shape.eq_of_mark
        have hstays : closesNext u = false := by
          refine closesNext_laid h hrest fun l hl => ?_
          cases ls with
          | nil => cases hl
          | cons l' ls =>
            obtain rfl := Option.some.inj hl
            exact (List.isChain_cons_cons.mp hc).1.comma rfl
        have hcomma : dropCommas false (',' :: u) = ',' :: dropCommas false u := by
          simp [dropCommas, hstays]
        rw [List.singleton_append, hcomma]
        exact .token hg htail
      · rw [dropCommas_word hw.shape hl]
        exact .token hg htail
  | @comma g g' w u ws hm hg hg' hclose h ih =>
    cases hr with
    | @cons _ l _ ls hw hrest =>
      have hcloses := Shape.eq_mark_of_close hw.shape hclose
      have hdropped : dropCommas false (',' :: (g' ++ (w ++ u))) =
          dropCommas false (g' ++ (w ++ u)) := by
        have hnext : closesNext (g' ++ (w ++ u)) = true := by
          rw [closesNext_spaces hg', closesNext_word hw.shape]
          exact hcloses
        simp [dropCommas, hnext]
      have hother : l ≠ .mark ',' := by
        rintro rfl
        simp at hcloses
      have hspaces : IsSpaces (g ++ g') := List.forall_mem_append.mpr ⟨hg, hg'⟩
      rw [dropCommas_spaces hg, hdropped, dropCommas_spaces hg', dropCommas_word hw.shape hother,
        ← List.append_assoc]
      exact .token hspaces (ih hrest hc.tail)

/-- A text of the tokens of a document, with comments and trailing commas, is read as the
document. -/
theorem parse_clean {ws : List Text} {ls : List Lexeme} {v : Json} (h : Document ws ls v) {u : Text}
    (hu : Laid decorated ws u) : Json.parse (clean u) = .ok v :=
  h.parse (laid_dropCommas (laid_dropComments hu h.reads) h.reads h.accepts.chain)

theorem Filler.of_isSpaces {g : Text} (h : IsSpaces g) : Filler g := by
  induction g with
  | nil => exact .nil
  | cons c g ih =>
    obtain ⟨hc, hg⟩ := List.forall_mem_cons.mp h
    exact .space hc (ih hg)

/-- Whitespace is nothing but a decoration. -/
theorem laid_decorated {ws : List Text} {u : Text} (h : Laid strict ws u) :
    Laid decorated ws u := by
  induction h with
  | nil he => exact .nil (.inl (.of_isSpaces he))
  | token hg _ ih => exact .token (.of_isSpaces hg) ih
  | comma hm => exact hm.elim

/-- A document that is accepted is its tokens with whitespace between them. If whitespace, comments
and one comma before each closing bracket or brace stand there, the manifest is read all the same,
and says the same. -/
theorem parse_decorated {t : Text} {v : Json} (h : Json.parse t = .ok v) {u : Text}
    (hu : Laid decorated (words t) u) (path : Path) :
    Laid strict (words t) t ∧ parse path u = .ok (ofJson path v) ∧ parse path u = parse path t := by
  obtain ⟨ls, hdocument, hlaid⟩ := Json.exists_document h
  have hall : ∀ {u}, Laid decorated (words t) u → parse path u = .ok (ofJson path v) := by
    intro u hu
    rw [parse, parse_clean hdocument hu]
    rfl
  exact ⟨hlaid, hall hu, (hall hu).trans (hall (laid_decorated hlaid)).symm⟩

def plainSample : Text := "[\"/*,]\"]".toList

def decoratedSample : Text := "/*\"*/[\"/*,]\" //,\n,]//".toList

theorem words_plainSample :
    words plainSample = [['['], "\"/*,]\"".toList, [']']] := by
  decide +kernel

theorem laid_decoratedSample :
    Laid decorated [['['], "\"/*,]\"".toList, [']']] decoratedSample := by
  have hquote : decorated.gap "/*\"*/".toList := @Filler.block ['"'] [] (by decide) .nil
  have hcomma : decorated.gap " //,\n".toList := .space rfl (@Filler.line [','] [] (by decide) .nil)
  have hnone : decorated.gap [] := Filler.nil
  have hend : decorated.stop "//".toList := .inr ⟨[], [], .nil, by decide, rfl⟩
  exact .token hquote (.token hnone (.comma trivial hcomma hnone (.inl rfl) (.nil hend)))

theorem parse_decorated_sample :
    Json.parse plainSample = .ok (.array [.string "/*,]".toList]) ∧
    Laid decorated (words plainSample) decoratedSample ∧
    parse ⟨"/p/tsconfig.json".toList⟩ decoratedSample =
      parse ⟨"/p/tsconfig.json".toList⟩ plainSample := by
  have hparse : Json.parse plainSample = .ok (.array [.string "/*,]".toList]) := rfl
  have hlaid : Laid decorated (words plainSample) decoratedSample := by
    rw [words_plainSample]
    exact laid_decoratedSample
  exact ⟨hparse, hlaid, (parse_decorated hparse hlaid _).2.2⟩

end ImportAlias.Manifest
