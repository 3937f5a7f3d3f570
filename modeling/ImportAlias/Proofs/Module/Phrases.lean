import ImportAlias.Proofs.Grammar.Openings
import ImportAlias.Proofs.Grammar.Mentions
import ImportAlias.Proofs.Header.Acceptance

/-! The tokens of statements as the grammar reads them, and reading with regard to the mentions in
the trees. -/
namespace ImportAlias

open Text (isBlank isNameChar)
open Grammar

/-! Texts of statements as texts of the grammar -/

theorem blank_of_isBlank {t : Text} (h : ∀ c ∈ t, isBlank c = true) (hn : nextLine ∉ t) :
    Blank t := by
  intro c hc
  have hne : c ≠ nextLine := fun he => hn (he ▸ hc)
  simp [isSpace, h c hc, hne]

theorem isWordPart_of_isNameChar {c : Char} (h : isNameChar c = true) : isWordPart c = true := by
  have hblank : isBlank c = false := by
    cases hb : isBlank c with
    | false => rfl
    | true => simp [Header.isNameChar_of_isBlank hb] at h
  have hcode : ∀ n ∈ [0xFEFF, 0x2060, 0x200B], c.toNat ≠ n := by
    have hall : ∀ n ∈ [0xFEFF, 0x2060, 0x200B], isNameChar (Char.ofNat n) = false := by
      decide +kernel
    intro n hn he
    have hc := hall n hn
    rw [← he, Char.ofNat_toNat] at hc
    simp [hc] at h
  have hpunctuation : c ∉ punctuation := by
    have hall : punctuation.all (fun c => !isNameChar c) = true := by decide +kernel
    intro hc
    have := List.all_eq_true.mp hall c hc
    simp [h] at this
  have hcontrol : 0x20 ≤ c.toNat := by
    have hall : ∀ n ∈ List.range 0x20, isNameChar (Char.ofNat n) = false := by decide +kernel
    by_contra hlt
    have hc := hall c.toNat (List.mem_range.mpr (by omega))
    rw [Char.ofNat_toNat] at hc
    simp [hc] at h
  simp only [List.mem_cons, List.not_mem_nil, or_false, forall_eq_or_imp, forall_eq] at hcode
  simp [isWordPart, isSpace, hblank, hcode, hpunctuation, hcontrol]

namespace Header

theorem Padding.isBlank (g : Padding) : Blank g.text := blank_of_isBlank g.blank g.noNextLine

theorem Wide.isBlank (w : Wide) : Blank w.text := blank_of_isBlank w.blank w.noNextLine

theorem Separator.apart (s : Separator) (t : Text) : Apart (s.text ++ t) :=
  apart_of_blank s.isBlank s.ne_nil t

theorem WideSpace.apart (s : WideSpace) (t : Text) : Apart (s.text ++ t) :=
  apart_of_blank s.isBlank s.ne_nil t

theorem Name.isWord (n : Name) : IsWord n.text := by
  obtain ⟨c, t, ht⟩ := List.exists_cons_of_ne_nil n.ne_nil
  have hdigit : c.isDigit = false := by simpa [ht] using n.start
  rw [ht]
  refine ⟨?_, List.all_eq_true.mpr fun e he =>
    isWordPart_of_isNameChar (n.chars e (by simp [ht, he]))⟩
  simp [isWordStart, isWordPart_of_isNameChar (n.chars c (by simp [ht])), hdigit]

theorem Name.not_mem (n : Name) {words : List String} (h : ∀ k ∈ words, k ∈ languageWords) :
    String.ofList n.text ∉ words := fun hn => n.free (h _ hn)

theorem PlainSource.literally (s : PlainSource) : Literally s.mark.char s.specifier :=
  ⟨s.quote_eq ▸ s.toSource.fresh, s.noBackslash, s.oneLine, s.noReturn⟩

theorem PlainSource.isMark (s : PlainSource) : IsMark s.quote := by
  rcases s.isQuote with hq | hq <;> rw [hq] <;> decide

end Header

namespace Grammar

open Phrase Header

/-- Reading has a result at every depth that is large enough, and its trees show what they are read
for. -/
def Reads (k : Nat) (g : Phrase) (t : Text) (f : Found) (u : Text) : Prop :=
  ∃ a, Gives .typeScript k g t a u ∧ Shows f a

variable {k k' : Nat} {g : Phrase} {gs : List Phrase} {t u v w r : Text} {f : Found} {c : Char}

theorem Reads.mono (h : Reads k g t f u) (hk : k ≤ k') : Reads k' g t f u := by
  obtain ⟨a, ha, hf⟩ := h
  exact ⟨a, ha.mono hk, hf⟩

theorem Reads.choice (h : Reads k g t f u) : Reads (k + 1) (.choice (g :: gs)) t f u := by
  obtain ⟨a, ha, hf⟩ := h
  exact ⟨a, ha.choice, hf⟩

/-- The last alternative. -/
theorem Reads.final (h : Reads k g t f u) : Reads (k + 1) (.choice [g]) t f u := h.choice

theorem Reads.skip (h : Reads k (.choice gs) t f u) (hg : Refuses .typeScript g t) :
    Reads k (.choice (g :: gs)) t f u := by
  obtain ⟨a, ha, hf⟩ := h
  exact ⟨a, hg.choice ha, hf⟩

theorem Reads.rule {x : Rule} (h : Reads k (Dialect.typeScript.rules x) t f u) :
    Reads (k + 1) (.rule x) t f u := by
  obtain ⟨a, ha, hf⟩ := h
  exact ⟨a, ha.rule, hf⟩

theorem Reads.named {s : String} (h : Reads k (.seq gs) t f u)
    (hf : ∀ before quote body, f ≠ .source before quote body) :
    Reads (k + 1) (named s gs) t f u := by
  obtain ⟨a, ha, hs⟩ := h
  exact ⟨_, ha.node, hs.wrap hf s⟩

theorem reads_nil : Reads 1 (.seq []) t .nothing t := ⟨[], gives_seq_nil, silent_nil⟩

/-- Nothing is found in the first part. -/
theorem Reads.seq (h : Reads k g t .nothing u) (ht : t = w ++ u) (hs : Reads k' (.seq gs) u f v) :
    Reads (max k k' + 1) (.seq (g :: gs)) t (f.after w) v := by
  obtain ⟨a, ha, hsilent⟩ := h
  obtain ⟨b, hb, hf⟩ := hs
  obtain rfl : w = Tree.textOf a := List.append_cancel_right (ht.symm.trans ha.text)
  exact ⟨a ++ b, ha.seq hb, Silent.append_shows hsilent hf⟩

theorem after_after (v w : Text) (f : Found) : (f.after v).after w = f.after (w ++ v) := by
  cases f <;> simp [Found.after]

/-- Nothing is found in the first part, which ends before the same text. -/
theorem Reads.seq_at (h : Reads k g (w ++ r) .nothing (v ++ r))
    (hs : Reads k' (.seq gs) (v ++ r) (f.after v) u) :
    Reads (max k k' + 1) (.seq (g :: gs)) (w ++ r) (f.after w) u := by
  obtain ⟨a, ha, hsilent⟩ := h
  obtain ⟨b, hb, hf⟩ := hs
  obtain rfl : w = Tree.textOf a ++ v := by
    have ht := ha.text
    rw [← List.append_assoc] at ht
    exact List.append_cancel_right ht
  have hshows := Silent.append_shows hsilent hf
  rw [after_after] at hshows
  exact ⟨a ++ b, ha.seq hb, hshows⟩

/-- Nothing is found in the other parts. -/
theorem Reads.seq_nothing (h : Reads k g t f u) (hs : Reads k' (.seq gs) u .nothing v) :
    Reads (max k k' + 1) (.seq (g :: gs)) t f v := by
  obtain ⟨a, ha, hf⟩ := h
  obtain ⟨b, hb, hsilent⟩ := hs
  exact ⟨a ++ b, ha.seq hb, hf.append_silent hsilent⟩

theorem Reads.single (h : Reads k g t f u) : Reads (max k 1 + 1) (.seq [g]) t f u :=
  h.seq_nothing reads_nil

theorem Reads.optional (h : Reads k g t f u) : Reads (k + 1) (optional g) t f u := h.choice

theorem reads_optional (h : Refuses .typeScript g t) : Reads 2 (optional g) t .nothing t :=
  ⟨[], h.optional, silent_nil⟩

theorem reads_many (h : Refuses .typeScript g t) : Reads 1 (.many g) t .nothing t :=
  ⟨[], h.repeats.many, silent_nil⟩

theorem reads_absent (h : Refuses .typeScript g t) : Reads 1 (.absent g) t .nothing t :=
  ⟨[], h.absent, silent_nil⟩

/-! Tokens -/

theorem silent_spaces (w : Text) : Silent (spaces w) := by
  unfold spaces
  split
  · exact silent_nil
  · exact silent_leaf (by decide) w

theorem silent_tokenTrees {kind : Kind} (hs : kind ≠ .source) (w s : Text) :
    Silent (tokenTrees kind w s) := (silent_spaces w).append (silent_leaf hs s)

theorem reads_token {kind : Kind} {scan : Scanner} {s : Text} (hk : kind ≠ .source)
    (hw : Blank w) (hs : Starts s) (h : scan (s ++ r) = some s.length) :
    Reads 4 (lexeme kind scan) (w ++ (s ++ r)) .nothing r :=
  ⟨_, gives_token hw hs h, silent_tokenTrees hk w s⟩

theorem reads_keyword {s : String} (hw : Blank w) (hs : IsWord s.toList) (hr : Apart r) :
    Reads 4 (keyword s) (w ++ (s.toList ++ r)) .nothing r :=
  reads_token (by decide) hw hs.starts (keyword_append hs hr)

theorem reads_keywords {words : List String} {s : String} (hw : Blank w) (hs : IsWord s.toList)
    (hmem : s ∈ words) (hr : Apart r) :
    Reads 4 (keywords words) (w ++ (s.toList ++ r)) .nothing r :=
  reads_token (by decide) hw hs.starts (keywords_append hs hmem hr)

theorem reads_name (hw : Blank w) (n : Name) (hr : Apart r) :
    Reads 4 name (w ++ (n.text ++ r)) .nothing r :=
  reads_token (by decide) hw n.isWord.starts (word_append n.isWord hr)

theorem reads_mark {s : String} (hs : s.toList = [c]) (hw : Blank w) (hc : IsMark c) (r : Text) :
    Reads 4 (mark s) (w ++ c :: r) .nothing r := by
  have hscan := literal_append s r
  rw [hs] at hscan
  exact reads_token (by decide) hw (hc.starts []) hscan

theorem reads_assign (hw : Blank w) (hr : ∀ c, r.head? = some c → c ∉ "=>".toList) :
    Reads 4 assign (w ++ '=' :: r) .nothing r := by
  have hs : Starts ['='] := ⟨'=', [], rfl, by decide, by decide⟩
  have hscan : Scan.sign "=" "=>" (['='] ++ r) = some ['='].length := sign_append hr
  exact reads_token (by decide) hw hs hscan

def quotedText (q : Quote) (body : Text) : Text := q.char :: (body ++ [q.char])

theorem gives_quoted {kind : Kind} (hw : Blank w) (s : PlainSource) (r : Text) :
    Gives .typeScript 4 (lexeme kind Scan.string) (w ++ s.quote :: (s.specifier ++ s.quote :: r))
      (tokenTrees kind w (quotedText s.mark s.specifier)) r := by
  have hq : s.mark.char = '"' ∨ s.mark.char = '\x27' := by
    rw [← s.quote_eq]
    exact s.isQuote
  have hstarts : Starts (quotedText s.mark s.specifier) := by
    refine ⟨s.mark.char, _, rfl, ?_, ?_⟩ <;> rcases hq with hq | hq <;> rw [hq] <;> decide
  have htext : quotedText s.mark s.specifier ++ r =
      s.mark.char :: (s.specifier ++ s.mark.char :: r) := by simp [quotedText]
  have hscan : Scan.string (quotedText s.mark s.specifier ++ r) =
      some (quotedText s.mark s.specifier).length := by
    rw [htext, string_append hq s.literally]
    simp [quotedText]
  rw [s.quote_eq, ← htext]
  exact gives_token hw hstarts hscan

theorem textOf_spaces (w : Text) : Tree.textOf (spaces w) = w := by
  unfold spaces
  split <;> simp_all [Tree.textOf, Tree.text]

theorem reads_source (hw : Blank w) (s : PlainSource) (r : Text) :
    Reads 4 source (w ++ s.quote :: (s.specifier ++ s.quote :: r))
      (.source w s.mark s.specifier) r :=
  ⟨_, gives_quoted hw s r, spaces w, [], rfl, silent_spaces w, silent_nil, textOf_spaces w⟩

/-- The word `type` with white space after it, or nothing. -/
def IsTypeMark (t : Text) : Prop := t = [] ∨ ∃ s, Blank s ∧ s ≠ [] ∧ t = "type".toList ++ s

theorem typeMarked_eq (p : Phrase) : typeMarked .typeScript p =
    .choice [.seq [keywords ["type", "typeof"], p], p] := rfl

theorem reads_typeMarked {p : Phrase} (ht : IsTypeMark t) (hw : Blank w)
    (hclear : Clear ["type", "typeof"] [] (w ++ r))
    (hp : ∀ w, Blank w → Reads k p (w ++ r) (f.after w) u) :
    Reads (k + 10) (typeMarked .typeScript p) (w ++ (t ++ r)) (f.after (w ++ t)) u := by
  rcases ht with rfl | ⟨s, hs, hne, rfl⟩
  · have hskip : Refuses .typeScript (.seq [keywords ["type", "typeof"], p]) (w ++ r) :=
      refuses_seq_cons (hclear.keywords fun k hk => hk)
    have hr : Reads (k + 1) (.choice [p]) (w ++ r) (f.after w) u := (hp w hw).choice
    rw [typeMarked_eq]
    simpa using (hr.skip hskip).mono (by omega)
  · have hword : Reads 4 (keywords ["type", "typeof"]) (w ++ ("type".toList ++ (s ++ r))) .nothing
        (s ++ r) := reads_keywords hw (by decide) (by decide) (apart_of_blank hs hne r)
    have hseq := hword.seq (w := w ++ "type".toList) (by simp) (hp s hs).single
    rw [after_after] at hseq
    rw [typeMarked_eq]
    simpa using hseq.choice.mono (by omega)

end Grammar

end ImportAlias
