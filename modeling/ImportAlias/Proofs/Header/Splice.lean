import ImportAlias.Proofs.Edit
import ImportAlias.Proofs.Header.Scan
import Mathlib.Data.List.Forall2

/-! Aliasing a header replaces byte ranges of its text: the contents of quotes, one on a line, and
nothing else. -/
namespace ImportAlias

namespace Text

/-- Puts texts in place of byte ranges, from a byte offset on. Nothing comes out if a range starts
before the offset, or if an offset lies beyond the text or inside a character. -/
def replaceRanges? (t : Text) : Nat → List (Span × Text) → Option Text
  | cursor, [] => dropBytes? cursor t
  | cursor, (r, u) :: rest => do
    let kept ← slice? t cursor r.start
    let tail ← replaceRanges? t r.stop rest
    return kept ++ u ++ tail

theorem replaceRanges?_cons {t kept u tail : Text} {cursor : Nat} {r : Span}
    {rest : List (Span × Text)} (hk : slice? t cursor r.start = some kept)
    (ht : replaceRanges? t r.stop rest = some tail) :
    replaceRanges? t cursor ((r, u) :: rest) = some (kept ++ u ++ tail) := by
  simp [replaceRanges?, hk, ht]

end Text

namespace Header

open Text (byteSize)

variable {choose : Specifier → Option Text}

/-- The byte ranges that aliasing replaces, for lines that start at a byte offset. -/
def replacementsFrom (choose : Specifier → Option Text) : Nat → List HeaderLine → List (Span × Text)
  | _, [] => []
  | o, .plain t :: rest => replacementsFrom choose (o + byteSize t + 1) rest
  | o, .slot before s after :: rest =>
    let start := o + byteSize before
    ((choose s).map fun a => (⟨start, start + byteSize s⟩, a)).toList ++
      replacementsFrom choose (o + byteSize (before ++ s ++ after) + 1) rest

def replacements (choose : Specifier → Option Text) (h : Header) : List (Span × Text) :=
  replacementsFrom choose 0 h.lines

/-- A specifier between two equal quotes of a text, at a byte range and on a line. -/
def Located (text : Text) (r : Span) (n : Nat) (s : Specifier) : Prop :=
  ∃ front c back, text = front ++ c :: (s ++ c :: back) ∧ IsQuote c ∧ c ∉ s ∧ '\n' ∉ s ∧
    r = ⟨byteSize front + 1, byteSize front + 1 + byteSize s⟩ ∧ n = 1 + front.count '\n'

/-- A slot whose quotes stand in the parts around it, on a line of its own. -/
def WellCut (l : HeaderLine) : Prop :=
  '\n' ∉ l.text ∧ ∀ before s after, l = .slot before s after →
    ∃ lead c tail, before = lead ++ [c] ∧ after = c :: tail ∧ IsQuote c ∧ c ∉ s

theorem wellCut_of_mem_scan {text : Text} {l : HeaderLine} (h : l ∈ (scan text).lines) :
    WellCut l := by
  refine ⟨not_mem_text_of_mem_scan h, ?_⟩
  rintro before s after rfl
  obtain ⟨c, hq, hf, lead, tail, hl⟩ := exists_encloses h
  obtain ⟨hb, -, ha⟩ := HeaderLine.slot.inj hl
  exact ⟨lead, c, tail, hb, ha, hq, hf⟩

theorem IsQuote.byteSize {c : Char} (h : IsQuote c) : c.utf8Size = 1 := by
  rcases h with rfl | rfl <;> decide

theorem WellCut.located {before after : Text} {s : Specifier}
    (h : WellCut (.slot before s after)) (pre back : Text) :
    Located (pre ++ ((HeaderLine.slot before s after).text ++ back))
      ⟨byteSize pre + byteSize before, byteSize pre + byteSize before + byteSize s⟩
      (1 + pre.count '\n') s := by
  obtain ⟨hnl, hslot⟩ := h
  obtain ⟨lead, c, tail, rfl, rfl, hq, hf⟩ := hslot before s after rfl
  simp only [HeaderLine.text, List.mem_append, not_or] at hnl
  refine ⟨pre ++ lead, c, tail ++ back, ?_, hq, hf, hnl.1.2, ?_, ?_⟩
  · simp [HeaderLine.text]
  · simp [byteSize, hq.byteSize, Nat.add_assoc]
  · simp [List.count_eq_zero.mpr hnl.1.1.1]

/-- The lines and the body of a header as one text. -/
private def textFrom (ls : List HeaderLine) (body : List Text) : Text :=
  Text.joinWith '\n' (ls.map HeaderLine.text ++ body)

/-- What follows the first of the lines: nothing, or a line break and the other lines. -/
private def tailFrom (ls : List HeaderLine) (body : List Text) : Text :=
  Text.following '\n' (ls.map HeaderLine.text ++ body)

private theorem textFrom_cons (l : HeaderLine) (ls : List HeaderLine) (body : List Text) :
    textFrom (l :: ls) body = l.text ++ tailFrom ls body := by
  unfold textFrom tailFrom
  rw [List.map_cons, List.cons_append, Text.joinWith_cons]

private theorem tailFrom_of_ne {ls : List HeaderLine} {body : List Text}
    (h : ¬ (ls = [] ∧ body = [])) : tailFrom ls body = '\n' :: textFrom ls body := by
  unfold textFrom tailFrom
  cases hl : ls.map HeaderLine.text ++ body with
  | nil => exact absurd (by simpa using hl) h
  | cons u us => rfl

/-- Each edit stands at its range, line by line. The text before the lines is kept as `pre`, which
gives the byte offset and the line number that the lines start at. -/
private theorem located_from {ls : List HeaderLine} (hw : ∀ l ∈ ls, WellCut l) (pre : Text)
    (body : List Text) : List.Forall₂
      (fun p e => Located (pre ++ textFrom ls body) p.1 e.line e.specifier ∧
        choose e.specifier = some e.replacement ∧ p.2 = e.replacement)
      (replacementsFrom choose (byteSize pre) ls) (editsFrom choose (1 + pre.count '\n') ls) := by
  induction ls generalizing pre with
  | nil => exact .nil
  | cons l ls ih =>
    have hl := hw l (by simp)
    have hw' : ∀ l ∈ ls, WellCut l := fun k hk => hw k (by simp [hk])
    have htail : List.Forall₂
        (fun p e => Located (pre ++ textFrom (l :: ls) body) p.1 e.line e.specifier ∧
          choose e.specifier = some e.replacement ∧ p.2 = e.replacement)
        (replacementsFrom choose (byteSize pre + byteSize l.text + 1) ls)
        (editsFrom choose (1 + pre.count '\n' + 1) ls) := by
      by_cases he : ls = [] ∧ body = []
      · rw [he.1]
        exact .nil
      · have hi := ih hw' (pre ++ l.text ++ ['\n'])
        have hb : byteSize (pre ++ l.text ++ ['\n']) = byteSize pre + byteSize l.text + 1 := by
          simp [Nat.add_assoc]
        have hn : (pre ++ l.text ++ ['\n']).count '\n' = pre.count '\n' + 1 := by
          simp [List.count_eq_zero.mpr hl.1]
        rw [hb, hn] at hi
        rw [textFrom_cons, tailFrom_of_ne he, show pre ++ (l.text ++ '\n' :: textFrom ls body) =
          (pre ++ l.text ++ ['\n']) ++ textFrom ls body by simp]
        exact hi
    cases l with
    | plain t => exact htail
    | slot before s after =>
      rw [editsFrom_slot]
      unfold replacementsFrom
      cases hc : choose s with
      | none => exact htail
      | some a =>
        refine .cons ⟨?_, hc, rfl⟩ htail
        rw [textFrom_cons]
        exact hl.located pre _

private theorem le_start_of_mem {ls : List HeaderLine} {o : Nat} {p : Span × Text}
    (h : p ∈ replacementsFrom choose o ls) : o ≤ p.1.start := by
  induction ls generalizing o with
  | nil => simp [replacementsFrom] at h
  | cons l ls ih =>
    cases l with
    | plain t =>
      have := ih h
      omega
    | slot before s after =>
      rcases List.mem_append.mp h with h | h
      · obtain ⟨a, -, rfl⟩ := Option.map_eq_some_iff.mp (Option.mem_toList.mp h)
        simp
      · have := ih h
        omega

private theorem replacementsFrom_ordered (ls : List HeaderLine) (o : Nat) :
    (replacementsFrom choose o ls).Pairwise fun p p' => p.1.stop < p'.1.start := by
  induction ls generalizing o with
  | nil => exact .nil
  | cons l ls ih =>
    cases l with
    | plain t => exact ih _
    | slot before s after =>
      unfold replacementsFrom
      cases h : choose s with
      | none => exact ih _
      | some a =>
        refine List.pairwise_cons.mpr ⟨fun p hp => ?_, ih _⟩
        have := le_start_of_mem hp
        simp only [Text.byteSize_append] at this
        simp only
        omega

private theorem lines_ordered (ls : List HeaderLine) (n : Nat) :
    (∀ e ∈ editsFrom choose n ls, n ≤ e.line) ∧
      (editsFrom choose n ls).Pairwise fun e e' => e.line < e'.line := by
  induction ls generalizing n with
  | nil => exact ⟨by simp [editsFrom, candidatesFrom], .nil⟩
  | cons l ls ih =>
    obtain ⟨hle, hp⟩ := ih (n + 1)
    have hle' : ∀ e ∈ editsFrom choose (n + 1) ls, n ≤ e.line := by
      intro e he
      have := hle e he
      omega
    cases l with
    | plain t => exact ⟨hle', hp⟩
    | slot before s after =>
      rw [editsFrom_slot]
      cases h : choose s with
      | none => exact ⟨hle', hp⟩
      | some a =>
        constructor
        · intro e he
          rcases List.mem_cons.mp he with rfl | he
          · exact le_rfl
          · exact hle' e he
        · exact List.pairwise_cons.mpr ⟨fun e he => hle e he, hp⟩

/-- Replacing the ranges of the lines gives the aliased lines. What has been passed over since the
last replacement is kept as `kept`. -/
private theorem replaceRanges?_from (ls : List HeaderLine) (done kept : Text) (body : List Text) :
    Text.replaceRanges? (done ++ kept ++ textFrom ls body) (byteSize done)
        (replacementsFrom choose (byteSize (done ++ kept)) ls) =
      some (kept ++ textFrom (ls.map (HeaderLine.aliased choose)) body) := by
  induction ls generalizing done kept with
  | nil =>
    have := Text.dropBytes?_append done (kept ++ textFrom [] body)
    simpa [Text.replaceRanges?, replacementsFrom] using this
  | cons l ls ih =>
    have htail : ∀ done kept : Text,
        Text.replaceRanges? (done ++ (kept ++ tailFrom ls body)) (byteSize done)
            (replacementsFrom choose (byteSize done + byteSize kept + 1) ls) =
          some (kept ++ tailFrom (ls.map (HeaderLine.aliased choose)) body) := by
      intro done kept
      by_cases he : ls = [] ∧ body = []
      · obtain ⟨rfl, rfl⟩ := he
        exact Text.dropBytes?_append done _
      · have he' : ¬ (ls.map (HeaderLine.aliased choose) = [] ∧ body = []) := by simpa using he
        have hi := ih done (kept ++ ['\n'])
        rw [tailFrom_of_ne he, tailFrom_of_ne he']
        simpa [Nat.add_assoc] using hi
    rw [List.map_cons, textFrom_cons, textFrom_cons, List.append_assoc, Text.byteSize_append]
    cases l with
    | plain t =>
      have ht := htail done (kept ++ t)
      simpa [HeaderLine.text, HeaderLine.aliased, replacementsFrom, Nat.add_assoc] using ht
    | slot before s after =>
      unfold replacementsFrom
      cases hc : choose s with
      | none =>
        have ht := htail done (kept ++ (before ++ s ++ after))
        simpa [HeaderLine.text, HeaderLine.aliased, hc, Nat.add_assoc] using ht
      | some a =>
        obtain ⟨full, hfull⟩ : ∃ full, full =
            done ++ (kept ++ ((HeaderLine.slot before s after).text ++ tailFrom ls body)) :=
          ⟨_, rfl⟩
        have hk : Text.slice? full (byteSize done)
            (byteSize done + byteSize kept + byteSize before) = some (kept ++ before) := by
          have := Text.slice?_append done (kept ++ before) (s ++ (after ++ tailFrom ls body))
          simpa [hfull, HeaderLine.text, Nat.add_assoc] using this
        have ht : Text.replaceRanges? full
            (byteSize done + byteSize kept + byteSize before + byteSize s)
            (replacementsFrom choose
              (byteSize done + byteSize kept + byteSize (before ++ s ++ after) + 1) ls) =
            some (after ++ tailFrom (ls.map (HeaderLine.aliased choose)) body) := by
          have := htail (done ++ kept ++ before ++ s) after
          simpa [hfull, HeaderLine.text, Nat.add_assoc] using this
        have h := Text.replaceRanges?_cons (u := a) (r := ⟨_, _⟩) hk ht
        rw [← hfull]
        simpa [HeaderLine.text, HeaderLine.aliased, hc] using h

end Header

variable {ε : Type}

/-- The edit replaces the byte range `r` of the text: the content of a pair of quotes, which the
resolver answers with the replacement. -/
structure Edit.Replaces (resolve : Resolver ε) (threshold : Nat) (text : Text) (e : Edit)
    (r : Span) : Prop where
  content : Text.slice? text r.start r.stop = some e.specifier
  quoted : ∃ c, (c = '"' ∨ c = '\x27') ∧ c ∉ e.specifier ∧ 0 < r.start ∧
    Text.slice? text (r.start - 1) r.start = some [c] ∧
    Text.slice? text r.stop (r.stop + 1) = some [c]
  oneLine : '\n' ∉ e.specifier
  line_eq : ∃ before, Text.slice? text 0 r.start = some before ∧ e.line = 1 + before.count '\n'
  deep : threshold < e.specifier.climbDepth
  resolved : resolve e.specifier = .ok (some e.replacement)
  changed : e.replacement ≠ e.specifier

private theorem Header.Located.replaces {resolve : Resolver ε} {threshold : Nat} {text : Text}
    {e : Edit} {r : Span} (h : Header.Located text r e.line e.specifier)
    (hc : resolve.choose threshold e.specifier = some e.replacement) :
    e.Replaces resolve threshold text r := by
  obtain ⟨front, c, back, rfl, hq, hf, hn, rfl, hl⟩ := h
  obtain ⟨hd, hr, hne⟩ := Resolver.choose_eq_some.mp hc
  have hsize := Header.IsQuote.byteSize hq
  have hcn : c ≠ '\n' := by rcases hq with rfl | rfl <;> decide
  refine ⟨?_, ⟨c, hq, hf, by simp, ?_, ?_⟩, hn, ⟨front ++ [c], ?_, ?_⟩, hd, hr, hne⟩
  · have := Text.slice?_append (front ++ [c]) e.specifier (c :: back)
    simpa [Text.byteSize, hsize, Nat.add_assoc] using this
  · have := Text.slice?_append front [c] (e.specifier ++ c :: back)
    simpa [Text.byteSize, hsize] using this
  · have := Text.slice?_append (front ++ [c] ++ e.specifier) [c] back
    simpa [Text.byteSize, hsize, Nat.add_assoc] using this
  · have := Text.slice?_append [] (front ++ [c]) (e.specifier ++ c :: back)
    simpa [Text.byteSize, hsize] using this
  · simp [hl, hcn]

private theorem zip_of_forall₂ {ps : List (Span × Text)} {es : List Edit}
    (h : List.Forall₂ (fun p e => p.2 = e.replacement) ps es) :
    (ps.map Prod.fst).zip (es.map Edit.replacement) = ps := by
  induction h with
  | nil => rfl
  | cons hp _ ih => simp [ih, ← hp]

/-- The edits of a text in order, each at its byte range. -/
theorem Header.located_replacements (choose : Specifier → Option Text) (text : Text) :
    List.Forall₂ (fun p e => Located text p.1 e.line e.specifier ∧
        choose e.specifier = some e.replacement ∧ p.2 = e.replacement)
      ((scan text).replacements choose) ((scan text).edits choose) := by
  have hw : ∀ l ∈ (scan text).lines, WellCut l := fun l hl => wellCut_of_mem_scan hl
  have h : List.Forall₂ _ (replacementsFrom choose 0 (scan text).lines) _ :=
    located_from hw [] (scan text).body
  have ht : textFrom (scan text).lines (scan text).body = text := text_scan text
  rw [List.nil_append, ht] at h
  exact h

/-- Replacing the ranges gives the aliased text. -/
theorem Header.replaceRanges?_replacements (choose : Specifier → Option Text) (text : Text) :
    Text.replaceRanges? text 0 ((scan text).replacements choose) =
      some ((scan text).aliased choose).text := by
  have ht : textFrom (scan text).lines (scan text).body = text := text_scan text
  have hr : Text.replaceRanges? _ 0 (replacementsFrom choose 0 _) = _ :=
    replaceRanges?_from (scan text).lines [] [] (scan text).body
  rw [List.nil_append, List.nil_append, ht] at hr
  exact hr

/-- Aliasing a header replaces disjoint byte ranges on increasing lines, one for each edit, and
keeps every other byte. -/
theorem aliasHeader_replaces (resolve : Resolver ε) (threshold : Nat) (text : Text) :
    ∃ spans : List Span,
      spans.Pairwise (fun r r' => r.stop < r'.start) ∧
      (aliasHeader resolve threshold text).edits.Pairwise (fun e e' => e.line < e'.line) ∧
      List.Forall₂ (Edit.Replaces resolve threshold text)
        (aliasHeader resolve threshold text).edits spans ∧
      Text.replaceRanges? text 0
          (spans.zip ((aliasHeader resolve threshold text).edits.map Edit.replacement)) =
        some (aliasHeader resolve threshold text).text := by
  have hl := Header.located_replacements (resolve.choose threshold) text
  have hz := zip_of_forall₂ (hl.imp fun p e h => h.2.2)
  refine ⟨((Header.scan text).replacements (resolve.choose threshold)).map Prod.fst, ?_, ?_, ?_, ?_⟩
  · exact List.pairwise_map.mpr (Header.replacementsFrom_ordered _ 0)
  · exact (Header.lines_ordered _ 1).2
  · rw [List.forall₂_map_right_iff]
    exact (hl.imp fun p e h => h.1.replaces h.2.1 : List.Forall₂
      (fun p e => e.Replaces resolve threshold text p.1) _ _).flip
  · simp only [aliasHeader]
    rw [hz]
    exact Header.replaceRanges?_replacements _ text

end ImportAlias
