import ImportAlias.Proofs.Header.Ordinary
import ImportAlias.Proofs.Header.Splice

/-! What aliasing replaces, and where the string literals of the text are. -/
namespace ImportAlias

namespace Header

open Region (code literal unbroken)
open Text (byteSize)

theorem region_of_statement {state : State} (h : state = .start ∨ state = .statement) :
    state.region = code := by
  rcases h with rfl | rfl <;> rfl

private theorem run_of_slot {line : Text} (ho : Ordinary line)
    (h : ∃ q lead c tail, Lead lead ∧ IsSlot line q lead c tail) :
    code.run (line ++ ['\n']) = code := by
  obtain ⟨q, lead, c, tail, hl, hs⟩ := h
  exact (hs.regions hl ho).2.2

private theorem run_isImportOpener {line : Text} (h : isImportOpener line)
    (hu : unbroken line = true) : code.run (line ++ ['\n']) = code := by
  have ho := (((opens_listOpening.optionally skips_defaultName).optionally
    (skips_keyword (s := "type") (by decide))).bind
      (skips_keyword (s := "import") (by decide))).bind skips_blanks
  exact ho.run_code h hu

private theorem run_isExportOpener {line : Text} (h : isExportOpener line)
    (hu : unbroken line = true) : code.run (line ++ ['\n']) = code := by
  have ho := ((opens_listOpening.optionally (skips_keyword (s := "type") (by decide))).bind
    (skips_keyword (s := "export") (by decide))).bind skips_blanks
  exact ho.run_code h hu

private theorem run_isListClose {line : Text} (h : isListClose line) (hu : unbroken line = true) :
    code.run (line ++ ['\n']) = code := by
  unfold isListClose at h
  split at h
  · rename_i t ht
    obtain ⟨pre, rfl, hpre, -⟩ := ((skips_items false).bind (skips_skip (by decide))) ht
    rw [List.append_assoc, Region.run_code_of_quiet hpre]
    exact run_isTail h (Region.unbroken_append hu).1
  · cases h

private theorem run_isListLine {line : Text} (h : isListLine line) (hu : unbroken line = true) :
    code.run (line ++ ['\n']) = code := by
  obtain ⟨pre, ht, hpre, -⟩ := skips_items false (t := line) rfl
  rw [ht] at hu ⊢
  rw [List.append_assoc, Region.run_code_of_quiet hpre]
  exact run_isListEnd h (Region.unbroken_append hu).1

/-- One line of the scanner is one line of regions. -/
theorem Scanned.region {state next : State} {line : Text} {found : HeaderLine}
    (h : Scanned state line found next) (ho : Ordinary line)
    (hb : state = .start → Text.startsWith ['#', '!'] line = false) :
    state.region.run (line ++ ['\n']) = next.region := by
  cases h with
  | insideComment hc => exact run_comments hc ho.unbroken
  | comment hst hc =>
    rw [region_of_statement hst]
    exact run_comments hc ho.unbroken
  | hashbang hh =>
    have hs := ho.hashbang hh
    rw [hb rfl] at hs
    cases hs
  | directive hst hd =>
    rw [region_of_statement hst]
    exact run_of_slot ho (finds_directive hd)
  | @editable _ _ q hst hq =>
    rw [region_of_statement hst]
    exact run_of_slot ho ⟨q, keeps_editable.finds hq⟩
  | passive hst hp =>
    rw [region_of_statement hst]
    exact run_of_slot ho (finds_passive hp)
  | importOpener hst hi =>
    rw [region_of_statement hst]
    exact run_isImportOpener hi ho.unbroken
  | exportOpener hst he =>
    rw [region_of_statement hst]
    exact run_isExportOpener he ho.unbroken
  | @importSource _ q hq => exact run_of_slot ho ⟨q, keeps_listSource.lead.finds hq⟩
  | @exportSource _ q hq => exact run_of_slot ho ⟨q, keeps_listSource.lead.finds hq⟩
  | listClose hc => exact run_isListClose hc ho.unbroken
  | listLine hl => exact run_isListLine hl ho.unbroken

theorem Scanned.next_ne_start {state next : State} {line : Text} {found : HeaderLine}
    (h : Scanned state line found next) : next ≠ .start := by
  rintro rfl
  cases h with
  | insideComment hc => exact comments?_ne_start hc
  | comment hst hc => exact comments?_ne_start hc

theorem Scanned.region_eq_code {state next : State} {line before after : Text} {s : Specifier}
    (h : Scanned state line (.slot before s after) next) : state.region = code := by
  generalize hf : HeaderLine.slot before s after = found at h
  cases h with
  | editable hst => exact region_of_statement hst
  | importSource => rfl
  | _ => cases hf

/-- The range lies between the quotes of a literal: the first quote stands in code, and nothing
between the quotes keeps the second one from closing the literal. -/
def Confirmed (start : Region) (text : Text) (r : Span) : Prop :=
  ∃ front c s back, text = front ++ c :: (s ++ c :: back) ∧ IsQuote c ∧ c ∉ s ∧
    r = ⟨byteSize front + 1, byteSize front + 1 + byteSize s⟩ ∧
    (start.run front).isCode ∧ ((literal c).run s).isOpen c

/-- The specifier of an ordinary line stands in a literal, if the regions agree with the state of
the scanner at the start of the line. -/
theorem Scanned.confirmed {start : Region} {state next : State} {line before after pre : Text}
    {s : Specifier} (h : Scanned state line (.slot before s after) next) (ho : Ordinary line)
    (hpre : start.run pre = state.region) (back : Text) :
    Confirmed start (pre ++ (line ++ back))
      ⟨byteSize pre + byteSize before, byteSize pre + byteSize before + byteSize s⟩ := by
  obtain ⟨-, lead, c, tail, hcut⟩ := h.isCut
  obtain ⟨hlead, hbody, -⟩ := hcut.slot.regions hcut.isLead ho
  have htext : line = lead ++ c :: (s ++ c :: tail) := hcut.slot.text_eq
  have hbytes : byteSize before = byteSize lead + 1 := by
    simp [hcut.before_eq, byteSize, hcut.slot.quote.byteSize]
  refine ⟨pre ++ lead, c, s, tail ++ back, ?_, hcut.slot.quote, hcut.slot.fresh, ?_, ?_, ?_⟩
  · simp [htext]
  · simp [hbytes, Nat.add_assoc]
  · rw [Region.run_append, hpre, h.region_eq_code, hlead]
    rfl
  · have hb : (literal c).run s = literal c := hbody
    simp [hb, Region.isOpen]

variable {choose : Specifier → Option Text}

/-- On ordinary lines every range is confirmed, line by line. What stands before the lines is kept
as `pre`, at the end of which the regions agree with the state of the scanner. -/
private theorem confirmed_from {start : Region} {ls : List Text} {state : State}
    (ho : ∀ l ∈ (scanLines state ls).lines, Ordinary l.text)
    (hb : state = .start → ∀ l ∈ ls.head?, Text.startsWith ['#', '!'] l = false) (pre : Text)
    (hpre : start.run pre = state.region) :
    ∀ p ∈ replacementsFrom choose (byteSize pre) (scanLines state ls).lines,
      Confirmed start (pre ++ Text.joinWith '\n' ls) p.1 := by
  induction ls generalizing state pre with
  | nil => simp [scanLines, replacementsFrom]
  | cons line rest ih =>
    cases hs : scanLine state line with
    | none => simp [scanLines, hs, replacementsFrom]
    | some found =>
      obtain ⟨found, next⟩ := found
      have hsc := scanned_of_scanLine hs
      have hlines : (scanLines state (line :: rest)).lines =
          found :: (scanLines next rest).lines := by simp [scanLines, hs]
      rw [hlines] at ho ⊢
      obtain ⟨hline, hrest⟩ := List.forall_mem_cons.mp ho
      rw [hsc.text_eq] at hline
      have htail : ∀ p ∈ replacementsFrom choose (byteSize pre + byteSize line + 1)
          (scanLines next rest).lines,
          Confirmed start (pre ++ Text.joinWith '\n' (line :: rest)) p.1 := by
        cases rest with
        | nil => simp [scanLines, replacementsFrom]
        | cons u us =>
          have hrun : start.run (pre ++ line ++ ['\n']) = next.region := by
            rw [List.append_assoc, Region.run_append, hpre]
            exact hsc.region hline fun h => hb h line rfl
          have hi := ih hrest (fun h => absurd h hsc.next_ne_start) (pre ++ line ++ ['\n']) hrun
          have hbytes : byteSize (pre ++ line ++ ['\n']) = byteSize pre + byteSize line + 1 := by
            simp [Nat.add_assoc]
          rw [hbytes] at hi
          have htext : pre ++ Text.joinWith '\n' (line :: u :: us) =
              pre ++ line ++ ['\n'] ++ Text.joinWith '\n' (u :: us) := by simp [Text.joinWith]
          rw [htext]
          exact hi
      cases found with
      | plain t =>
        obtain rfl := hsc.plain_eq
        exact htail
      | slot before s after =>
        unfold replacementsFrom
        intro p hp
        rcases List.mem_append.mp hp with hp | hp
        · obtain ⟨a, -, rfl⟩ := Option.map_eq_some_iff.mp (Option.mem_toList.mp hp)
          rw [Text.joinWith_cons]
          exact hsc.confirmed hline hpre _
        · have hline' : byteSize (before ++ s ++ after) = byteSize line := by
            rw [← hsc.text_eq]
            rfl
          rw [hline'] at hp
          exact htail p hp

private theorem scanLine_hashbang {line : Text} (h : ['#', '!'] <+: line) :
    scanLine .start line = some (.plain line, .statement) := by
  obtain ⟨t, rfl⟩ := h
  have hblank : Text.isBlank '#' = false := by decide
  have hb : blanks (['#', '!'] ++ t) = ['#', '!'] ++ t := by simp [blanks, hblank]
  have hn : comments? false (['#', '!'] ++ t) = none :=
    comments?_eq_none (by rw [hb]; rfl) (by decide)
  have hs : Text.startsWith ['#', '!'] (['#', '!'] ++ t) = true :=
    Text.startsWith_iff.mpr (List.prefix_append _ _)
  simp only [scanLine, hn, hb, hs, if_true]

private theorem hashbang_first_line {line : Text} {rest : List Text}
    (h : ['#', '!'] <+: line ++ Text.following '\n' rest) : ['#', '!'] <+: line := by
  cases rest with
  | nil => simpa [Text.following] using h
  | cons u us =>
    cases line with
    | nil => simp [Text.following] at h
    | cons c line =>
      cases line with
      | nil => simp [Text.following] at h
      | cons d line => simpa using h

/-- A header of ordinary lines has its specifiers in literals. -/
theorem confirmed_of_ordinary {text : Text} (ho : ∀ l ∈ (scan text).lines, Ordinary l.text) :
    ∀ p ∈ (scan text).replacements choose, Confirmed (.initial text) text p.1 := by
  obtain ⟨line, rest, hl⟩ := List.exists_cons_of_ne_nil (Text.splitOn_ne_nil '\n' text)
  have htext : text = line ++ Text.following '\n' rest := by
    rw [← Text.joinWith_cons, ← hl, Text.joinWith_splitOn]
  unfold replacements
  unfold scan at ho ⊢
  by_cases hh : Text.startsWith ['#', '!'] text = true
  · have hline : ['#', '!'] <+: line := by
      rw [Text.startsWith_iff, htext] at hh
      exact hashbang_first_line hh
    have hlines : (scanLines .start (Text.splitOn '\n' text)).lines =
        .plain line :: (scanLines .statement rest).lines := by
      rw [hl]
      simp [scanLines, scanLine_hashbang hline]
    rw [hlines] at ho ⊢
    obtain ⟨hfirst, hrest⟩ := List.forall_mem_cons.mp ho
    rw [Region.initial, if_pos hh]
    cases rest with
    | nil => simp [scanLines, replacementsFrom]
    | cons u us =>
      have hrun := Region.run_lineComment hfirst.unbroken
      have hc : ∀ p ∈ replacementsFrom choose (byteSize (line ++ ['\n']))
          (scanLines .statement (u :: us)).lines,
          Confirmed .lineComment (line ++ ['\n'] ++ Text.joinWith '\n' (u :: us)) p.1 :=
        confirmed_from hrest (fun h => by cases h) _ hrun
      have hbytes : byteSize (line ++ ['\n']) = 0 + byteSize line + 1 := by simp
      rw [hbytes] at hc
      rw [htext, show line ++ Text.following '\n' (u :: us) =
        line ++ ['\n'] ++ Text.joinWith '\n' (u :: us) by simp [Text.following]]
      exact hc
  · rw [Region.initial, if_neg hh]
    have hc : ∀ p ∈ replacementsFrom choose 0 (scanLines .start (Text.splitOn '\n' text)).lines,
        Confirmed code ([] ++ Text.joinWith '\n' (Text.splitOn '\n' text)) p.1 := by
      refine confirmed_from ho (fun _ l hm => ?_) [] rfl
      obtain rfl : line = l := by simpa [hl] using hm
      by_contra hs
      have hs := Text.startsWith_iff.mp (by simpa using hs)
      exact hh (Text.startsWith_iff.mpr (htext ▸ hs.trans (List.prefix_append _ _)))
    rwa [List.nil_append, Text.joinWith_splitOn] at hc

theorem Confirmed.mem_literals {text : Text} {r : Span}
    (h : Confirmed (.initial text) text r) : r ∈ Region.literals text := by
  obtain ⟨front, c, s, back, rfl, hq, hf, rfl, hcode, hopen⟩ := h
  exact (Region.mem_literals_iff hq hf).mpr ⟨hcode, hopen⟩

theorem Located.confirmed {text : Text} {r : Span} {n : Nat} {s : Specifier}
    (h : Located text r n s) (hr : r ∈ Region.literals text) :
    Confirmed (.initial text) text r := by
  obtain ⟨front, c, back, rfl, hq, hf, -, rfl, -⟩ := h
  obtain ⟨hcode, hopen⟩ := (Region.mem_literals_iff hq hf).mp hr
  exact ⟨front, c, s, back, rfl, hq, hf, rfl, hcode, hopen⟩

theorem located_of_mem {text : Text} {p : Span × Text} (h : p ∈ (scan text).replacements choose) :
    ∃ n s, Located text p.1 n s := by
  have hl := located_replacements choose text
  generalize (scan text).replacements choose = ps at h hl
  generalize (scan text).edits choose = es at hl
  induction hl with
  | nil => cases h
  | cons hp _ ih =>
    rcases List.mem_cons.mp h with rfl | h
    · exact ⟨_, _, hp.1⟩
    · exact ih h

end Header

variable {ε : Type}

/-- The ranges that aliasing replaces are the contents of string literals exactly if each of them
is confirmed, and for a header of ordinary lines they all are. -/
theorem aliasHeader_literals (resolve : Resolver ε) (threshold : Nat) (text : Text) :
    let ranges := (Header.scan text).replacements (resolve.choose threshold)
    Text.replaceRanges? text 0 ranges = some (aliasHeader resolve threshold text).text ∧
    ((∀ p ∈ ranges, p.1 ∈ Region.literals text) ↔
      ∀ p ∈ ranges, Header.Confirmed (.initial text) text p.1) ∧
    ((∀ l ∈ (Header.scan text).lines, Header.Ordinary l.text) →
      ∀ p ∈ ranges, p.1 ∈ Region.literals text) := by
  intro ranges
  refine ⟨Header.replaceRanges?_replacements _ text, ⟨fun h p hp => ?_, fun h p hp => ?_⟩, ?_⟩
  · obtain ⟨n, s, hl⟩ := Header.located_of_mem hp
    exact hl.confirmed (h p hp)
  · exact (h p hp).mem_literals
  · intro ho p hp
    exact (Header.confirmed_of_ordinary ho p hp).mem_literals

def sampleHeader : Text :=
  ("#!/usr/bin/env node\n// don't\n" ++
    "import \x7b a /* it's */ \x7d from '../../../lib/a'; // isn't\r\n").toList

theorem aliasHeader_literals_sample :
    let ranges := (Header.scan sampleHeader).replacements
      (Resolver.choose (ε := Empty) (fun _ => .ok (some "@/lib/a".toList)) 1)
    ranges ≠ [] ∧ ∀ p ∈ ranges, p.1 ∈ Region.literals sampleHeader :=
  ⟨by decide +kernel,
    (aliasHeader_literals (ε := Empty) (fun _ => .ok (some "@/lib/a".toList)) 1 sampleHeader).2.2
      (by decide +kernel)⟩

/-- A comment that runs from one brace list into the next hides an import from a reader of
regions, but not from the scanner. -/
def hiddenImport : Text :=
  ("import \x7b a, /* \x7d from \"../../../old\";\n" ++
    "import \x7b */ b \x7d from \"../../../new\";\n").toList

theorem aliasHeader_edits_comment :
    ∃ p ∈ (Header.scan hiddenImport).replacements
        (Resolver.choose (ε := Empty) (fun _ => .ok (some "@/old".toList)) 1),
      p.1 ∉ Region.literals hiddenImport := by
  decide +kernel

end ImportAlias
