import ImportAlias.Proofs.Edit
import ImportAlias.Proofs.Header.Returns
import ImportAlias.Proofs.Header.Scan

/-! Line ends of a header. A text with a carriage return before every line feed has the same header
as the text without them, and aliases leave its line ends alone. -/
namespace ImportAlias

namespace Text

/-- The text with a carriage return before every line feed. -/
def crlf (t : Text) : Text := t.flatMap fun c => if c = '\n' then ['\r', '\n'] else [c]

/-- Lines with a carriage return at the end of each but the last. -/
def withReturns : List Text → List Text
  | [] => []
  | [last] => [last]
  | line :: rest => (line ++ ['\r']) :: withReturns rest

theorem withReturns_cons (line : Text) {rest : List Text} (h : rest ≠ []) :
    withReturns (line :: rest) = (line ++ ['\r']) :: withReturns rest := by
  obtain ⟨next, rest, rfl⟩ := List.exists_cons_of_ne_nil h
  rfl

theorem withReturns_ne_nil {ls : List Text} (h : ls ≠ []) : withReturns ls ≠ [] := by
  obtain ⟨line, rest, rfl⟩ := List.exists_cons_of_ne_nil h
  cases rest <;> simp [withReturns]

theorem not_mem_of_mem_withReturns {ls : List Text} (h : ∀ l ∈ ls, '\n' ∉ l) :
    ∀ l ∈ withReturns ls, '\n' ∉ l := by
  induction ls with
  | nil => simp [withReturns]
  | cons line rest ih =>
    cases rest with
    | nil => exact h
    | cons next rest =>
      have hline : '\n' ∉ line ++ ['\r'] := by simp [h line (by simp)]
      rw [withReturns_cons line (by simp), List.forall_mem_cons]
      exact ⟨hline, ih fun l hl => h l (List.mem_cons_of_mem line hl)⟩

theorem crlf_of_not_mem {t : Text} (h : '\n' ∉ t) : crlf t = t := by
  induction t with
  | nil => rfl
  | cons c t ih =>
    obtain ⟨hc, ht⟩ := not_or.mp (mt List.mem_cons.mpr h)
    have hi := ih ht
    unfold crlf at hi ⊢
    simp [Ne.symm hc, hi]

/-- Joined by line feeds, lines with carriage returns make the text with carriage returns. -/
theorem crlf_joinWith {ls : List Text} (h : ∀ l ∈ ls, '\n' ∉ l) :
    crlf (joinWith '\n' ls) = joinWith '\n' (withReturns ls) := by
  induction ls with
  | nil => rfl
  | cons line rest ih =>
    have hline := crlf_of_not_mem (h line (by simp))
    cases rest with
    | nil => simpa [joinWith, withReturns] using hline
    | cons next rest =>
      have hi := ih fun l hl => h l (List.mem_cons_of_mem line hl)
      have hne : withReturns (next :: rest) ≠ [] := withReturns_ne_nil (by simp)
      rw [withReturns_cons line (by simp), joinWith_cons, joinWith_cons, following_of_ne_nil _ hne,
        ← hi]
      unfold crlf at hline ⊢
      simp [following, hline]

theorem splitOn_crlf (t : Text) : splitOn '\n' (crlf t) = withReturns (splitOn '\n' t) := by
  have hno : ∀ l ∈ splitOn '\n' t, '\n' ∉ l := fun _ => not_mem_of_mem_splitOn
  have hj := crlf_joinWith hno
  rw [joinWith_splitOn] at hj
  rw [hj, splitOn_joinWith (withReturns_ne_nil (splitOn_ne_nil '\n' t))
    (not_mem_of_mem_withReturns hno)]

end Text

/-- The line with a carriage return at its end. -/
def HeaderLine.padded : HeaderLine → HeaderLine
  | plain t => plain (t ++ ['\r'])
  | slot before s after => slot before s (after ++ ['\r'])

theorem HeaderLine.text_aliased_padded (choose : Specifier → Option Text) (l : HeaderLine) :
    (l.padded.aliased choose).text = (l.aliased choose).text ++ ['\r'] := by
  cases l with
  | plain t => rfl
  | slot before s after => simp [padded, aliased, text]

namespace Header

theorem slotOf_padded (line : Text) (q : Quoted) :
    slotOf (line ++ ['\r']) q.padded = (slotOf line q).padded := by
  have hl : (line ++ ['\r']).length - (q.padded.body.length + q.padded.rest.length) =
      line.length - (q.body.length + q.rest.length) := by
    simp only [Quoted.padded, List.length_append, List.length_singleton]
    omega
  have ht : (line ++ ['\r']).take (line.length - (q.body.length + q.rest.length)) =
      line.take (line.length - (q.body.length + q.rest.length)) :=
    List.take_append_of_le_length (by omega)
  unfold slotOf
  rw [hl, ht]
  rfl

/-- What the scanner makes of a line, with a carriage return at its end. -/
def padStep (p : HeaderLine × State) : HeaderLine × State := (p.1.padded, p.2)

theorem scanStatement_append_return (line : Text) :
    scanStatement (line ++ ['\r']) = (scanStatement line).map padStep := by
  have hr := readsAlike_reexport.blind line
  simp only at hr
  unfold scanStatement
  rw [blind_isDirective line, readsAlike_editable.append_return, blind_isRequireMember line, hr,
    blind_isImportOpener line, blind_isExportOpener line]
  by_cases hd : isDirective line
  · simp [hd, padStep, HeaderLine.padded]
  · rw [if_neg hd, if_neg hd]
    cases editable? line with
    | some q => simp [padStep, slotOf_padded]
    | none =>
      simp only [Option.map_none]
      split_ifs <;> rfl

theorem scanListLine_append_return (kind : ListKind) (line : Text) :
    scanListLine kind (line ++ ['\r']) = (scanListLine kind line).map padStep := by
  unfold scanListLine
  rw [readsAlike_listSource.append_return, blind_isListClose line, blind_isListLine line]
  cases listSource? line with
  | some q => cases kind <;> simp [padStep, slotOf_padded, HeaderLine.padded]
  | none =>
    simp only [Option.map_none]
    split_ifs <;> rfl

/-- A line with a carriage return at its end is scanned as the line without it. -/
theorem scanLine_append_return (state : State) (line : Text) :
    scanLine state (line ++ ['\r']) = (scanLine state line).map padStep := by
  have hh := blind_isHashbang line
  simp only at hh
  cases state with
  | comment =>
    simp only [scanLine, comments?_append_return]
    cases comments? true line <;> rfl
  | list kind => exact scanListLine_append_return kind line
  | start =>
    simp only [scanLine, comments?_append_return, hh, scanStatement_append_return]
    cases comments? false line with
    | some s => rfl
    | none =>
      simp only
      split_ifs <;> rfl
  | statement =>
    simp only [scanLine, comments?_append_return, scanStatement_append_return]
    cases comments? false line <;> rfl

variable {choose : Specifier → Option Text}

theorem length_textsAliased (state : State) (ls : List Text) :
    ((scanLines state ls).textsAliased choose).length = ls.length := by
  have h := congrArg List.length (text_scanLines state ls)
  simpa [textsAliased] using h

/-- Lines with carriage returns are scanned up to the same line, with the same specifiers. -/
theorem candidatesFrom_withReturns (n : Nat) (state : State) (ls : List Text) :
    candidatesFrom n (scanLines state (Text.withReturns ls)).lines =
      candidatesFrom n (scanLines state ls).lines := by
  induction ls generalizing n state with
  | nil => rfl
  | cons line rest ih =>
    cases rest with
    | nil => rfl
    | cons next rest =>
      rw [Text.withReturns_cons line (by simp)]
      unfold scanLines
      rw [scanLine_append_return]
      cases scanLine state line with
      | none => rfl
      | some p =>
        obtain ⟨found, after⟩ := p
        cases found with
        | plain t => exact ih (n + 1) after
        | slot before s tail => exact congrArg (List.cons (n, s)) (ih (n + 1) after)

/-- With aliases in it, a header of lines with carriage returns has them where it had them. -/
theorem textsAliased_withReturns (state : State) (ls : List Text) :
    (scanLines state (Text.withReturns ls)).textsAliased choose =
      Text.withReturns ((scanLines state ls).textsAliased choose) := by
  induction ls generalizing state with
  | nil => rfl
  | cons line rest ih =>
    cases rest with
    | nil =>
      have hlen : ((scanLines state [line]).textsAliased choose).length = 1 :=
        length_textsAliased state [line]
      obtain ⟨t, ht⟩ := List.length_eq_one_iff.mp hlen
      rw [Text.withReturns, ht, Text.withReturns]
    | cons next rest =>
      rw [Text.withReturns_cons line (by simp)]
      unfold scanLines
      rw [scanLine_append_return]
      cases scanLine state line with
      | none => simp [textsAliased, Text.withReturns_cons]
      | some p =>
        obtain ⟨found, after⟩ := p
        have hne : (scanLines after (next :: rest)).textsAliased choose ≠ [] := by
          rw [← List.length_pos_iff, length_textsAliased]
          simp
        have hi := ih after
        have hp := HeaderLine.text_aliased_padded choose found
        unfold textsAliased at hi hne ⊢
        simp only [Option.map_some, padStep, List.map_cons, List.cons_append, hp, hi]
        rw [Text.withReturns_cons _ hne]

end Header

variable {ε : Type}

/-- Line ends make no difference: with a carriage return before every line feed, a text gets the
same edits after the same questions, and its carriage returns stay. -/
theorem aliasHeader_crlf (resolve : Resolver ε) (threshold : Nat)
    (h : ∀ s a, resolve s = .ok (some a) → '\n' ∉ a) (text : Text) :
    aliasHeader resolve threshold (Text.crlf text) =
      { text := Text.crlf (aliasHeader resolve threshold text).text
        edits := (aliasHeader resolve threshold text).edits
        consulted := (aliasHeader resolve threshold text).consulted } := by
  have hc : (Header.scan (Text.crlf text)).candidates = (Header.scan text).candidates := by
    unfold Header.scan Header.candidates
    rw [Text.splitOn_crlf]
    exact Header.candidatesFrom_withReturns 1 .start _
  have hlines : ∀ t ∈ (Header.scan text).textsAliased (resolve.choose threshold), '\n' ∉ t :=
    Header.not_mem_of_mem_textsAliased fun l hl => Header.not_mem_text_aliased hl fun s a _ ha =>
      h s a (Resolver.choose_eq_some.mp ha).2.1
  have ht : ((Header.scan (Text.crlf text)).aliased (resolve.choose threshold)).text =
      Text.crlf ((Header.scan text).aliased (resolve.choose threshold)).text := by
    rw [Header.text_aliased_eq, Header.text_aliased_eq, Text.crlf_joinWith hlines]
    unfold Header.scan
    rw [Text.splitOn_crlf, Header.textsAliased_withReturns]
  unfold aliasHeader Header.edits
  simp only [hc, ht]

theorem aliasHeader_crlf_sample :
    let resolve : Resolver Unit := fun _ => .ok (some "@/a".toList)
    let text := "import \x7b\n  b,\n\x7d from '../../a';\nrun(b);".toList
    Text.crlf text = "import \x7b\r\n  b,\r\n\x7d from '../../a';\r\nrun(b);".toList ∧
      aliasHeader resolve 1 (Text.crlf text) =
        { text := Text.crlf "import \x7b\n  b,\n\x7d from '@/a';\nrun(b);".toList
          edits := [⟨3, "../../a".toList, "@/a".toList⟩]
          consulted := ["../../a".toList] } := by
  intro resolve text
  have hr : ∀ s a, resolve s = .ok (some a) → '\n' ∉ a := by
    intro s a ha
    obtain rfl : "@/a".toList = a := Option.some.inj (Except.ok.inj ha)
    decide
  have ho : aliasHeader resolve 1 text = ⟨"import \x7b\n  b,\n\x7d from '@/a';\nrun(b);".toList,
      [⟨3, "../../a".toList, "@/a".toList⟩], ["../../a".toList]⟩ := by decide +kernel
  exact ⟨by decide +kernel, by rw [aliasHeader_crlf resolve 1 hr text, ho]⟩

end ImportAlias
