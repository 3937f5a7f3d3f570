import ImportAlias.Proofs.Header.Scan

/-! Where a header ends. The scanner stops for good at the first line of code, in whatever state it
meets it, and nothing behind that line counts. A header that no line of code has ended goes on. -/
namespace ImportAlias

namespace Header

/-- The state in which lines leave the scanner, unless one of them is code. -/
def stateAfter? : State → List Text → Option State
  | state, [] => some state
  | state, line :: rest => (scanLine state line).bind fun (_, next) => stateAfter? next rest

/-- Lines behind a line of code go to the body as they are. -/
theorem scanLines_append_of_code {state : State} {ls : List Text}
    (h : (scanLines state ls).body ≠ []) (more : List Text) : scanLines state (ls ++ more) =
      ⟨(scanLines state ls).lines, (scanLines state ls).body ++ more⟩ := by
  induction ls generalizing state with
  | nil => exact absurd rfl h
  | cons line rest ih =>
    rw [List.cons_append]
    unfold scanLines at h ⊢
    cases hs : scanLine state line with
    | none => rfl
    | some p =>
      obtain ⟨found, next⟩ := p
      rw [hs] at h
      simp only [ih h]

theorem exists_stateAfter? {state : State} {ls : List Text} (h : (scanLines state ls).body = []) :
    ∃ next, stateAfter? state ls = some next := by
  induction ls generalizing state with
  | nil => exact ⟨state, rfl⟩
  | cons line rest ih =>
    unfold scanLines at h
    cases hs : scanLine state line with
    | none => simp [hs] at h
    | some p =>
      obtain ⟨found, after⟩ := p
      rw [hs] at h
      obtain ⟨next, hn⟩ := ih h
      exact ⟨next, by simp [stateAfter?, hs, hn]⟩

/-- Without a line of code, the lines that follow are scanned in the state that was left. -/
theorem scanLines_append_of_state {state next : State} {ls : List Text}
    (h : stateAfter? state ls = some next) (more : List Text) :
    (scanLines state (ls ++ more)).lines =
      (scanLines state ls).lines ++ (scanLines next more).lines := by
  induction ls generalizing state with
  | nil =>
    obtain rfl : state = next := Option.some.inj h
    rfl
  | cons line rest ih =>
    obtain ⟨⟨found, after⟩, hs, ha⟩ := Option.bind_eq_some_iff.mp h
    simp only [List.cons_append, scanLines, hs, ih ha]

/-- A text that carries a header on with one more specifier, whatever was open. -/
def continuation : State → Text
  | .start | .statement => "import '../a'".toList
  | .comment => "*/\nimport '../a'".toList
  | .list .imports => "\x7d from '../a'".toList
  | .list .exports => "\x7d\nimport '../a'".toList

theorem filterMap_continuation (state : State) :
    (scanLines state (Text.splitOn '\n' (continuation state))).lines.filterMap
      HeaderLine.specifier? = ["../a".toList] := by
  cases state with
  | list kind => cases kind <;> decide +kernel
  | _ => decide +kernel

theorem map_snd_candidatesFrom (n : Nat) (ls : List HeaderLine) :
    (candidatesFrom n ls).map Prod.snd = ls.filterMap HeaderLine.specifier? := by
  induction ls generalizing n with
  | nil => rfl
  | cons l ls ih =>
    cases l with
    | plain t => exact ih (n + 1)
    | slot before s after => exact congrArg (s :: ·) (ih (n + 1))

/-- Where the scan of a text meets a line of code, what follows the text goes to the body. -/
theorem scan_append {text : Text} (h : (scan text).body ≠ []) (rest : Text) :
    scan (text ++ '\n' :: rest) =
      ⟨(scan text).lines, (scan text).body ++ Text.splitOn '\n' rest⟩ := by
  unfold scan
  rw [Text.splitOn_append, scanLines_append_of_code h]

/-- Where it meets none, something can follow that the header asks for. -/
theorem exists_specifiers_append {text : Text} (h : (scan text).body = []) :
    ∃ rest, (scan (text ++ '\n' :: rest)).candidates.map Prod.snd =
      (scan text).candidates.map Prod.snd ++ ["../a".toList] := by
  obtain ⟨state, hs⟩ := exists_stateAfter? h
  refine ⟨continuation state, ?_⟩
  unfold candidates
  rw [map_snd_candidatesFrom, map_snd_candidatesFrom, scan, Text.splitOn_append,
    scanLines_append_of_state hs, List.filterMap_append, filterMap_continuation]
  rfl

end Header

/-- The body never influences the header, and only a line of code makes a body. Whatever follows a
text on lines of its own, the edits and the questions stay the same and what follows stays as it is,
exactly if the scan of the text meets a line of code. -/
theorem aliasHeader_append_iff (text : Text) : (Header.scan text).body ≠ [] ↔
    ∀ (ε : Type) (resolve : Resolver ε) (threshold : Nat) (rest : Text),
      aliasHeader resolve threshold (text ++ '\n' :: rest) =
        { text := (aliasHeader resolve threshold text).text ++ '\n' :: rest
          edits := (aliasHeader resolve threshold text).edits
          consulted := (aliasHeader resolve threshold text).consulted } := by
  constructor
  · intro h ε resolve threshold rest
    have hscan := Header.scan_append h rest
    have htext : ((Header.scan (text ++ '\n' :: rest)).aliased (resolve.choose threshold)).text =
        ((Header.scan text).aliased (resolve.choose threshold)).text ++ '\n' :: rest := by
      have hne : ((Header.scan text).textsAliased (resolve.choose threshold)) ≠ [] := by
        simp [Header.textsAliased, h]
      rw [Header.text_aliased_eq, Header.text_aliased_eq, hscan]
      unfold Header.textsAliased at hne ⊢
      rw [← List.append_assoc, Text.joinWith_append '\n' hne,
        Text.following_of_ne_nil '\n' (Text.splitOn_ne_nil '\n' rest), Text.joinWith_splitOn]
    have hcandidates : (Header.scan (text ++ '\n' :: rest)).candidates =
        (Header.scan text).candidates := by rw [hscan, Header.candidates, Header.candidates]
    unfold aliasHeader Header.edits
    simp only [htext, hcandidates]
  · intro h hnil
    obtain ⟨rest, hrest⟩ := Header.exists_specifiers_append hnil
    have hasked := congrArg Outcome.consulted (h Unit (fun _ => .ok none) 0 rest)
    have hshallow : Specifier.exceeds 0 "../a".toList = false := by
      simpa [aliasHeader, hrest] using hasked
    exact absurd hshallow (by decide)

/-- A line of code inside an open list, behind it what would close the list and import more. -/
theorem aliasHeader_append_iff_open :
    let text := "import a from '../../a';\nimport \x7b\nrun();".toList
    let rest := "\x7d from '../../b';\nimport c from '../../c'; /*".toList
    let resolve : Resolver Unit := fun s => .ok (some ('@' :: s.drop 5))
    (Header.scan text).body = ["run();".toList] ∧
      aliasHeader resolve 1 (text ++ '\n' :: rest) =
        { text := "import a from '@/a';\nimport \x7b\nrun();".toList ++ '\n' :: rest
          edits := [⟨1, "../../a".toList, "@/a".toList⟩]
          consulted := ["../../a".toList] } := by
  intro text rest resolve
  have hbody : (Header.scan text).body = ["run();".toList] := by decide +kernel
  have hout : aliasHeader resolve 1 text = ⟨"import a from '@/a';\nimport \x7b\nrun();".toList,
      [⟨1, "../../a".toList, "@/a".toList⟩], ["../../a".toList]⟩ := by decide +kernel
  have happend := (aliasHeader_append_iff text).mp (by simp [hbody]) Unit resolve 1 rest
  exact ⟨hbody, by rw [happend, hout]⟩

end ImportAlias
