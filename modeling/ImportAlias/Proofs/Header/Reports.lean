import ImportAlias.Proofs.Header.Changes

/-! The report on a text with aliases in its header is the list of its edits: one changed line for
each of them, by its number. -/
namespace ImportAlias

/-- A line of a text by its number, counted from one and without its line feed. -/
def Text.line (t : Text) : Nat → Text
  | 0 => []
  | n + 1 => (splitOn '\n' t).getD n []

namespace LineChange

/-- The change of a line from one text to another. -/
def ofLine (before after : Text) (n : Nat) : LineChange :=
  ⟨n, (before.line n).trim, (after.line n).trim⟩

variable {before after : Text}

theorem mem_compareFrom_splitOn
    (h : (Text.splitOn '\n' before).length = (Text.splitOn '\n' after).length) {c : LineChange} :
    c ∈ compareFrom 1 (Text.splitOn '\n' before) (Text.splitOn '\n' after) ↔
      before.line c.line ≠ after.line c.line ∧ c = ofLine before after c.line := by
  rw [mem_compareFrom h]
  constructor
  · rintro ⟨i, hne, rfl⟩
    rw [Nat.add_comm 1 i]
    exact ⟨hne, rfl⟩
  · rintro ⟨hne, hc⟩
    cases hn : c.line with
    | zero => simp [hn, Text.line] at hne
    | succ i =>
      rw [hn] at hne hc
      exact ⟨i, hne, by rw [hc, Nat.add_comm 1 i]; rfl⟩

end LineChange

namespace Header

variable {choose : Specifier → Option Text}

/-- The lines that aliases change are those of the edits. -/
theorem map_line_compareFrom (hs : ∀ s, choose s ≠ some s) (n : Nat) (ls : List HeaderLine)
    (body : List Text) :
    (LineChange.compareFrom n (ls.map HeaderLine.text ++ body)
      (ls.map (fun l => (l.aliased choose).text) ++ body)).map LineChange.line =
        (editsFrom choose n ls).map Edit.line := by
  induction ls generalizing n with
  | nil => simp [editsFrom, candidatesFrom]
  | cons l ls ih =>
    have hi := ih (n + 1)
    cases l with
    | plain t =>
      rw [editsFrom_plain]
      simpa [LineChange.compareFrom, HeaderLine.aliased] using hi
    | slot before s after =>
      rw [editsFrom_slot]
      cases ha : choose s with
      | none => simpa [LineChange.compareFrom, HeaderLine.aliased, ha] using hi
      | some a =>
        have hne : (HeaderLine.slot before s after).text ≠
            ((HeaderLine.slot before s after).aliased choose).text := by
          intro he
          simp only [HeaderLine.text, HeaderLine.aliased, ha, Option.getD_some] at he
          have hsa := List.append_cancel_left (List.append_cancel_right he)
          exact hs s (by rw [ha, ← hsa])
        simp [LineChange.compareFrom, hne, hi]

variable {text : Text}

theorem mem_between_aliased (hc : (scan text).OneLine choose) {c : LineChange} :
    c ∈ LineChange.between text ((scan text).aliased choose).text ↔
      text.line c.line ≠ ((scan text).aliased choose).text.line c.line ∧
        c = LineChange.ofLine text ((scan text).aliased choose).text c.line := by
  rw [between_aliased hc]
  exact LineChange.mem_compareFrom_splitOn (told_splitOn hc).length_eq

theorem map_line_between_aliased (hc : (scan text).OneLine choose) (hs : ∀ s, choose s ≠ some s) :
    (LineChange.between text ((scan text).aliased choose).text).map LineChange.line =
      ((scan text).edits choose).map Edit.line := by
  rw [between_aliased hc, splitOn_text text, splitOn_text_aliased fun l => oneLine_aliased hc]
  exact map_line_compareFrom hs 1 (scan text).lines (scan text).body

end Header

variable {ε : Type}

/-- The report on a text with aliases in it has one line for each edit, in their order: the line of
the edit before and after it. These are all the lines in which the two texts differ. -/
theorem between_aliasHeader (resolve : Resolver ε) (threshold : Nat)
    (h : ∀ s a, resolve s = .ok (some a) → '\n' ∉ a) (text : Text) :
    LineChange.between text (aliasHeader resolve threshold text).text =
        (aliasHeader resolve threshold text).edits.map (fun e =>
          ⟨e.line, (text.line e.line).trim,
            ((aliasHeader resolve threshold text).text.line e.line).trim⟩) ∧
      ∀ n, text.line n ≠ (aliasHeader resolve threshold text).text.line n ↔
        ∃ e ∈ (aliasHeader resolve threshold text).edits, e.line = n := by
  have hone : (Header.scan text).OneLine (resolve.choose threshold) := by
    intro e he
    obtain ⟨p, -, hp⟩ := List.mem_filterMap.mp he
    obtain ⟨a, ha, rfl⟩ := Option.map_eq_some_iff.mp hp
    exact h p.2 a (Resolver.choose_eq_some.mp ha).2.1
  have hnumbers := Header.map_line_between_aliased hone resolve.choose_ne_some_self
  simp only [aliasHeader]
  generalize hout : ((Header.scan text).aliased (resolve.choose threshold)).text = out at hnumbers ⊢
  have hmem : ∀ c, c ∈ LineChange.between text out ↔ text.line c.line ≠ out.line c.line ∧
      c = LineChange.ofLine text out c.line := fun c => hout ▸ Header.mem_between_aliased hone
  constructor
  · calc LineChange.between text out
        = ((LineChange.between text out).map LineChange.line).map (LineChange.ofLine text out) := by
          rw [List.map_map]
          refine (List.map_id' _).symm.trans (List.map_congr_left fun c hc => ?_)
          exact ((hmem c).mp hc).2
      _ = _ := by
          rw [hnumbers, List.map_map]
          rfl
  · intro n
    have hn : n ∈ (LineChange.between text out).map LineChange.line ↔ text.line n ≠ out.line n := by
      rw [List.mem_map]
      constructor
      · rintro ⟨c, hc, rfl⟩
        exact ((hmem c).mp hc).1
      · intro hne
        exact ⟨LineChange.ofLine text out n, (hmem _).mpr ⟨hne, rfl⟩, rfl⟩
    rw [← hn, hnumbers, List.mem_map]

theorem between_aliasHeader_mixed :
    let resolve : Resolver Unit := fun _ => .ok (some "@/a".toList)
    let text := "import a from '../../a';\r\n\rimport b from '../b';\n import '../../c'\r".toList
    LineChange.between text (aliasHeader resolve 1 text).text =
        [⟨1, "import a from '../../a';".toList, "import a from '@/a';".toList⟩,
          ⟨3, "import '../../c'".toList, "import '@/a'".toList⟩] ∧
      Text.line text 2 = (aliasHeader resolve 1 text).text.line 2 := by
  intro resolve text
  have hr : ∀ s a, resolve s = .ok (some a) → '\n' ∉ a := by
    intro s a ha
    obtain rfl : "@/a".toList = a := Option.some.inj (Except.ok.inj ha)
    decide
  have ho : aliasHeader resolve 1 text =
      ⟨"import a from '@/a';\r\n\rimport b from '../b';\n import '@/a'\r".toList,
        [⟨1, "../../a".toList, "@/a".toList⟩, ⟨3, "../../c".toList, "@/a".toList⟩],
        ["../../a".toList, "../../c".toList]⟩ := by decide +kernel
  obtain ⟨hb, hn⟩ := between_aliasHeader resolve 1 hr text
  refine ⟨?_, ?_⟩
  · rw [hb, ho]
    decide +kernel
  · by_contra hne
    obtain ⟨e, he, hl⟩ := (hn 2).mp hne
    rw [ho] at he
    simp only [List.mem_cons, List.not_mem_nil, or_false] at he
    rcases he with rfl | rfl <;> simp at hl

end ImportAlias
