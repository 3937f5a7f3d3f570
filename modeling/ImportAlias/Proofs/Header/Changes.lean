import ImportAlias.Proofs.Edit
import ImportAlias.Proofs.Header.Scan
import ImportAlias.Proofs.Lines

/-! What follows from the edits of a header alone, whatever a resolver says about specifiers that
are not there: edits are seen line by line, and a second round changes nothing. -/
namespace ImportAlias

namespace Header

/-- The specifiers that a header asks aliases for. -/
def asked (h : Header) : List Specifier := h.lines.filterMap HeaderLine.specifier?

/-- No aliases but those that a header asks for. -/
def restrict (choose : Specifier → Option Text) (h : Header) (s : Specifier) : Option Text :=
  if s ∈ h.asked then choose s else none

variable {choose : Specifier → Option Text} {h : Header}

theorem mem_asked {before after : Text} {s : Specifier} (hl : .slot before s after ∈ h.lines) :
    s ∈ h.asked :=
  List.mem_filterMap.mpr ⟨.slot before s after, hl, rfl⟩

theorem aliased_restrict : h.aliased (h.restrict choose) = h.aliased choose := by
  have hl : h.lines.map (HeaderLine.aliased (h.restrict choose)) =
      h.lines.map (HeaderLine.aliased choose) := by
    refine List.map_congr_left fun l hl => ?_
    cases l with
    | plain t => rfl
    | slot before s after => simp [HeaderLine.aliased, restrict, mem_asked hl]
  simp [Header.aliased, hl]

theorem exists_mem_candidatesFrom {ls : List HeaderLine} {s : Specifier}
    (h : s ∈ ls.filterMap HeaderLine.specifier?) (n : Nat) : ∃ k, (k, s) ∈ candidatesFrom n ls := by
  induction ls generalizing n with
  | nil => simp at h
  | cons l ls ih =>
    cases l with
    | plain t => exact ih (by simpa [HeaderLine.specifier?] using h) (n + 1)
    | slot before r after =>
      have hs : s = r ∨ s ∈ ls.filterMap HeaderLine.specifier? := by
        simpa [HeaderLine.specifier?] using h
      rcases hs with rfl | hs
      · exact ⟨n, by simp [candidatesFrom]⟩
      · obtain ⟨k, hk⟩ := ih hs (n + 1)
        exact ⟨k, List.mem_cons_of_mem _ hk⟩

theorem exists_mem_edits {s : Specifier} {a : Text} (hs : s ∈ h.asked) (ha : choose s = some a) :
    ∃ e ∈ h.edits choose, e.replacement = a := by
  obtain ⟨k, hk⟩ := exists_mem_candidatesFrom hs 1
  refine ⟨⟨k, s, a⟩, ?_, rfl⟩
  exact List.mem_filterMap.mpr ⟨(k, s), hk, by simp [ha]⟩

/-- A slot ends with the quote after its specifier and what follows that. -/
theorem exists_after_of_mem {text before after : Text} {s : Specifier}
    (hl : .slot before s after ∈ (scan text).lines) : ∃ c tail, after = c :: tail := by
  obtain ⟨c, -, -, lead, tail, he⟩ := exists_encloses hl
  exact ⟨c, tail, (HeaderLine.slot.inj he).2.2⟩

/-- The aliases of the edits stay on their lines. -/
def OneLine (choose : Specifier → Option Text) (h : Header) : Prop :=
  ∀ e ∈ h.edits choose, '\n' ∉ e.replacement

theorem oneLine_aliased {text : Text} (hc : (scan text).OneLine choose) {l : HeaderLine}
    (hl : l ∈ (scan text).lines) : '\n' ∉ (l.aliased choose).text := by
  refine not_mem_text_aliased hl fun s a hs ha => ?_
  obtain ⟨e, he, rfl⟩ := exists_mem_edits (List.mem_filterMap.mpr ⟨l, hl, hs⟩) ha
  exact hc e he

/-- A slot with another specifier is seen as another line, whatever ends it. -/
theorem told_aliased {text : Text} {l : HeaderLine} (hl : l ∈ (scan text).lines) :
    LineChange.Told l.text (l.aliased choose).text := by
  cases l with
  | plain t => exact .inl rfl
  | slot before s after =>
    obtain ⟨c, tail, rfl⟩ := exists_after_of_mem hl
    by_cases hs : (choose s).getD s = s
    · exact .inl (by simp [HeaderLine.aliased, hs])
    · refine .inr ⟨by simp [HeaderLine.text], by simp [HeaderLine.aliased, HeaderLine.text], ?_⟩
      simp only [HeaderLine.aliased, HeaderLine.text]
      rw [Text.dropReturn_append _ (by simp), Text.dropReturn_append _ (by simp)]
      intro he
      exact hs (List.append_cancel_left (List.append_cancel_right he)).symm

/-- Aliases change lines visibly or not at all. -/
theorem told_splitOn {text : Text} (hc : (scan text).OneLine choose) :
    List.Forall₂ LineChange.Told (Text.splitOn '\n' text)
      (Text.splitOn '\n' ((scan text).aliased choose).text) := by
  rw [splitOn_text text, splitOn_text_aliased fun l => oneLine_aliased hc]
  refine List.rel_append ?_ (List.forall₂_same.mpr fun t _ => .inl rfl)
  rw [List.forall₂_map_left_iff, List.forall₂_map_right_iff]
  exact List.forall₂_same.mpr fun l hl => told_aliased hl

/-- What is reported of aliases is what they change between line feeds. -/
theorem between_aliased {text : Text} (hc : (scan text).OneLine choose) :
    LineChange.between text ((scan text).aliased choose).text =
      LineChange.compareFrom 1 (Text.splitOn '\n' text)
        (Text.splitOn '\n' ((scan text).aliased choose).text) := by
  unfold LineChange.between
  rw [Text.lines_eq, Text.lines_eq, LineChange.compareFrom_linesOf (told_splitOn hc)]

/-- Where aliasing changes a header text, a line of it is seen to change. -/
theorem between_aliased_ne_nil {text : Text} (hc : (scan text).OneLine choose)
    (hne : ((scan text).aliased choose).text ≠ text) :
    LineChange.between text ((scan text).aliased choose).text ≠ [] := by
  rw [between_aliased hc]
  refine LineChange.compareFrom_ne_nil (told_splitOn hc).length_eq (fun he => hne ?_) 1
  have hj := congrArg (Text.joinWith '\n') he
  rw [Text.joinWith_splitOn, Text.joinWith_splitOn] at hj
  exact hj.symm

end Header

variable {ε : Type} {resolve : Resolver ε} {threshold : Nat} {text : Text}

/-- A second round changes nothing if the aliases of the first fit between quotes and climb no
further than the threshold. -/
theorem aliasHeader_settled
    (h : ∀ e ∈ (aliasHeader resolve threshold text).edits, '"' ∉ e.replacement ∧
      '\x27' ∉ e.replacement ∧ '\n' ∉ e.replacement ∧
      Specifier.climbDepth e.replacement ≤ threshold) :
    (aliasHeader resolve threshold (aliasHeader resolve threshold text).text).text =
      (aliasHeader resolve threshold text).text := by
  -- Aliases that the header does not ask for are left out, so that all of them fit.
  have hfits : Header.Fits ((Header.scan text).restrict (resolve.choose threshold)) := by
    intro s a ha
    obtain ⟨hs, ha⟩ := Option.ite_none_right_eq_some.mp ha
    obtain ⟨e, he, rfl⟩ := Header.exists_mem_edits hs ha
    obtain ⟨hd, hq, hn, -⟩ := h e he
    exact ⟨hd, hq, hn⟩
  have hscan := Header.scan_text_aliased hfits text
  rw [Header.aliased_restrict] at hscan
  have hagain : ((Header.scan text).aliased (resolve.choose threshold)).aliased
      (resolve.choose threshold) = (Header.scan text).aliased (resolve.choose threshold) := by
    simp only [Header.aliased, List.map_map]
    congr 1
    refine List.map_congr_left fun l hl => ?_
    cases l with
    | plain t => rfl
    | slot before s after =>
      cases ha : resolve.choose threshold s with
      | none => simp [HeaderLine.aliased, ha]
      | some a =>
        obtain ⟨e, he, rfl⟩ := Header.exists_mem_edits (Header.mem_asked hl) ha
        have hshallow : resolve.choose threshold e.replacement = none :=
          Resolver.choose_eq_none_of_shallow (h e he).2.2.2
        simp [HeaderLine.aliased, ha, hshallow]
  simp only [aliasHeader, hscan, hagain]

end ImportAlias
