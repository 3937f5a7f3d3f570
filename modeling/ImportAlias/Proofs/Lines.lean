import ImportAlias.Report
import ImportAlias.Proofs.Text
import Mathlib.Data.List.Forall2

/-! Which changes of a text are seen when it is compared line by line. The comparison passes over
carriage returns at line ends, and stops where one of the texts does. -/
namespace ImportAlias

namespace Text

def dropReturn (line : Text) : Text := (before? ['\r'] line).getD line

/-- The lines of a text that was cut into pieces at the line feeds. -/
def linesOf : List Text → List Text
  | [] => []
  | [last] => if last = [] then [] else [last]
  | line :: rest => dropReturn line :: linesOf rest

theorem linesOf_cons (line : Text) {rest : List Text} (h : rest ≠ []) :
    linesOf (line :: rest) = dropReturn line :: linesOf rest := by
  obtain ⟨next, rest, rfl⟩ := List.exists_cons_of_ne_nil h
  rfl

theorem lines_eq (t : Text) : t.lines = linesOf (splitOn '\n' t) := by
  have h : ∀ pieces : List Text, pieces ≠ [] → linesOf pieces =
      pieces.dropLast.map dropReturn ++
        if pieces.getLast?.getD [] = [] then [] else [pieces.getLast?.getD []] := by
    intro pieces hne
    induction pieces with
    | nil => exact absurd rfl hne
    | cons line rest ih =>
      cases rest with
      | nil => by_cases hl : line = [] <;> simp [linesOf, hl]
      | cons next rest =>
        rw [linesOf_cons line (by simp), ih (by simp)]
        simp
  exact (h _ (splitOn_ne_nil '\n' t)).symm

theorem lines_append {line : Text} (h : '\n' ∉ line) (rest : Text) :
    (line ++ '\n' :: rest).lines = dropReturn line :: rest.lines := by
  rw [lines_eq, lines_eq, splitOn_append, splitOn_of_not_mem h, List.singleton_append,
    linesOf_cons _ (splitOn_ne_nil '\n' rest)]

theorem lines_of_not_mem {line : Text} (h : '\n' ∉ line) (hne : line ≠ []) :
    line.lines = [line] := by
  rw [lines_eq, splitOn_of_not_mem h]
  simp [linesOf, hne]

theorem dropReturn_le (line : Text) : dropReturn line <+: line := by
  unfold dropReturn
  cases h : before? ['\r'] line with
  | none => exact List.prefix_rfl
  | some l => exact ⟨['\r'], (before?_eq_some.mp h).symm⟩

theorem dropReturn_append (s : Text) {t : Text} (h : t ≠ []) :
    dropReturn (s ++ t) = s ++ dropReturn t := by
  unfold dropReturn
  cases ht : before? ['\r'] t with
  | some l =>
    have hst : before? ['\r'] (s ++ t) = some (s ++ l) := by
      rw [before?_eq_some, before?_eq_some.mp ht, List.append_assoc]
    simp [hst]
  | none =>
    have hst : before? ['\r'] (s ++ t) = none := by
      rw [Option.eq_none_iff_forall_ne_some]
      intro l hl
      have hl := before?_eq_some.mp hl
      have hlast : t.getLast? = some '\r' := by
        have := congrArg List.getLast? hl
        simpa [List.getLast?_append, h, Option.or_eq_some_iff] using this
      obtain ⟨u, hu⟩ := List.getLast?_eq_some_iff.mp hlast
      rw [before?_eq_some.mpr hu] at ht
      simp at ht
    simp [hst]

/-- A carriage return at the end of a line is whitespace around it. -/
theorem trim_dropReturn (line : Text) : trim (dropReturn line) = trim line := by
  unfold dropReturn
  cases h : before? ['\r'] line with
  | none => rfl
  | some l =>
    obtain rfl := before?_eq_some.mp h
    have hr : isBlank '\r' = true := by decide
    have hend : ∀ t, trimEnd (t ++ ['\r']) = trimEnd t := by simp [trimEnd, hr]
    simp only [Option.getD_some, trim, trimStart, List.dropWhile_append]
    split_ifs with hl
    · simp [List.isEmpty_iff.mp hl, hr]
    · rw [hend]

/-- The first line of a text, of which it is a part. -/
theorem exists_lines_cons {t : Text} (h : t ≠ []) : ∃ l ls, t.lines = l :: ls ∧ l <+: t := by
  by_cases hn : '\n' ∈ t
  · obtain ⟨line, rest, rfl, hl⟩ := List.eq_append_cons_of_mem hn
    refine ⟨dropReturn line, lines rest, lines_append hl rest, ?_⟩
    exact (dropReturn_le line).trans (List.prefix_append line _)
  · exact ⟨t, [], lines_of_not_mem hn h, List.prefix_rfl⟩

/-- What has no line end, inside or at its end, is a part of the first line. -/
theorem exists_lines_cons_of_append {s : Text} (hs : '\n' ∉ s) (c : Char) (hc : c ≠ '\n' ∧ c ≠ '\r')
    (t : Text) : ∃ l ls, (s ++ c :: t).lines = l :: ls ∧ s ++ [c] <+: l := by
  by_cases hn : '\n' ∈ t
  · obtain ⟨line, rest, rfl, hl⟩ := List.eq_append_cons_of_mem hn
    have hline : '\n' ∉ s ++ c :: line := by
      simp [hs, hl, Ne.symm hc.1]
    have hlines := lines_append hline rest
    refine ⟨dropReturn (s ++ c :: line), lines rest, by simpa using hlines, ?_⟩
    cases line with
    | nil =>
      have hr : dropReturn [c] = [c] := by
        unfold dropReturn
        cases hb : before? ['\r'] [c] with
        | none => rfl
        | some l =>
          have hl := before?_eq_some.mp hb
          have hlast := congrArg List.getLast? hl
          simp at hlast
          exact absurd hlast hc.2
      have hline : dropReturn (s ++ [c]) = s ++ [c] := by rw [dropReturn_append s (by simp), hr]
      exact ⟨[], by rw [hline, List.append_nil]⟩
    | cons d line =>
      have hr := dropReturn_append (s ++ [c]) (t := d :: line) (by simp)
      rw [show s ++ c :: d :: line = (s ++ [c]) ++ d :: line by simp, hr]
      exact List.prefix_append _ _
  · have hall : '\n' ∉ s ++ c :: t := by
      simp [hs, hn, Ne.symm hc.1]
    refine ⟨s ++ c :: t, [], lines_of_not_mem hall (by simp), ?_⟩
    exact ⟨t, by simp⟩

end Text

namespace LineChange

open Text (dropReturn linesOf linesOf_cons)

@[simp] theorem compareFrom_self (n : Nat) (ls : List Text) : compareFrom n ls ls = [] := by
  induction ls generalizing n with
  | nil => rfl
  | cons l ls ih => simp [compareFrom, ih]

@[simp] theorem between_self (t : Text) : between t t = [] := compareFrom_self 1 t.lines

theorem compareFrom_ne_nil_of_head {b a : Text} (h : b ≠ a) (n : Nat) (bs as : List Text) :
    compareFrom n (b :: bs) (a :: as) ≠ [] := by
  simp [compareFrom, h]

/-- A change that starts inside a line is seen if the new text up to its last character `c` is not
what stood there before. -/
theorem between_ne_nil (P : Text) {s u : Text} {c : Char} (hs : '\n' ∉ s)
    (hc : c ≠ '\n' ∧ c ≠ '\r') (hu : u ≠ []) (h : ¬ s ++ [c] <+: u) (R : Text) :
    between (P ++ u) (P ++ (s ++ c :: R)) ≠ [] := by
  suffices hn : ∀ n, compareFrom n (P ++ u).lines (P ++ (s ++ c :: R)).lines ≠ [] from hn 1
  induction hk : P.length using Nat.strongRecOn generalizing P with
  | ind k ih =>
    intro n
    by_cases hP : '\n' ∈ P
    · obtain ⟨line, rest, rfl, hl⟩ := List.eq_append_cons_of_mem hP
      have hlt : rest.length < k := by
        rw [← hk]
        simp only [List.length_append, List.length_cons]
        omega
      have hi := ih rest.length hlt rest rfl (n + 1)
      simp only [List.append_assoc, List.cons_append]
      rw [Text.lines_append hl, Text.lines_append hl]
      simpa [compareFrom] using hi
    · obtain ⟨b, bs, hb, hbt⟩ := Text.exists_lines_cons (t := P ++ u) (by simp [hu])
      have hPs : '\n' ∉ P ++ s := by simp [hP, hs]
      obtain ⟨a, as, ha, hat⟩ := Text.exists_lines_cons_of_append hPs c hc R
      rw [List.append_assoc] at ha hat
      rw [hb, ha]
      refine compareFrom_ne_nil_of_head ?_ n bs as
      rintro rfl
      have hp : P ++ (s ++ [c]) <+: P ++ u := by simpa using hat.trans hbt
      exact h ((List.prefix_append_right_inj P).mp hp)

/-- Two lines are the same or differ visibly. -/
def Told (b a : Text) : Prop := b = a ∨ (b ≠ [] ∧ a ≠ [] ∧ dropReturn b ≠ dropReturn a)

/-- If all differences are visible, lines are compared as the pieces between line feeds are. -/
theorem compareFrom_linesOf {bs as : List Text} (h : List.Forall₂ Told bs as) (n : Nat) :
    compareFrom n (linesOf bs) (linesOf as) = compareFrom n bs as := by
  induction h generalizing n with
  | nil => rfl
  | @cons b a bs as hba hrest ih =>
    rcases hba with rfl | ⟨hb, ha, hd⟩
    · cases hrest with
      | nil => simp
      | cons hba' hrest' =>
        have hi := ih (n + 1)
        rw [linesOf_cons b (by simp), linesOf_cons b (by simp)]
        simpa [compareFrom] using hi
    · have hne : b ≠ a := fun he => hd (by rw [he])
      cases hrest with
      | nil => simp [linesOf, hb, ha]
      | cons hba' hrest' =>
        have hi := ih (n + 1)
        rw [linesOf_cons b (by simp), linesOf_cons a (by simp)]
        simp [compareFrom, hd, hne, hi, Text.trim_dropReturn]

/-- What is reported is a line, by its number, where both lists differ. -/
theorem mem_compareFrom {bs as : List Text} (h : bs.length = as.length) {n : Nat} {c : LineChange} :
    c ∈ compareFrom n bs as ↔ ∃ i, bs.getD i [] ≠ as.getD i [] ∧
      c = ⟨n + i, (bs.getD i []).trim, (as.getD i []).trim⟩ := by
  induction bs generalizing as n with
  | nil =>
    obtain rfl : as = [] := List.length_eq_zero_iff.mp h.symm
    simp [compareFrom]
  | cons b bs ih =>
    obtain ⟨a, as, rfl⟩ := List.exists_cons_of_length_eq_add_one h.symm
    have hi := ih (Nat.succ.inj h) (n := n + 1)
    have hc : c ∈ compareFrom n (b :: bs) (a :: as) ↔
        (b ≠ a ∧ c = ⟨n, b.trim, a.trim⟩) ∨ c ∈ compareFrom (n + 1) bs as := by
      by_cases hba : b = a <;> simp [compareFrom, hba]
    rw [hc, hi]
    constructor
    · rintro (⟨hba, rfl⟩ | ⟨i, hne, rfl⟩)
      · exact ⟨0, hba, rfl⟩
      · exact ⟨i + 1, hne, by simp [Nat.add_assoc, Nat.add_comm 1]⟩
    · rintro ⟨i, hne, rfl⟩
      cases i with
      | zero => exact .inl ⟨hne, rfl⟩
      | succ i => exact .inr ⟨i, hne, by simp [Nat.add_assoc, Nat.add_comm 1]⟩

theorem compareFrom_ne_nil {bs as : List Text} (h : bs.length = as.length) (hne : bs ≠ as)
    (n : Nat) : compareFrom n bs as ≠ [] := by
  intro hnil
  refine hne (List.ext_getElem h fun i hb ha => ?_)
  by_contra hi
  have hmem := (mem_compareFrom h (n := n)).mpr ⟨i, by simpa [hb, ha] using hi, rfl⟩
  rw [hnil] at hmem
  exact List.not_mem_nil hmem

end LineChange

end ImportAlias
