import ImportAlias.Json.Basic
import Mathlib.Tactic.SplitIfs

/-! Parts of a text that are given by positions. If all line breaks are among them, the characters
of a part stand on the lines that they stand on in the text. -/
namespace ImportAlias.Text

/-- The characters at the positions that `keep` holds for. -/
def select : (keep : Nat → Bool) → Text → Text
  | _, [] => []
  | keep, c :: t =>
    if keep 0 then c :: select (fun i => keep (i + 1)) t else select (fun i => keep (i + 1)) t

/-- The place that the character at a position takes among the selected ones. -/
def rank (keep : Nat → Bool) (t : Text) (i : Nat) : Nat := (select keep (t.take i)).length

/-- The line of a position, counted from one. -/
def lineOf (t : Text) (i : Nat) : Nat := 1 + (t.take i).count '\n'

/-- The characters that start within the first `n` bytes of a text. -/
def started : (n : Nat) → Text → Text
  | _, [] => []
  | 0, _ :: _ => []
  | n + 1, c :: t => c :: started (n + 1 - c.utf8Size) t

variable {keep : Nat → Bool} {t : Text} {c : Char}

theorem select_cons (keep : Nat → Bool) (c : Char) (t : Text) : select keep (c :: t) =
    if keep 0 then c :: select (fun i => keep (i + 1)) t else select (fun i => keep (i + 1)) t :=
  rfl

theorem select_kept (h : keep 0 = true) :
    select keep (c :: t) = c :: select (fun i => keep (i + 1)) t := if_pos h

theorem select_dropped (h : keep 0 = false) :
    select keep (c :: t) = select (fun i => keep (i + 1)) t := if_neg (by simp [h])

theorem select_sublist (keep : Nat → Bool) (t : Text) : (select keep t).Sublist t := by
  induction t generalizing keep with
  | nil => exact List.Sublist.slnil
  | cons c t ih =>
    rw [select_cons]
    split_ifs
    · exact (ih _).cons_cons c
    · exact (ih _).cons c

theorem select_append (keep : Nat → Bool) (s t : Text) : select keep (s ++ t) =
    select keep s ++ select (fun i => keep (s.length + i)) t := by
  induction s generalizing keep with
  | nil => simp [select]
  | cons c s ih =>
    have hshift : (fun i => keep ((c :: s).length + i)) = fun i => keep (s.length + i + 1) := by
      funext i
      rw [List.length_cons, Nat.add_right_comm]
    rw [List.cons_append, select_cons, select_cons, ih, hshift]
    split_ifs <;> rfl

/-- Where a position is selected, the selection goes on with its character. -/
theorem select_eq_append {i : Nat} (h : t[i]? = some c) (hk : keep i = true) :
    ∃ rest, select keep t = select keep (t.take i) ++ c :: rest := by
  obtain ⟨hi, rfl⟩ := List.getElem?_eq_some_iff.mp h
  have hsplit : t = t.take i ++ t[i] :: t.drop (i + 1) := by
    rw [← List.drop_eq_getElem_cons hi, List.take_append_drop]
  refine ⟨select (fun j => keep (i + (j + 1))) (t.drop (i + 1)), ?_⟩
  conv => lhs; rw [hsplit]
  rw [select_append, List.length_take_of_le (Nat.le_of_lt hi), select_cons]
  simp [hk]

/-- A character that is selected wherever it stands occurs as often. -/
theorem count_select (h : ∀ i, t[i]? = some c → keep i = true) :
    (select keep t).count c = t.count c := by
  induction t generalizing keep with
  | nil => rfl
  | cons d t ih =>
    have hi := ih fun i hc => h (i + 1) hc
    rw [select_cons]
    split_ifs with hk
    · simp [List.count_cons, hi]
    · have hd : d ≠ c := by
        rintro rfl
        exact hk (h 0 rfl)
      simp [hi, hd]

theorem eq_true_of_select_eq_self (h : select keep t = t) {i : Nat} (hi : i < t.length) :
    keep i = true := by
  induction t generalizing keep i with
  | nil => exact absurd hi (Nat.not_lt_zero i)
  | cons c t ih =>
    rw [select_cons] at h
    split_ifs at h with hk
    · cases i with
      | zero => exact hk
      | succ i => exact ih (List.cons.inj h).2 (Nat.lt_of_succ_lt_succ hi)
    · have hle := (select_sublist (fun i => keep (i + 1)) t).length_le
      rw [h, List.length_cons] at hle
      omega

/-- Every start of a selection is the selection from a start of the text. -/
theorem exists_take_of_prefix {front : Text} (h : front <+: select keep t) :
    ∃ i ≤ t.length, select keep (t.take i) = front := by
  induction t generalizing keep front with
  | nil => exact ⟨0, Nat.le_refl 0, (List.prefix_nil.mp h).symm⟩
  | cons c t ih =>
    rw [select_cons] at h
    split_ifs at h with hk
    · cases front with
      | nil => exact ⟨0, Nat.zero_le _, rfl⟩
      | cons d front =>
        obtain ⟨rfl, hfront⟩ := List.cons_prefix_cons.mp h
        obtain ⟨i, hi, hs⟩ := ih hfront
        exact ⟨i + 1, Nat.succ_le_succ hi, by simp [select_cons, hk, hs]⟩
    · obtain ⟨i, hi, hs⟩ := ih h
      exact ⟨i + 1, Nat.succ_le_succ hi, by simp [select_cons, hk, hs]⟩

/-! Lines -/

variable (hn : ∀ i, t[i]? = some '\n' → keep i = true)

include hn in
theorem count_select_take (i : Nat) :
    (select keep (t.take i)).count '\n' = (t.take i).count '\n' := by
  refine count_select fun j hj => hn j ?_
  rw [List.getElem?_take] at hj
  split_ifs at hj
  exact hj

include hn in
/-- Selected characters stay on their lines. -/
theorem lineOf_rank {i : Nat} (h : t[i]? = some c) (hk : keep i = true) :
    (select keep t)[rank keep t i]? = some c ∧
      lineOf (select keep t) (rank keep t i) = lineOf t i := by
  obtain ⟨rest, hs⟩ := select_eq_append h hk
  constructor
  · rw [hs, rank]
    simp
  · rw [lineOf, lineOf, hs, rank, List.take_left, count_select_take hn]

theorem started_starts (n : Nat) (t : Text) : started n t <+: t := by
  induction t generalizing n with
  | nil => cases n <;> exact List.prefix_rfl
  | cons c t ih =>
    cases n with
    | zero => exact List.nil_prefix
    | succ n => exact List.cons_prefix_cons.mpr ⟨rfl, ih _⟩

/-- The line that a position in bytes is told with. -/
theorem position_fst (line column n : Nat) (t : Text) :
    (Json.position line column n t).1 = line + (started n t).count '\n' := by
  induction t generalizing line column n with
  | nil => cases n <;> rfl
  | cons c t ih =>
    cases n with
    | zero => rfl
    | succ n =>
      rw [Json.position, if_neg (Nat.succ_ne_zero n), started]
      split_ifs with hc
      · have hsize : '\n'.utf8Size = 1 := by decide
        rw [ih, hc, hsize, List.count_cons_self]
        omega
      · rw [ih, List.count_cons_of_ne hc]

include hn in
/-- A byte offset in a selection is told with the line of the text that it comes from. -/
theorem exists_position_fst (n : Nat) : ∃ i ≤ t.length,
    select keep (t.take i) = started n (select keep t) ∧
      (Json.position 1 0 n (select keep t)).1 = lineOf t i := by
  obtain ⟨i, hi, hs⟩ := exists_take_of_prefix (started_starts n (select keep t))
  refine ⟨i, hi, hs, ?_⟩
  rw [position_fst, ← hs, count_select_take hn, lineOf]

end ImportAlias.Text
