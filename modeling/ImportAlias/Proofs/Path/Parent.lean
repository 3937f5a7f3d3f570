import ImportAlias.Proofs.Path.Normal
import Mathlib.Tactic.SplitIfs
import Mathlib.Tactic.Tauto

/-! The parent of a path has its components without the last one. -/
namespace ImportAlias.Path
open Text (splitOn joinWith)

private theorem filterMap_dropWhile (ss : List Text) :
    (ss.dropWhile isTrivial).filterMap Component.ofSegment? =
      ss.filterMap Component.ofSegment? := by
  induction ss with
  | nil => rfl
  | cons s ss ih =>
    by_cases hs : isTrivial s
    · have hn : Component.ofSegment? s = none := if_pos (by simpa [isTrivial] using hs)
      rw [List.dropWhile_cons_of_pos hs, ih, List.filterMap_cons_none hn]
    · rw [List.dropWhile_cons_of_neg hs]

private theorem segments_eq_nil {ss : List Text} (h : ss.reverse.dropWhile isTrivial = []) :
    ss.filterMap Component.ofSegment? = [] := by
  have hr := filterMap_dropWhile ss.reverse
  rw [h, List.filterMap_reverse] at hr
  exact List.reverse_eq_nil_iff.mp hr.symm

/-- The last segment that names something goes, with the trivial ones around it. -/
private theorem segments_parent {ss more : List Text} {s : Text}
    (h : ss.reverse.dropWhile isTrivial = s :: more) :
    ∃ c, ss.filterMap Component.ofSegment? =
      (more.dropWhile isTrivial).reverse.filterMap Component.ofSegment? ++ [c] := by
  have hs : isTrivial s = false := by
    have := List.head?_dropWhile_not isTrivial ss.reverse
    simpa [h] using this
  obtain ⟨c, hc⟩ : ∃ c, Component.ofSegment? s = some c := by
    unfold Component.ofSegment?
    simp only [isTrivial, Bool.or_eq_false_iff, beq_eq_false_iff_ne] at hs
    rw [if_neg (by tauto)]
    split_ifs <;> exact ⟨_, rfl⟩
  have hr := filterMap_dropWhile ss.reverse
  rw [h, List.filterMap_cons_some hc, List.filterMap_reverse] at hr
  refine ⟨c, ?_⟩
  rw [List.filterMap_reverse, filterMap_dropWhile, ← List.reverse_reverse (ss.filterMap _), ← hr,
    List.reverse_cons]

private theorem prefix_parent {ss more : List Text} {s : Text}
    (h : ss.reverse.dropWhile isTrivial = s :: more) :
    (more.dropWhile isTrivial).reverse <+: ss := by
  have hm : more <:+ ss.reverse := by
    have := List.dropWhile_suffix isTrivial (l := ss.reverse)
    rw [h] at this
    exact (List.suffix_cons s more).trans this
  have hd := (List.dropWhile_suffix isTrivial (l := more)).trans hm
  rwa [← List.reverse_prefix, List.reverse_reverse] at hd

private theorem head?_joinWith {ss : List Text} {t : Text} (hs : ss <+: splitOn '/' t)
    (ht : t.head? ≠ some '/') : (joinWith '/' ss).head? ≠ some '/' := by
  cases ss with
  | nil => simp [joinWith]
  | cons s ss =>
    cases t with
    | nil =>
      obtain ⟨rfl, rfl⟩ : s = [] ∧ ss = [] := by simpa [splitOn] using hs
      simp [joinWith]
    | cons c t =>
      have hc : c ≠ '/' := by simpa using ht
      obtain ⟨u, us, hu⟩ := List.exists_cons_of_ne_nil (Text.splitOn_ne_nil '/' t)
      rw [splitOn, if_neg hc, hu, Text.consFirst, List.cons_prefix_cons] at hs
      rw [hs.1, Text.joinWith_cons, List.cons_append]
      simpa using hc

private theorem segments_joinWith {ss : List Text} {t : Text} (h : ss <+: splitOn '/' t) :
    (splitOn '/' (joinWith '/' ss)).filterMap Component.ofSegment? =
      ss.filterMap Component.ofSegment? := by
  cases ss with
  | nil => decide
  | cons s ss =>
    rw [Text.splitOn_joinWith (by simp) fun u hu => Text.not_mem_of_mem_splitOn (h.subset hu)]

private theorem steps_root (t : Text) :
    (Path.mk ('/' :: t)).steps = .root :: (splitOn '/' t).filterMap Component.ofSegment? := by
  simp [steps, isAbsolute, splitOn, Component.ofSegment?]

private theorem steps_relative {t : Text} (h : t.head? ≠ some '/') :
    (Path.mk t).steps = (splitOn '/' t).filterMap Component.ofSegment? := by
  have hr : (Path.mk t).isAbsolute = false := by simpa [isAbsolute] using h
  simp [steps, hr]

/-- Climbing to the parent takes the last component away. -/
theorem steps_of_parent? {p d : Path} (h : p.parent? = some d) : d.steps = p.steps.dropLast := by
  obtain ⟨t⟩ := p
  unfold parent? at h
  split at h
  · rename_i rest ht
    obtain rfl : t = '/' :: rest := ht
    split at h
    · cases h
    · rename_i s more hd
      cases h
      obtain ⟨c, hc⟩ := segments_parent hd
      rw [steps_root, steps_root, segments_joinWith (prefix_parent hd), hc, ← List.cons_append,
        List.dropLast_concat]
  · rename_i hne
    have hh : t.head? ≠ some '/' := by
      intro hh
      obtain ⟨rest, ht⟩ := List.head?_eq_some_iff.mp hh
      exact hne rest ht
    rw [steps_relative hh]
    dsimp only at h
    split at h
    · rename_i rest hs
      rw [hs, List.filterMap_cons_none (by rfl)]
      split at h
      · rename_i hd
        cases h
        rw [segments_eq_nil hd]
        rfl
      · rename_i s more hd
        cases h
        obtain ⟨c, hc⟩ := segments_parent hd
        have hp : ['.'] :: (more.dropWhile isTrivial).reverse <+: splitOn '/' t := by
          rw [hs]
          exact List.cons_prefix_cons.mpr ⟨rfl, prefix_parent hd⟩
        rw [steps_relative (head?_joinWith hp hh), segments_joinWith hp,
          List.filterMap_cons_none (by rfl), hc, List.dropLast_concat]
    · split at h
      · cases h
      · rename_i s more hd
        cases h
        obtain ⟨c, hc⟩ := segments_parent hd
        have hp := prefix_parent hd
        rw [steps_relative (head?_joinWith hp hh), segments_joinWith hp, hc, List.dropLast_concat]

theorem steps_of_parent?_eq_none {p : Path} (h : p.parent? = none) :
    p.steps = [] ∨ p.steps = [.root] := by
  obtain ⟨t⟩ := p
  unfold parent? at h
  split at h
  · rename_i rest ht
    obtain rfl : t = '/' :: rest := ht
    split at h
    · rename_i hd
      rw [steps_root, segments_eq_nil hd]
      exact .inr rfl
    · cases h
  · rename_i hne
    have hh : t.head? ≠ some '/' := by
      intro hh
      obtain ⟨rest, ht⟩ := List.head?_eq_some_iff.mp hh
      exact hne rest ht
    dsimp only at h
    split at h
    · split at h <;> cases h
    · split at h
      · rename_i hd
        rw [steps_relative hh, segments_eq_nil hd]
        exact .inl rfl
      · cases h

theorem isAbsolute_directory {p : Path} (h : p.isAbsolute = true) (hp : p.parent? ≠ none) :
    p.directory.isAbsolute = true := by
  obtain ⟨t⟩ := p
  obtain ⟨rest, rfl⟩ : ∃ rest, t = '/' :: rest := by
    cases t with
    | nil => simp [isAbsolute] at h
    | cons c rest => exact ⟨rest, by simpa [isAbsolute] using h⟩
  cases hd : (splitOn '/' rest).reverse.dropWhile isTrivial with
  | nil => exact absurd (by simp [parent?, hd]) hp
  | cons s more => simp [directory, parent?, hd, isAbsolute]

/-- The directory of a named entry is what its name was joined to. -/
theorem steps_directory_join (p : Path) {n : Text} (h : IsName n) :
    (p.join ⟨n⟩).directory.steps = p.steps := by
  have hs : (p.join ⟨n⟩).steps = p.steps ++ [.normal n] := by
    rw [steps_join h.relative]
    exact congrArg _ (Stands.normal h).steps
  cases hd : (p.join ⟨n⟩).parent? with
  | some d => rw [directory, hd, Option.getD_some, steps_of_parent? hd, hs, List.dropLast_concat]
  | none =>
    rcases steps_of_parent?_eq_none hd with hn | hn
    · simp [hs] at hn
    · simp [hs, List.append_eq_singleton_iff] at hn

end ImportAlias.Path
