import ImportAlias.Proofs.Alias
import Mathlib.Data.List.DropRight

/-! Which target of which mapping answers for a file: the first that matches it. -/
namespace ImportAlias

namespace Alias

/-- The stem of a directory's index file. Slashes at the end of the directory do not count. -/
def IsIndexOf (dir stem : Text) : Prop :=
  ∃ d k, dir = d ++ List.replicate k '/' ∧ d.getLast? ≠ some '/' ∧ stem = d ++ "/index".toList

/-- What a target of a mapping answers for the file of the given name. -/
inductive Answers (name : Text) (m : Mapping) (s : Substitution) : Text → Prop where
  | captured {c stem : Text} (hw : m.wildcard = true) (hc : c ≠ [])
      (hname : name = s.before ++ c ++ s.after)
      (hstem : if s.after = [] then Bare c stem else stem = c) :
      Answers name m s (m.before ++ stem ++ m.after)
  | plain {stem target : Text} (hw : m.wildcard = false) (hstem : Bare name stem)
      (htarget : Bare s.before target) (h : stem = target ∨ IsIndexOf target stem) :
      Answers name m s m.pattern

/-- Does the target of a mapping match the file of the given name? -/
def Matches (name : Text) (pair : Mapping × Substitution) : Prop :=
  ∃ a, Answers name pair.1 pair.2 a

end Alias

namespace Manifest

/-- Every target with the mapping it belongs to, in the order of declaration. -/
def pairs (m : Manifest) : List (Mapping × Substitution) :=
  m.mappings.flatMap fun entry => entry.substitutions.map (entry, ·)

/-- The pair is the first that matches a file of the given name, and answers with the alias. -/
def Chooses (m : Manifest) (name : Text) (pair : Mapping × Substitution) (a : Text) : Prop :=
  ∃ earlier later, m.pairs = earlier ++ pair :: later ∧
    (∀ p ∈ earlier, ¬Alias.Matches name p) ∧ Alias.Answers name pair.1 pair.2 a

end Manifest

namespace Alias

theorem dropSlashes_append {d : Text} (hd : d.getLast? ≠ some '/') (k : Nat) :
    dropSlashes (d ++ List.replicate k '/') = d := by
  change (d ++ List.replicate k '/').rdropWhile (· == '/') = d
  induction k with
  | zero =>
    rw [List.replicate_zero, List.append_nil, List.rdropWhile_eq_self_iff]
    intro hne hl
    exact hd (by rw [List.getLast?_eq_some_getLast hne, beq_iff_eq.mp hl])
  | succ k ih =>
    rw [List.replicate_succ', ← List.append_assoc, List.rdropWhile_concat_pos _ _ _ (by rfl), ih]

theorem dropSlashes_cases (t : Text) :
    (dropSlashes t).getLast? ≠ some '/' ∧ ∃ k, t = dropSlashes t ++ List.replicate k '/' := by
  constructor
  · intro h
    have hne : dropSlashes t ≠ [] := by
      intro hn
      simp [hn] at h
    have hl : (dropSlashes t).getLast hne = '/' := by
      rwa [List.getLast?_eq_some_getLast hne, Option.some.injEq] at h
    exact List.rdropWhile_last_not (· == '/') t hne (beq_iff_eq.mpr hl)
  · have hs := List.eq_replicate_of_mem (a := '/') fun c hc =>
      beq_iff_eq.mp (List.mem_rtakeWhile_imp (p := (· == '/')) (l := t) hc)
    refine ⟨(t.rtakeWhile (· == '/')).length, ?_⟩
    rw [← hs]
    exact List.rdropWhile_append_rtakeWhile.symm

theorem isIndexOf_iff {dir stem : Text} :
    IsIndexOf dir stem ↔ Text.before? "/index".toList stem = some (dropSlashes dir) := by
  rw [Text.before?_eq_some]
  constructor
  · rintro ⟨d, k, rfl, hd, hs⟩
    rwa [dropSlashes_append hd]
  · intro h
    obtain ⟨hd, k, hdir⟩ := dropSlashes_cases dir
    exact ⟨_, k, hdir, hd, h⟩

/-- Prefix and suffix of a target leave a part in between that is not empty. -/
private theorem through?_wildcard {name a : Text} {m : Mapping} {s : Substitution}
    (hw : m.wildcard = true) :
    through? name m s = some a ↔ ∃ c, c ≠ [] ∧ name = s.before ++ c ++ s.after ∧
      a = m.before ++ (if s.after = [] then dropExtension c else c) ++ m.after := by
  rw [through?, if_pos hw]
  simp only [Option.bind_eq_bind, Option.bind_eq_some_iff, Text.after?_eq_some,
    Text.before?_eq_some]
  constructor
  · rintro ⟨rest, rfl, c, rfl, h⟩
    split_ifs at h with hc hs
    · exact ⟨c, hc, by simp, by simpa [hs] using h.symm⟩
    · exact ⟨c, hc, by simp, by simpa [hs] using h.symm⟩
  · rintro ⟨c, hc, rfl, rfl⟩
    refine ⟨c ++ s.after, by simp, c, rfl, ?_⟩
    rw [if_neg hc]
    split_ifs <;> rfl

theorem answers_iff {name a : Text} {m : Mapping} {s : Substitution} :
    Answers name m s a ↔ through? name m s = some a := by
  cases hw : m.wildcard with
  | true =>
    rw [through?_wildcard hw]
    constructor
    · rintro (⟨-, hc, hname, hstem⟩ | ⟨hw', -, -, -⟩)
      · refine ⟨_, hc, hname, ?_⟩
        split_ifs at hstem ⊢ with hs
        · rw [bare_iff.mp hstem]
        · rw [hstem]
      · simp [hw] at hw'
    · rintro ⟨c, hc, hname, rfl⟩
      refine .captured hw hc hname ?_
      split_ifs
      · exact bare_iff.mpr rfl
      · rfl
  | false =>
    have ht : through? name m s = some a ↔
        (dropExtension name = dropExtension s.before ∨
          IsIndexOf (dropExtension s.before) (dropExtension name)) ∧ m.pattern = a := by
      rw [through?, if_neg (by simp [hw]), isIndexOf_iff]
      dsimp only
      split_ifs with h
      · exact Option.some_inj.trans (and_iff_right h).symm
      · exact iff_of_false (by simp) fun ha => h ha.1
    rw [ht]
    constructor
    · rintro (⟨hw', -, -, -⟩ | ⟨-, hstem, htarget, h⟩)
      · simp [hw] at hw'
      · rw [bare_iff.mp hstem, bare_iff.mp htarget] at h
        exact ⟨h, rfl⟩
    · rintro ⟨h, rfl⟩
      exact .plain hw (bare_iff.mpr rfl) (bare_iff.mpr rfl) h

theorem not_matches_iff {name : Text} {pair : Mapping × Substitution} :
    ¬Matches name pair ↔ through? name pair.1 pair.2 = none := by
  rw [Option.eq_none_iff_forall_ne_some]
  simp [Matches, answers_iff]

/-- Searching the mappings, and the targets of each, is one search over all pairs. -/
theorem mapped?_eq (m : Manifest) (file : Path) :
    mapped? m file =
      m.pairs.findSome? fun pair => through? file.normalize.slashed pair.1 pair.2 := by
  unfold mapped? Manifest.pairs
  induction m.mappings with
  | nil => rfl
  | cons entry rest ih =>
    rw [List.flatMap_cons, List.findSome?_append, List.findSome?_map, ← ih, List.findSome?_cons]
    change _ = (entry.substitutions.findSome? (through? file.normalize.slashed entry)).or _
    cases entry.substitutions.findSome? (through? file.normalize.slashed entry) <;> rfl

theorem mapped?_eq_some_iff {m : Manifest} {file : Path} {a : Text} :
    mapped? m file = some a ↔ ∃ pair, m.Chooses file.normalize.slashed pair a := by
  rw [mapped?_eq, List.findSome?_eq_some_iff]
  simp only [Manifest.Chooses, answers_iff, not_matches_iff]
  constructor
  · rintro ⟨earlier, pair, later, hp, ha, he⟩
    exact ⟨pair, earlier, later, hp, he, ha⟩
  · rintro ⟨pair, earlier, later, hp, he, ha⟩
    exact ⟨earlier, pair, later, hp, ha, he⟩

/-- A file gets the answer of the first target that matches it, and none if there is no such
target. -/
theorem mapped?_first_match (m : Manifest) (file : Path) :
    (mapped? m file = none ↔ ∀ pair ∈ m.pairs, ¬Matches file.normalize.slashed pair) ∧
      ∀ a, mapped? m file = some a ↔ ∃ pair, m.Chooses file.normalize.slashed pair a := by
  refine ⟨?_, fun a => mapped?_eq_some_iff⟩
  rw [mapped?_eq, List.findSome?_eq_none_iff]
  simp only [not_matches_iff]

end Alias

end ImportAlias
