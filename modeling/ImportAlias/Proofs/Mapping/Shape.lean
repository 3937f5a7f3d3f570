import ImportAlias.Proofs.Mapping.Matching
import Mathlib.Tactic.SplitIfs

/-! When keeping the shape of a specifier keeps its alias an instance of the mapping it comes
from. -/
namespace ImportAlias

/-- The alias is an instance of the pattern: something stands for the wildcard, or the alias is the
pattern itself. -/
def Mapping.Covers (m : Mapping) (a : Text) : Prop :=
  if m.wildcard then ∃ c, c ≠ [] ∧ a = m.before ++ c ++ m.after else a = m.pattern

namespace Alias

/-- An index file may lose its name only where the rest of the alias still fills the pattern. -/
def IndexFits (m : Mapping) (a : Text) : Prop :=
  "/index".toList <:+ a →
    m.wildcard = true ∧ ∃ c, c ≠ [] ∧ a = m.before ++ c ++ m.after ++ "/index".toList

/-- An extension may be added only behind a wildcard, and only if the pattern ends with nothing but
an end of it. -/
def ExtensionFits (m : Mapping) (ext a : Text) : Prop :=
  '.' :: ext <:+ a ∨ m.wildcard = true ∧ m.after <:+ '.' :: ext

/-- Does the alias stay an instance of the pattern when it takes the shape of the specifier? -/
def ShapeFits (s : Specifier) (target : Target) (m : Mapping) (a : Text) : Prop :=
  if target.viaIndex then IndexFits m a
  else ∀ ext, spelledExtension? s = some ext → ExtensionFits m ext a

theorem Answers.covers {name a : Text} {m : Mapping} {s : Substitution}
    (h : Answers name m s a) : m.Covers a := by
  cases h with
  | @captured c stem hw hc hname hstem =>
    have hne : stem ≠ [] := by
      split_ifs at hstem
      · rw [bare_iff.mp hstem]
        exact dropExtension_ne_nil hc
      · rwa [hstem]
    rw [Mapping.Covers, if_pos hw]
    exact ⟨stem, hne, rfl⟩
  | plain hw => rw [Mapping.Covers, if_neg (by simp [hw])]

section
variable {m : Mapping} {a : Text}

private theorem covers_dropIndex_iff (h : m.Covers a) :
    m.Covers ((Text.before? "/index".toList a).getD a) ↔ IndexFits m a := by
  cases hd : Text.before? "/index".toList a with
  | none =>
    have hn : ¬ "/index".toList <:+ a := by
      rintro ⟨d, rfl⟩
      simp [Text.before?_eq_some.mpr rfl] at hd
    exact iff_of_true h fun hs => absurd hs hn
  | some d =>
    obtain rfl := Text.before?_eq_some.mp hd
    simp only [Option.getD_some, IndexFits, List.suffix_append, forall_const]
    unfold Mapping.Covers at h ⊢
    split_ifs at h ⊢ with hw
    · simp only [hw, true_and, List.append_left_inj]
    · refine iff_of_false (fun hp => ?_) fun hp => hw hp.1
      rw [← hp] at h
      simp at h

/-- What an extension is added to can only be an instance again if the wildcard takes it in. -/
private theorem covers_append_iff (h : m.Covers a) {ext : Text} (hext : ¬ '.' :: ext <:+ a) :
    m.Covers (a ++ '.' :: ext) ↔ m.wildcard = true ∧ m.after <:+ '.' :: ext := by
  unfold Mapping.Covers at h ⊢
  split_ifs at h ⊢ with hw
  · obtain ⟨c, hc, rfl⟩ := h
    simp only [hw, true_and]
    constructor
    · rintro ⟨c', -, he⟩
      have hs : m.after <:+ (m.before ++ c ++ m.after) ++ '.' :: ext := by
        rw [he]
        exact List.suffix_append _ _
      rcases List.suffix_or_suffix_of_suffix hs (List.suffix_append _ _) with hs | hs
      · exact hs
      · exact absurd (hs.trans (List.suffix_append _ _)) hext
    · rintro ⟨u, hu⟩
      refine ⟨c ++ m.after ++ u, by simp [hc], ?_⟩
      rw [← hu]
      simp only [List.append_assoc]
  · refine iff_of_false (fun hp => ?_) fun hp => hw hp.1
    rw [h] at hp
    simp at hp

theorem covers_keepShape_iff (h : m.Covers a) (s : Specifier) (target : Target) :
    m.Covers (keepShape s target a) ↔ ShapeFits s target m a := by
  unfold keepShape ShapeFits
  split_ifs with hv
  · exact covers_dropIndex_iff h
  · cases hs : spelledExtension? s with
    | none => simpa using h
    | some ext =>
      simp only [Option.some.injEq, forall_eq', ExtensionFits, Text.endsWith_iff]
      split_ifs with he
      · exact iff_of_true h (.inl he)
      · rw [covers_append_iff h he, or_iff_right he]

end

end Alias

/-- The alias of a specifier whose target is mapped is an instance of the pattern of that mapping
exactly when the shape of the specifier fits it. -/
theorem aliasOf_covers_iff (project : Project) (tree : FileTree) (aliasPrefix : Text) (file : Path)
    (s : Specifier) (manifest : Manifest) (pair : Mapping × Substitution) (a : Text)
    (hm : project.manifest = some manifest)
    (h : manifest.Chooses (Target.resolve tree s file).path.normalize.slashed pair a) :
    ∃ r, project.aliasOf tree aliasPrefix file s = .ok r ∧
      (pair.1.Covers r ↔ Alias.ShapeFits s (Target.resolve tree s file) pair.1 a) := by
  have ha : Alias.ofFile? aliasPrefix project.root project.manifest
      (Target.resolve tree s file).path = some a := by
    rw [Alias.ofFile?, hm, Option.bind_some, Alias.mapped?_eq_some_iff.mpr ⟨pair, h⟩,
      Option.some_or]
  obtain ⟨-, -, -, -, hanswer⟩ := h
  exact ⟨_, by simp only [Project.aliasOf, ha], Alias.covers_keepShape_iff hanswer.covers s _⟩

namespace Mapping

def sample : Mapping :=
  ⟨"@/*".toList, "@/".toList, [], true, [⟨"/p/src/".toList, []⟩]⟩

def sampleProject : Project := ⟨.of "/p", some ⟨.of "/p", none, [sample]⟩, false⟩

def sampleTree : FileTree :=
  (FileTree.empty.makeFile (.of "/p/src/index.ts") (.text [])).makeFile (.of "/p/src/lib/io.ts")
    (.text [])

theorem aliasOf_covers_lib :
    ∃ r, sampleProject.aliasOf sampleTree "@/".toList (.of "/p/a/b/c.ts")
        "../../src/lib/io.ts".toList = .ok r ∧ sample.Covers r := by
  have h : Manifest.Chooses ⟨.of "/p", none, [sample]⟩ (Target.resolve sampleTree
      "../../src/lib/io.ts".toList (.of "/p/a/b/c.ts")).path.normalize.slashed
      (sample, ⟨"/p/src/".toList, []⟩) "@/lib/io".toList :=
    ⟨[], [], rfl, by simp, Alias.answers_iff.mpr (by decide +kernel)⟩
  obtain ⟨r, hr, hc⟩ := aliasOf_covers_iff sampleProject sampleTree "@/".toList (.of "/p/a/b/c.ts")
    "../../src/lib/io.ts".toList _ _ _ rfl h
  refine ⟨r, hr, hc.mpr ?_⟩
  have hv : (Target.resolve sampleTree "../../src/lib/io.ts".toList
      (.of "/p/a/b/c.ts")).viaIndex = false := by
    decide +kernel
  rw [Alias.ShapeFits, hv]
  exact fun ext _ => .inr ⟨rfl, List.nil_suffix⟩

/-- The directory import of the source directory itself loses the slash of the pattern. -/
theorem aliasOf_source_index :
    Manifest.Chooses ⟨.of "/p", none, [sample]⟩ (Target.resolve sampleTree
        "../../src".toList (.of "/p/a/b/c.ts")).path.normalize.slashed
        (sample, ⟨"/p/src/".toList, []⟩) "@/index".toList ∧
      ¬∃ r, sampleProject.aliasOf sampleTree "@/".toList (.of "/p/a/b/c.ts")
        "../../src".toList = .ok r ∧ sample.Covers r := by
  refine ⟨⟨[], [], rfl, by simp, Alias.answers_iff.mpr (by decide +kernel)⟩, ?_⟩
  rintro ⟨r, hr, hc⟩
  have ha : sampleProject.aliasOf sampleTree "@/".toList (.of "/p/a/b/c.ts") "../../src".toList =
      .ok "@".toList := by
    decide +kernel
  rw [ha] at hr
  cases hr
  obtain ⟨c, -, hc⟩ := hc
  exact absurd (congrArg List.length hc) (by simp [sample])

end Mapping

end ImportAlias
