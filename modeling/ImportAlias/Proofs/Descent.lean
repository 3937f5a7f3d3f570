import ImportAlias.Proofs.Alias
import ImportAlias.Proofs.Path.Ancestor

/-! Aliases of files that no mapping matches: the way down from the longest common ancestor with the
base directory. -/
namespace ImportAlias
open Text (splitOn joinWith)
open ImportAlias.Path (IsName)

namespace Alias

theorem isAbsolute_base {root : Path} {manifest : Option Manifest}
    (hroot : root.isAbsolute = true)
    (hurl : ∀ m ∈ manifest, ∀ u ∈ m.baseUrl, u.isAbsolute = true) :
    (base root manifest).isAbsolute = true := by
  unfold base
  cases hu : manifest.bind Manifest.baseUrl with
  | none => exact Path.isAbsolute_normalize hroot
  | some u =>
    obtain ⟨m, hm, hmu⟩ := Option.bind_eq_some_iff.mp hu
    exact hurl m hm u hmu

/-- An extension that is dropped can leave `..` behind, but only of a single name. -/
theorem climbs_iff {names : List Text} (hne : names ≠ []) (h : ∀ n ∈ names, IsName n) :
    (splitOn '/' (dropExtension (joinWith '/' names))).head? = some ['.', '.'] ↔
      ∃ ext ∈ sourceExtensions, joinWith '/' names = ['.', '.'] ++ '.' :: ext := by
  constructor
  · intro hc
    rcases dropExtension_names hne with hd | ⟨ns, n, ext, hext, hn, rfl⟩
    · rw [hd, Text.splitOn_joinWith hne fun m hm => (h m hm).no_slash] at hc
      exact absurd rfl (h _ (List.mem_of_mem_head? hc)).ne_parent
    · obtain ⟨hns, hlast⟩ := List.forall_mem_append.mp h
      have hslash : '/' ∉ n := fun hm =>
        (hlast _ (List.mem_singleton_self _)).no_slash (List.mem_append_left _ hm)
      rw [dropExtension_joinWith ns hext hn hslash, Text.splitOn_joinWith (by simp)
        (List.forall_mem_append.mpr ⟨fun m hm => (hns m hm).no_slash,
          List.forall_mem_singleton.mpr hslash⟩)] at hc
      rcases ns with _ | ⟨m, ns⟩
      · obtain rfl : n = ['.', '.'] := by simpa using hc
        exact ⟨ext, hext, rfl⟩
      · obtain rfl : m = ['.', '.'] := by simpa using hc
        exact absurd rfl (hns _ (by simp)).ne_parent
  · rintro ⟨ext, hext, hj⟩
    rw [hj, dropExtension_append hext (by decide) (by decide)]
    decide

/-- The file is the ancestor, the alias below it and the extension that was dropped. -/
theorem text_ancestor {a file : Path} {names : List Text} (ha : a.normalize = a)
    (hne : names ≠ []) (h : ∀ n ∈ names, IsName n)
    (hin : file.normalComponents = a.normalComponents ++ names.map .normal) :
    ∃ rest, (rest = [] ∨ ∃ ext ∈ sourceExtensions, rest = '.' :: ext) ∧
      joinWith '/' names = dropExtension (joinWith '/' names) ++ rest ∧
      file.normalize.text = (a.join ⟨dropExtension (joinWith '/' names)⟩).text ++ rest := by
  have hfile : file.normalize = a.join ⟨joinWith '/' names⟩ := by
    rw [← Path.normalize_join_names ha hne h, Path.normalize_eq_iff, hin,
      Path.normalComponents_join_names a h]
  rw [hfile]
  rcases dropExtension_cases (joinWith '/' names) with hd | ⟨ext, hext, hj, hs, -⟩
  · exact ⟨[], .inl rfl, by simp [hd], by simp [hd]⟩
  · refine ⟨'.' :: ext, .inr ⟨ext, hext, rfl⟩, hj, ?_⟩
    have hr : (Path.mk (dropExtension (joinWith '/' names))).isAbsolute = false := by
      have hr := (Path.relative_joinWith hne fun n hn => (h n hn).segment).2
      rw [hj] at hr
      obtain ⟨c, t, ht⟩ := List.exists_cons_of_ne_nil hs
      rw [ht] at hr ⊢
      exact hr
    rw [← Path.join_append_of_relative a hs hr, ← hj]

/-- The alias of a file that no mapping matches is what remains of it below the longest common
ancestor with the base, without the extension; there is none if nothing remains. What remains
starts with `..` only where that is all the extension leaves of a single name. -/
theorem ofFile?_remainder (aliasPrefix : Text) (root file : Path) (manifest : Option Manifest)
    (hroot : root.isAbsolute = true) (hfile : file.isAbsolute = true)
    (hurl : ∀ m ∈ manifest, ∀ u ∈ m.baseUrl, u.isAbsolute = true)
    (hm : ∀ m ∈ manifest, mapped? m file = none)
    (hb : ∀ n, .normal n ∈ file.normalComponents → '\\' ∉ n) :
    ∃ (a : Path) (names : List Text), a.IsMeet file (base root manifest) ∧
      file.normalComponents = a.normalComponents ++ names.map .normal ∧
      (names = [] ↔ file.normalComponents <+: (base root manifest).normalComponents) ∧
      (ofFile? aliasPrefix root manifest file = none ↔ names = []) ∧
      (names ≠ [] → ∃ q, Bare (joinWith '/' names) q ∧
        ofFile? aliasPrefix root manifest file = some (aliasPrefix ++ q) ∧
        ((splitOn '/' q).head? = some ['.', '.'] ↔
          ∃ ext ∈ sourceExtensions, joinWith '/' names = ['.', '.'] ++ '.' :: ext) ∧
        ∃ rest, joinWith '/' names = q ++ rest ∧
          file.normalize.text = (a.join ⟨q⟩).text ++ rest) := by
  obtain ⟨a, names, up, hmeet, hin, hup, hrel⟩ :=
    Path.relativeTo_spec hfile (isAbsolute_base hroot hurl)
  have hnames := Path.names_of_below hin
  have hslash : ∀ n ∈ names, '\\' ∉ n := fun n hn => hb n (by simp [hin, hn])
  have hmap : manifest.bind (mapped? · file) = none := by
    rw [Option.bind_eq_none_iff]
    exact hm
  have ha : ofFile? aliasPrefix root manifest file = if names = [] then none
      else some (aliasPrefix ++ dropExtension (joinWith '/' names)) := by
    rw [ofFile?, hmap, Option.none_or, fallback?_eq hnames hslash hrel]
  refine ⟨a, names, hmeet, hin, ?_, by simp [ha], fun hne => ?_⟩
  · constructor
    · rintro rfl
      rw [hin, hup]
      simp
    · intro hp
      have hle := (hmeet.deepest _ List.prefix_rfl hp).length_le
      rw [hin, List.length_append, List.length_map] at hle
      exact List.eq_nil_of_length_eq_zero (by omega)
  · obtain ⟨rest, -, hq, hrest⟩ := text_ancestor hmeet.normal hne hnames hin
    exact ⟨_, bare_iff.mpr rfl, by rw [ha, if_neg hne], climbs_iff hne hnames, rest, hq, hrest⟩

def sampleManifest : Manifest := ⟨.of "/p", some (.of "/p/app"), []⟩

theorem ofFile?_remainder_beside :
    ∃ (a : Path) (names : List Text) (q : Text),
      a.IsMeet (.of "/p/./lib/io.ts") (base (.of "/p") (some sampleManifest)) ∧
      (Path.of "/p/./lib/io.ts").normalComponents = a.normalComponents ++ names.map .normal ∧
      Bare (joinWith '/' names) q ∧
      ofFile? "@/".toList (.of "/p") (some sampleManifest) (.of "/p/./lib/io.ts") =
        some ("@/".toList ++ q) := by
  have hurl : ∀ m ∈ some sampleManifest, ∀ u ∈ m.baseUrl, u.isAbsolute = true := by
    rintro _ ⟨⟩ _ ⟨⟩
    decide
  have hm : ∀ m ∈ some sampleManifest, mapped? m (.of "/p/./lib/io.ts") = none := by
    rintro _ ⟨⟩
    rfl
  have hb : ∀ n, .normal n ∈ (Path.of "/p/./lib/io.ts").normalComponents → '\\' ∉ n := by
    have hfile : (Path.of "/p/./lib/io.ts").normalComponents =
        [.root, .normal "p".toList, .normal "lib".toList, .normal "io.ts".toList] := by
      decide +kernel
    intro n hn
    simp only [hfile, List.mem_cons, Path.Component.normal.injEq, List.not_mem_nil, reduceCtorEq,
      false_or, or_false] at hn
    rcases hn with rfl | rfl | rfl <;> decide
  obtain ⟨a, names, hmeet, hin, -, hnone, h⟩ := ofFile?_remainder "@/".toList (.of "/p")
    (.of "/p/./lib/io.ts") (some sampleManifest) (by decide) (by decide) hurl hm hb
  have hne : names ≠ [] := fun he => absurd (hnone.mpr he) (by decide +kernel)
  obtain ⟨q, hq, hfile, -⟩ := h hne
  exact ⟨a, names, q, hmeet, hin, hq, hfile⟩

/-- A file named by two dots and an extension has an alias that climbs. -/
theorem ofFile?_dots : ∃ q, ofFile? "@/".toList (.of "/p") none (.of "/p/...ts") =
    some ("@/".toList ++ q) ∧ (splitOn '/' q).head? = some ['.', '.'] :=
  ⟨['.', '.'], by decide +kernel, by decide⟩

end Alias

end ImportAlias
