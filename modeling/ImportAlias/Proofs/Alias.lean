import ImportAlias.Proofs.Resolution
import Mathlib.Tactic.SplitIfs

/-! The extensions that aliases drop and specifiers spell, and the aliases of files below a base. -/
namespace ImportAlias
open Text (splitOn joinWith)
open ImportAlias.Path (IsName)

namespace Alias

theorem not_mem_of_sourceExtension {ext : Text} (h : ext ∈ sourceExtensions) :
    '.' ∉ ext ∧ '/' ∉ ext ∧ 1 < ext.length := by
  revert ext
  decide

theorem ext_eq_of_append_eq {m n e ext : Text} (he : e ∈ sourceExtensions)
    (hext : ext ∈ sourceExtensions) (h : m ++ '.' :: e = n ++ '.' :: ext) : m = n ∧ e = ext := by
  have hm := Text.cutAtLast?_append m (not_mem_of_sourceExtension he).1
  have hn := Text.cutAtLast?_append n (not_mem_of_sourceExtension hext).1
  rw [h, hn] at hm
  simpa [eq_comm] using hm

theorem dropExtension_append {stem ext : Text} (hext : ext ∈ sourceExtensions) (hne : stem ≠ [])
    (hl : stem.getLast? ≠ some '/') : dropExtension (stem ++ '.' :: ext) = stem := by
  have hc := Text.cutAtLast?_append stem (not_mem_of_sourceExtension hext).1
  simp [dropExtension, hc, hne, hl, hext]

theorem dropExtension_cases (t : Text) :
    dropExtension t = t ∨ ∃ ext ∈ sourceExtensions, t = dropExtension t ++ '.' :: ext ∧
      dropExtension t ≠ [] ∧ (dropExtension t).getLast? ≠ some '/' := by
  unfold dropExtension
  split
  · rename_i stem ext hc
    split_ifs with h
    · refine .inr ⟨ext, by simpa using h.2.2, Text.of_cutAtLast?_eq_some hc, h.1, h.2.1⟩
    · exact .inl rfl
  · exact .inl rfl

theorem dropExtension_ne_nil {t : Text} (h : t ≠ []) : dropExtension t ≠ [] := by
  rcases dropExtension_cases t with he | ⟨_, _, _, hne, _⟩
  · rwa [he]
  · exact hne

/-- `stem` is the text without its source extension. Only an extension that follows something in
the last segment counts. -/
inductive Bare : Text → Text → Prop where
  | dropped {stem ext : Text} (hext : ext ∈ sourceExtensions) (hne : stem ≠ [])
      (hl : stem.getLast? ≠ some '/') : Bare (stem ++ '.' :: ext) stem
  | whole {t : Text} (h : ∀ stem, ∀ ext ∈ sourceExtensions, t = stem ++ '.' :: ext →
      stem = [] ∨ stem.getLast? = some '/') : Bare t t

theorem bare_iff {t stem : Text} : Bare t stem ↔ stem = dropExtension t := by
  constructor
  · rintro (⟨hext, hne, hl⟩ | h)
    · exact (dropExtension_append hext hne hl).symm
    · rcases dropExtension_cases t with he | ⟨ext, hext, ht, hne, hl⟩
      · exact he.symm
      · exact ((h _ ext hext ht).elim hne hl).elim
  · rintro rfl
    rcases dropExtension_cases t with he | ⟨ext, hext, ht, hne, hl⟩
    · rw [he]
      refine .whole fun stem ext hext ht => ?_
      by_contra! h
      rw [ht, dropExtension_append hext h.1 h.2] at he
      simp at he
    · have hb := Bare.dropped hext hne hl
      rwa [← ht] at hb

/-- An extension at the end of a text is one of its last segment. -/
theorem ext_of_append_eq {t z stem ext : Text} (ht : t = [] ∨ t.getLast? = some '/')
    (hext : ext ∈ sourceExtensions) (h : t ++ z = stem ++ '.' :: ext) :
    ∃ n, stem = t ++ n ∧ z = n ++ '.' :: ext := by
  rcases List.append_eq_append_iff.mp h with hn | ⟨u, hu, he⟩
  · exact hn
  · obtain rfl : u = [] := by
      by_contra hne
      have hsep : u.getLast? = some '/' := by
        rw [← List.getLast?_append_of_ne_nil stem hne, ← hu]
        exact ht.resolve_left (by simp [hu, hne])
      have hmem : '/' ∈ '.' :: ext := by
        rw [he]
        exact List.mem_append_left _ (List.mem_of_getLast? hsep)
      exact absurd hmem (by simp [(not_mem_of_sourceExtension hext).2.1])
    exact ⟨[], by simp [hu], he.symm⟩

theorem dropExtension_joinWith (ns : List Text) {n ext : Text} (hext : ext ∈ sourceExtensions)
    (hne : n ≠ []) (hn : '/' ∉ n) :
    dropExtension (joinWith '/' (ns ++ [n ++ '.' :: ext])) = joinWith '/' (ns ++ [n]) := by
  obtain ⟨t, -, hj⟩ := Text.exists_joinWith_concat '/' ns
  have hl : (t ++ n).getLast? ≠ some '/' := by
    intro hl
    rw [List.getLast?_append_of_ne_nil _ hne] at hl
    exact hn (List.mem_of_getLast? hl)
  rw [hj, hj, ← List.append_assoc, dropExtension_append hext (by simp [hne]) hl]

/-- Dropping the extension of joined names drops it from the last name. -/
theorem dropExtension_names {names : List Text} (hne : names ≠ []) :
    dropExtension (joinWith '/' names) = joinWith '/' names ∨
      ∃ ns n ext, ext ∈ sourceExtensions ∧ n ≠ [] ∧ names = ns ++ [n ++ '.' :: ext] := by
  obtain ⟨ns, last, rfl⟩ := (List.eq_nil_or_concat' names).resolve_left hne
  obtain ⟨t, ht, hj⟩ := Text.exists_joinWith_concat '/' ns
  rcases dropExtension_cases (joinWith '/' (ns ++ [last])) with he | ⟨ext, hext, he, hs, hl⟩
  · exact .inl he
  right
  have hstem : dropExtension (joinWith '/' (ns ++ [last])) ≠ t := by
    rintro rfl
    exact ht.elim hs hl
  rw [hj] at he hstem
  obtain ⟨n, hn, hlast⟩ := ext_of_append_eq ht hext he
  have hne : n ≠ [] := by
    rintro rfl
    exact hstem (hn.trans (List.append_nil t))
  exact ⟨ns, n, ext, hext, hne, by rw [hlast]⟩

private theorem splitOn_climb (k : Nat) {names : List Text} (hne : k ≠ 0 ∨ names ≠ [])
    (h : ∀ n ∈ names, IsName n) :
    splitOn '/' (joinWith '/' (List.replicate k ['.', '.'] ++ names)) =
      List.replicate k ['.', '.'] ++ names := by
  refine Text.splitOn_joinWith ?_ (List.forall_mem_append.mpr ⟨fun s hs => ?_, fun n hn => ?_⟩)
  · simpa [or_iff_not_imp_left] using hne
  · simp [List.eq_of_mem_replicate hs]
  · exact (h n hn).no_slash

/-- Climbing is left out of a relative path that also goes down. -/
theorem inside?_climb (k : Nat) {names : List Text} (hne : names ≠ [])
    (h : ∀ n ∈ names, IsName n) :
    inside? (joinWith '/' (List.replicate k ['.', '.'] ++ names)) = some (joinWith '/' names) := by
  unfold inside?
  rw [splitOn_climb k (.inr hne) h]
  obtain ⟨n, ns, rfl⟩ := List.exists_cons_of_ne_nil hne
  have hn := h n (by simp)
  cases k with
  | zero =>
    split
    · rename_i heq
      exact absurd (List.cons.inj heq).1 hn.ne_parent
    · rfl
  | succ k =>
    have hd : descent? (List.replicate k ['.', '.'] ++ n :: ns) = some (n :: ns) := by
      unfold descent?
      rw [List.dropWhile_append_of_pos (by simp), List.dropWhile_cons_of_neg
        (by simp [hn.ne_nil, hn.ne_current, hn.ne_parent])]
    simp only [List.replicate_succ, List.cons_append, hd, Option.map_some]

theorem inside?_parents (k : Nat) :
    inside? (joinWith '/' (List.replicate (k + 1) ['.', '.'] ++ [])) = none := by
  unfold inside?
  rw [splitOn_climb (k + 1) (.inl (by simp)) (by simp)]
  simp [List.replicate_succ, descent?]

/-- A file gets the names that lead down to it as alias, without the extension, wherever the way
from the base has to climb before. -/
theorem fallback?_eq {aliasPrefix : Text} {base file : Path} {k : Nat} {names : List Text}
    (h : ∀ n ∈ names, IsName n) (hb : ∀ n ∈ names, '\\' ∉ n)
    (hr : file.relativeTo base =
      Path.ofComponents (List.replicate k .parent ++ names.map .normal)) :
    fallback? aliasPrefix base file = if names = [] then none
      else some (aliasPrefix ++ dropExtension (joinWith '/' names)) := by
  have ht : (file.relativeTo base).text = joinWith '/' (List.replicate k ['.', '.'] ++ names) := by
    rw [hr, Path.text_ofComponents_relative k h]
  have hs : (file.relativeTo base).slashed =
      joinWith '/' (List.replicate k ['.', '.'] ++ names) := by
    rw [Path.slashed_of_not_mem, ht]
    rw [ht]
    intro hc
    obtain hc | ⟨n, hn, hc⟩ := Text.mem_joinWith hc
    · exact absurd hc (by decide)
    · rcases List.mem_append.mp hn with hn | hn
      · simp [List.eq_of_mem_replicate hn] at hc
      · exact hb n hn hc
  rw [fallback?, Path.relativeTo_normalize, hs]
  split_ifs with hne
  · subst hne
    cases k with
    | zero => rfl
    | succ k => rw [inside?_parents]; rfl
  · have hd := dropExtension_ne_nil
      (Path.relative_joinWith hne fun n hn => (h n hn).segment).1
    rw [inside?_climb k hne h]
    simp [hd]

/-- Without mappings, a file below the base gets its names without the extension as alias. -/
theorem ofFile?_below {aliasPrefix : Text} {root file : Path} {manifest : Option Manifest}
    {names : List Text} (hm : ∀ m ∈ manifest, m.mappings = []) (hne : names ≠ [])
    (hb : ∀ n ∈ names, '\\' ∉ n)
    (hin : file.normalComponents = (base root manifest).normalComponents ++ names.map .normal) :
    ofFile? aliasPrefix root manifest file =
      some (aliasPrefix ++ dropExtension (joinWith '/' names)) := by
  have hmap : manifest.bind (mapped? · file) = none := by
    cases manifest with
    | none => rfl
    | some m => simp [mapped?, hm m rfl]
  have hr : file.relativeTo (base root manifest) =
      Path.ofComponents (List.replicate 0 .parent ++ names.map .normal) :=
    Path.relativeTo_below hin
  rw [ofFile?, hmap, Option.none_or, fallback?_eq (Path.names_of_below hin) hb hr, if_neg hne]

/-- A spelled extension ends the last name that a relative specifier leads to. -/
theorem spelled_last {s : Specifier} {ext : Text} (hs : s.head? = some '.')
    (h : spelledExtension? s = some ext) (d : Path) :
    ext ∈ sourceExtensions ∧
      ∃ cs n, (d.join ⟨s⟩).normalComponents = cs ++ [.normal (n ++ '.' :: ext)] := by
  obtain ⟨init, last, hl⟩ := (List.eq_nil_or_concat' (splitOn '/' s)).resolve_left
    (Text.splitOn_ne_nil '/' s)
  have hr : (Path.mk s).isAbsolute = false := by simp [Path.isAbsolute, hs]
  unfold spelledExtension? at h
  rw [hl] at h
  simp only [List.getLast?_concat, Option.getD_some] at h
  split at h
  · rename_i n e hc
    split_ifs at h with he
    cases h
    have he : ext ∈ sourceExtensions := by simpa using he
    obtain rfl := Text.of_cutAtLast?_eq_some hc
    have hslash : '/' ∉ n ++ '.' :: ext :=
      Text.not_mem_of_mem_splitOn (t := s) (by rw [hl]; simp)
    have hname : IsName (n ++ '.' :: ext) := by
      have hlen := (not_mem_of_sourceExtension he).2.2
      refine Path.isName_of_length hslash ?_
      rw [List.length_append, List.length_cons]
      omega
    refine ⟨he, ?_⟩
    have hsteps : (Path.mk s).steps = init.filterMap Path.Component.ofSegment? ++
        [n ++ '.' :: ext].map .normal := by
      simp [Path.steps, hr, hl, hname.ofSegment?]
    rw [Path.normalComponents_join hr, hsteps, List.foldl_append, Path.foldl_collapse_normal,
      List.reverse_append, List.reverse_reverse]
    exact ⟨_, n, rfl⟩
  · cases h

end Alias

end ImportAlias
