import ImportAlias.Proofs.Alias
import Mathlib.Tactic.SplitIfs

/-! Aliases below a base directory, and when they lead back to the target they were made for. -/
namespace ImportAlias
open Text (splitOn joinWith)
open ImportAlias.Path (IsName)

namespace Target

/-- The files that probing looks for before any index file. -/
def plainFiles (p : Path) : List Path := p :: probedExtensions.map fun ext => ⟨p.text ++ ext⟩

end Target

namespace Alias

/-- Does the alias of a plain target spell all of the relative path? Either no extension was
dropped, or the one that the specifier spells is put back. -/
def KeepsExtension (aliasPrefix : Text) (s : Specifier) (relative : Text) : Prop :=
  dropExtension relative = relative ∨
    ∃ ext, spelledExtension? s = some ext ∧
      Text.endsWith ('.' :: ext) (aliasPrefix ++ dropExtension relative) = false

/-- When the alias of a target leads back to it, where the target lies below the base by the given
names. An index file of the base itself needs a prefix without a slash at its end and no file
`index` beside it; a dropped extension has to be found again by probing. -/
def LeadsBack (tree : FileTree) (aliasPrefix : Text) (base : Path) (s : Specifier)
    (target : Target) (names : List Text) : Prop :=
  let relative := joinWith '/' names
  if target.viaIndex then
    names.length = 1 → aliasPrefix.getLast? ≠ some '/' ∧
      tree.isFile (base.join ⟨"index".toList⟩).normalize = false
  else
    KeepsExtension aliasPrefix s relative ∨
      (Target.plainFiles (base.join ⟨dropExtension relative⟩).normalize).find? tree.isFile =
        some target.path

end Alias

namespace Target

theorem probe_of_isFile {tree : FileTree} {p : Path} (h : tree.isFile p = true) :
    probe tree p = ⟨p, false⟩ := if_pos h

/-- Probing finds a file that is neither the path itself nor an index file among the plain ones. -/
theorem path_probe_eq_iff {tree : FileTree} {p q : Path} (hp : p ≠ q)
    (hf : ∀ f ∈ indexFiles, p.join f ≠ q) :
    (probe tree p).path = q ↔ (plainFiles p).find? tree.isFile = some q := by
  unfold plainFiles
  by_cases hfile : tree.isFile p = true
  · rw [probe_of_isFile hfile, List.find?_cons_of_pos hfile]
    simp
  · rw [probe, if_neg hfile, List.find?_cons_of_neg hfile]
    split
    · rename_i found hfound
      simp [hfound]
    · rename_i hnone
      rw [hnone]
      split
      · rename_i found hfound
        have hmem : found ∈ indexFiles.map p.join := by
          have := List.mem_of_find?_eq_some hfound
          split_ifs at this
          · exact this
          · cases this
        obtain ⟨f, hm, rfl⟩ := List.mem_map.mp hmem
        simp [hf f hm]
      · simp [hp]

end Target

section
variable {tree : FileTree} {base p : Path} {names : List Text}

/-- The names of a target below the base lead back to it. -/
theorem probe_names (hp : p.normalize = p) (hv : (Target.probe tree p).viaIndex = false)
    (hin : (Target.probe tree p).path.normalComponents =
      base.normalComponents ++ names.map .normal) :
    (Target.probe tree (base.join ⟨joinWith '/' names⟩).normalize).path =
      (Target.probe tree p).path := by
  have ht := Target.probed_probe tree p
  have hb : (base.join ⟨joinWith '/' names⟩).normalize = (Target.probe tree p).path := by
    rw [← ht.normalize hp, Path.normalize_eq_iff,
      Path.normalComponents_join_names base (Path.names_of_below hin), hin]
  rw [hb]
  generalize he : Target.probe tree p = t at ht hv
  cases ht with
  | itself => rw [he]
  | extended hext hfile => rw [Target.probe_of_isFile hfile]
  | index => cases hv

/-- The stem of a name need not be a name: it can be `.` or `..`. -/
private theorem normalComponents_join_stem {ns : List Text} {n : Text} (hns : ∀ m ∈ ns, IsName m)
    (hne : n ≠ []) (hn : '/' ∉ n) :
    (base.join ⟨joinWith '/' (ns ++ [n])⟩).normalComponents =
      ((Path.Component.ofSegment? n).toList.foldl Path.collapse
        (base.normalComponents ++ ns.map Path.Component.normal).reverse).reverse := by
  have hslash : ∀ m ∈ ns ++ [n], m ≠ [] ∧ '/' ∉ m := List.forall_mem_append.mpr
    ⟨fun m hm => (hns m hm).segment, List.forall_mem_singleton.mpr ⟨hne, hn⟩⟩
  have hr := (Path.relative_joinWith (by simp) hslash).2
  have hs := Text.splitOn_joinWith (by simp) fun m hm => (hslash m hm).2
  have hsteps : (Path.mk (joinWith '/' (ns ++ [n]))).steps =
      ns.map .normal ++ (Path.Component.ofSegment? n).toList := by
    have hf : ns.filterMap Path.Component.ofSegment? = ns.map .normal :=
      List.filterMap_eq_map_iff_forall_eq_some.mpr fun m hm => (hns m hm).ofSegment?
    rw [Path.steps, if_neg (by simp [hr]), List.nil_append, hs, List.filterMap_append, hf]
    cases h : Path.Component.ofSegment? n <;> simp [h]
  rw [Path.normalComponents_join hr, hsteps, List.foldl_append, Path.foldl_collapse_normal,
    List.reverse_append]

private theorem collapse_parent_ne (done : List Path.Component) (n : Text) :
    Path.collapse done .parent ≠ .normal n :: done := by
  intro h
  unfold Path.collapse at h
  split at h
  · have := congrArg List.length h
    simp only [List.length_cons] at this
    omega
  · cases h
  · cases h
  · cases h

/-- Neither the stem of a name nor an index file below it is the name with its extension. -/
private theorem stem_ne {q : Path} {ns : List Text} {n ext : Text} (hns : ∀ m ∈ ns, IsName m)
    (hne : n ≠ []) (hn : '/' ∉ n) (hext : ext ∈ Alias.sourceExtensions)
    (hq : q.normalComponents = base.normalComponents ++ (ns ++ [n ++ '.' :: ext]).map .normal) :
    let stem := (base.join ⟨joinWith '/' (ns ++ [n])⟩).normalize
    stem ≠ q ∧ ∀ f ∈ Target.indexFiles, stem.join f ≠ q := by
  intro stem
  have hnorm : stem.normalize = stem := Path.normalize_normalize _
  have hs : stem.normalComponents = _ :=
    (Path.normalComponents_normalize _).trans (normalComponents_join_stem hns hne hn)
  rw [List.map_append, ← List.append_assoc] at hq
  generalize base.normalComponents ++ ns.map Path.Component.normal = above at hs hq
  constructor
  · intro h
    rw [← h, hs] at hq
    unfold Path.Component.ofSegment? at hq
    split_ifs at hq
    · simp at hq
    · have hr := congrArg List.reverse hq
      rw [List.reverse_reverse, List.reverse_append] at hr
      exact collapse_parent_ne above.reverse _ hr
    · have hc := Path.foldl_collapse_normal above.reverse [n]
      simp only [List.map_cons, List.map_nil] at hc
      simp [hc] at hq
  · intro f hf h
    have hj := (Path.normalize_join_name hnorm (Target.isName_index hf)).2
    change (stem.join f).normalComponents = _ at hj
    rw [h, hq, hs] at hj
    obtain ⟨habove, hlast⟩ := List.append_inj' hj.symm rfl
    obtain ⟨e, he, rfl⟩ := Target.exists_of_mem_indexFiles hf
    have hl : "index".toList ++ '.' :: e = n ++ '.' :: ext := by simpa using hlast
    obtain ⟨rfl, -⟩ := Alias.ext_eq_of_append_eq he hext hl
    change (List.foldl Path.collapse above.reverse (["index".toList].map .normal)).reverse = above
      at habove
    rw [Path.foldl_collapse_normal] at habove
    simp at habove

variable {aliasPrefix x : Text} {s : Specifier}

private theorem exists_leading_iff {a r : Text} {q : Path} (hx : IsName x)
    (ha : a = aliasPrefix ++ r) (hne : r ≠ []) (hr : (Path.mk r).isAbsolute = false) :
    (∃ r, r ≠ [] ∧ a = aliasPrefix ++ r ∧ (Target.resolve tree r (base.join ⟨x⟩)).path = q) ↔
      (Target.probe tree (base.join ⟨r⟩).normalize).path = q := by
  constructor
  · rintro ⟨r', -, h, hq⟩
    obtain rfl : r = r' := List.append_cancel_left (ha.symm.trans h)
    rwa [Target.resolve_join tree hx hr] at hq
  · intro hq
    refine ⟨r, hne, ha, ?_⟩
    rwa [Target.resolve_join tree hx hr]

/-- Probing for `index` in a directory finds the index file unless a file has just that name. -/
private theorem probe_index {f : Path} (hp : p.normalize = p) (hf : f ∈ Target.indexFiles)
    (hfind : (Target.indexFiles.map p.join).find? tree.isFile = some (p.join f)) :
    (Target.probe tree (p.join ⟨"index".toList⟩)).path = p.join f ↔
      tree.isFile (p.join ⟨"index".toList⟩) = false := by
  have hi : IsName "index".toList := Path.isName_of_length (by decide) (by decide)
  by_cases hfile : tree.isFile (p.join ⟨"index".toList⟩) = true
  · have hne : p.join ⟨"index".toList⟩ ≠ p.join f := by
      intro h
      have hc := congrArg Path.normalComponents h
      obtain ⟨e, he, rfl⟩ := Target.exists_of_mem_indexFiles hf
      rw [(Path.normalize_join_name hp hi).2,
        (Path.normalize_join_name hp (Target.isName_index hf)).2] at hc
      simp at hc
    rw [Target.probe_of_isFile hfile, hfile]
    exact iff_of_false hne (by decide)
  · have hplain : (Target.probedExtensions.map fun ext =>
        Path.mk ((p.join ⟨"index".toList⟩).text ++ ext)) =
          Target.indexFiles.map p.join ++ [p.join (.of "index.vue")] := by
      have hext : ∀ ext, Path.mk ((p.join ⟨"index".toList⟩).text ++ ext) =
          p.join ⟨"index".toList ++ ext⟩ := fun ext => by rw [← Path.join_append p hi]
      simp only [hext]
      rfl
    rw [Target.probe, if_neg hfile, hplain, List.find?_append, hfind]
    simpa using hfile

private theorem before?_index {t : Text} (h : t.getLast? ≠ some '/') :
    Text.before? "/index".toList (t ++ "index".toList) = none := by
  rw [Option.eq_none_iff_forall_ne_some]
  intro l hl
  have hs : t ++ "index".toList = (l ++ ['/']) ++ "index".toList := by
    rw [Text.before?_eq_some.mp hl, List.append_assoc]
    rfl
  exact h (by rw [List.append_cancel_right hs, List.getLast?_concat])

/-- The index file of the base itself: a slash at the end of the prefix is cut off with the name. -/
private theorem leads_back_base_index {f : Path} (hp : p.normalize = p) (hx : IsName x)
    (hf : f ∈ Target.indexFiles)
    (hfind : (Target.indexFiles.map p.join).find? tree.isFile = some (p.join f))
    (hpn : p.normalComponents = base.normalComponents) :
    (∃ r, r ≠ [] ∧ (Text.before? "/index".toList (aliasPrefix ++ "index".toList)).getD
        (aliasPrefix ++ "index".toList) = aliasPrefix ++ r ∧
        (Target.resolve tree r (base.join ⟨x⟩)).path = p.join f) ↔
      aliasPrefix.getLast? ≠ some '/' ∧
        tree.isFile (base.join ⟨"index".toList⟩).normalize = false := by
  have hbase : (base.join ⟨"index".toList⟩).normalize = p.join ⟨"index".toList⟩ := by
    have hi : IsName "index".toList := Path.isName_of_length (by decide) (by decide)
    obtain ⟨hn, hc⟩ := Path.normalize_join_name hp hi
    rw [← hn, Path.normalize_eq_iff, hc, hpn]
    exact Path.normalComponents_join_names base (List.forall_mem_singleton.mpr hi)
  by_cases hl : aliasPrefix.getLast? = some '/'
  · obtain ⟨l, rfl⟩ := List.getLast?_eq_some_iff.mp hl
    have hbefore : Text.before? "/index".toList (l ++ ['/'] ++ "index".toList) = some l := by
      rw [Text.before?_eq_some, List.append_assoc]
      rfl
    rw [hbefore, Option.getD_some]
    refine ⟨fun ⟨r, _, h, _⟩ => ?_, fun h => absurd hl h.1⟩
    exact absurd (congrArg List.length h) (by simp)
  · rw [exists_leading_iff hx (by rw [before?_index hl, Option.getD_none]) (by decide) (by decide),
      hbase, probe_index hp hf hfind]
    simp [hl]

/-- The alias of an index file leads back unless it stands for the base itself. -/
theorem leads_back_index {f : Path} (hp : p.normalize = p) (hx : IsName x)
    (hf : f ∈ Target.indexFiles)
    (hfind : (Target.indexFiles.map p.join).find? tree.isFile = some (p.join f))
    (ht : Target.probe tree p = ⟨p.join f, true⟩) (hne : names ≠ [])
    (hin : (p.join f).normalComponents = base.normalComponents ++ names.map .normal) :
    (∃ r, r ≠ [] ∧ Alias.keepShape s ⟨p.join f, true⟩
        (aliasPrefix ++ Alias.dropExtension (joinWith '/' names)) = aliasPrefix ++ r ∧
        (Target.resolve tree r (base.join ⟨x⟩)).path = p.join f) ↔
      Alias.LeadsBack tree aliasPrefix base s ⟨p.join f, true⟩ names := by
  obtain ⟨e, he, rfl⟩ := Target.exists_of_mem_indexFiles hf
  have hnames := Path.names_of_below hin
  obtain ⟨ms, last, rfl⟩ := (List.eq_nil_or_concat' names).resolve_left hne
  obtain ⟨-, hj⟩ := Path.normalize_join_name hp (Target.isName_index hf)
  rw [hj, List.map_append, ← List.append_assoc] at hin
  obtain ⟨hpn, hlast⟩ := List.append_inj' hin rfl
  obtain rfl : "index".toList ++ '.' :: e = last := by simpa using hlast
  have hstem := Alias.dropExtension_joinWith ms he (by decide : "index".toList ≠ []) (by decide)
  simp only [Alias.LeadsBack, Alias.keepShape, if_true, hstem]
  by_cases hms : ms = []
  · subst hms
    have hbase : p.normalComponents = base.normalComponents := hpn.trans (List.append_nil _)
    refine (leads_back_base_index hp hx hf hfind hbase).trans ?_
    simp
  · have hns := (List.forall_mem_append.mp hnames).1
    obtain ⟨hrne, hr⟩ := Path.relative_joinWith hms fun m hm => (hns m hm).segment
    have hbefore : Text.before? "/index".toList
        (aliasPrefix ++ joinWith '/' (ms ++ ["index".toList])) =
          some (aliasPrefix ++ joinWith '/' ms) := by
      rw [Text.before?_eq_some, Text.joinWith_concat hms, List.append_assoc]
      rfl
    have hback : (base.join ⟨joinWith '/' ms⟩).normalize = p := by
      rw [← hp, Path.normalize_eq_iff, Path.normalComponents_join_names base hns, ← hpn]
    rw [exists_leading_iff hx (by rw [hbefore, Option.getD_some]) hrne hr, hback, ht]
    simp [hms]

private theorem last_name {cs above : List Path.Component} {n : Text} (hne : names ≠ [])
    (h : cs ++ [.normal n] = above ++ names.map .normal) : ∃ ns, names = ns ++ [n] := by
  obtain ⟨ns, last, rfl⟩ := (List.eq_nil_or_concat' names).resolve_left hne
  rw [List.map_append, ← List.append_assoc] at h
  have hl := (List.append_inj' h rfl).2
  obtain rfl : n = last := by simpa using hl
  exact ⟨ns, rfl⟩

/-- A spelled extension ends the last name of the target, or stands before one that was added. -/
private theorem spelled_names {d : Path} {ext : Text} (hs : s.head? = some '.')
    (hp : p = (d.join ⟨s⟩).normalize) (hext : Alias.spelledExtension? s = some ext)
    (hv : (Target.probe tree p).viaIndex = false) (hne : names ≠ [])
    (hin : (Target.probe tree p).path.normalComponents =
      base.normalComponents ++ names.map .normal) :
    ext ∈ Alias.sourceExtensions ∧ ∃ ns n, names = ns ++ [n ++ '.' :: ext] ∨
      ∃ e ∈ Alias.sourceExtensions, names = ns ++ [n ++ '.' :: ext ++ '.' :: e] := by
  obtain ⟨he, cs, n, hc⟩ := Alias.spelled_last hs hext d
  rw [← Path.normalComponents_normalize, ← hp] at hc
  have hpn : p.normalize = p := by rw [hp, Path.normalize_normalize]
  have ht := Target.probed_probe tree p
  generalize Target.probe tree p = t at ht hv hin
  cases ht with
  | itself =>
    obtain ⟨ns, hns⟩ := last_name hne (hc.symm.trans hin)
    exact ⟨he, ns, n, .inl hns⟩
  | @extended added hadded hfile =>
    obtain ⟨-, cs', n', ⟨hroot, -⟩ | hp', hadd⟩ := Path.normalize_append hpn
      (fun _ => Target.isName_append hadded) (FileTree.isAbsolute_of_isFile hfile)
    · rw [hroot] at hc
      exact absurd hc (by simp [List.singleton_eq_append_iff])
    · have hl := (List.append_inj' (hc.symm.trans hp') rfl).2
      obtain rfl : n ++ '.' :: ext = n' := by simpa using hl
      obtain ⟨e, hmem, rfl⟩ := Target.exists_of_mem_probedExtensions hadded
      obtain ⟨ns, hns⟩ := last_name hne (hadd.symm.trans hin)
      exact ⟨he, ns, n, .inr ⟨e, hmem, hns⟩⟩
  | index => cases hv

/-- A spelled extension is still at the end of the stem, or it is what the stem lacks. -/
private theorem spelled_stem {d : Path} {ext : Text} (hs : s.head? = some '.')
    (hp : p = (d.join ⟨s⟩).normalize) (hext : Alias.spelledExtension? s = some ext)
    (hv : (Target.probe tree p).viaIndex = false) (hne : names ≠ [])
    (hin : (Target.probe tree p).path.normalComponents =
      base.normalComponents ++ names.map .normal) :
    '.' :: ext <:+ Alias.dropExtension (joinWith '/' names) ∨
      joinWith '/' names = Alias.dropExtension (joinWith '/' names) ++ '.' :: ext := by
  have hnames := Path.names_of_below hin
  obtain ⟨he, ns, n, rfl | ⟨e, hmem, rfl⟩⟩ := spelled_names hs hp hext hv hne hin <;>
    obtain ⟨t, -, hj⟩ := Text.exists_joinWith_concat '/' ns
  · rcases Alias.dropExtension_names hne with hd | ⟨ns', n', e', he', hn', hl⟩
    · left
      rw [hd, hj]
      exact ⟨t ++ n, by simp⟩
    · obtain ⟨-, hl⟩ := List.append_inj' hl rfl
      obtain ⟨rfl, rfl⟩ := Alias.ext_eq_of_append_eq he he' (List.singleton_inj.mp hl)
      have hlast := (List.forall_mem_append.mp hnames).2 _ (List.mem_singleton_self _)
      have hslash : '/' ∉ n := fun hc => hlast.no_slash (List.mem_append_left _ hc)
      right
      rw [Alias.dropExtension_joinWith ns he hn' hslash, hj, hj, List.append_assoc]
  · have hlast := (List.forall_mem_append.mp hnames).2 _ (List.mem_singleton_self _)
    have hslash : '/' ∉ n ++ '.' :: ext := fun hc => hlast.no_slash (List.mem_append_left _ hc)
    left
    rw [Alias.dropExtension_joinWith ns hmem (by simp) hslash, hj]
    exact ⟨t ++ n, by simp⟩

private theorem keepShape_of_keepsExtension {t : Target} {rel : Text} (hv : t.viaIndex = false)
    (hstem : ∀ ext, Alias.spelledExtension? s = some ext →
      '.' :: ext <:+ Alias.dropExtension rel ∨ rel = Alias.dropExtension rel ++ '.' :: ext)
    (h : Alias.KeepsExtension aliasPrefix s rel) :
    Alias.keepShape s t (aliasPrefix ++ Alias.dropExtension rel) = aliasPrefix ++ rel := by
  unfold Alias.keepShape
  rw [if_neg (by simp [hv])]
  rcases h with hd | ⟨ext, hsp, he⟩
  · rw [hd]
    split
    · rename_i ext hsp
      have hsuf : '.' :: ext <:+ rel := by
        rcases hstem ext hsp with hsuf | hrel
        · rwa [hd] at hsuf
        · exact ⟨_, hrel.symm⟩
      rw [if_pos (Text.endsWith_iff.mpr (hsuf.trans (List.suffix_append aliasPrefix rel)))]
    · rfl
  · have hrel : rel = Alias.dropExtension rel ++ '.' :: ext := by
      refine (hstem ext hsp).resolve_left fun hsuf => ?_
      rw [Text.endsWith_iff.mpr (hsuf.trans (List.suffix_append aliasPrefix _))] at he
      cases he
    rw [hsp]
    simp only [he, Bool.false_eq_true, if_false, List.append_assoc]
    rw [← hrel]

private theorem keepShape_of_not_keepsExtension {t : Target} {rel : Text}
    (hv : t.viaIndex = false) (h : ¬Alias.KeepsExtension aliasPrefix s rel) :
    Alias.keepShape s t (aliasPrefix ++ Alias.dropExtension rel) =
      aliasPrefix ++ Alias.dropExtension rel := by
  unfold Alias.keepShape
  rw [if_neg (by simp [hv])]
  split
  · rename_i ext hsp
    have he : Text.endsWith ('.' :: ext) (aliasPrefix ++ Alias.dropExtension rel) = true := by
      by_contra he
      exact h (.inr ⟨ext, hsp, by simpa using he⟩)
    rw [if_pos he]
  · rfl

/-- The alias of a plain target leads back if its extension is not dropped, or spelled out again,
or found again. -/
theorem leads_back_plain {d : Path} (hs : s.head? = some '.') (hp : p = (d.join ⟨s⟩).normalize)
    (hx : IsName x) (hv : (Target.probe tree p).viaIndex = false) (hne : names ≠ [])
    (hin : (Target.probe tree p).path.normalComponents =
      base.normalComponents ++ names.map .normal) :
    (∃ r, r ≠ [] ∧ Alias.keepShape s (Target.probe tree p)
        (aliasPrefix ++ Alias.dropExtension (joinWith '/' names)) = aliasPrefix ++ r ∧
        (Target.resolve tree r (base.join ⟨x⟩)).path = (Target.probe tree p).path) ↔
      Alias.LeadsBack tree aliasPrefix base s (Target.probe tree p) names := by
  have hpn : p.normalize = p := by rw [hp, Path.normalize_normalize]
  have hnames := Path.names_of_below hin
  simp only [Alias.LeadsBack, hv, Bool.false_eq_true, if_false]
  by_cases hk : Alias.KeepsExtension aliasPrefix s (joinWith '/' names)
  · have ha := keepShape_of_keepsExtension hv
      (fun ext h => spelled_stem hs hp h hv hne hin) hk
    obtain ⟨hrne, hr⟩ := Path.relative_joinWith hne fun n hn => (hnames n hn).segment
    rw [exists_leading_iff hx ha hrne hr]
    exact iff_of_true (probe_names hpn hv hin) (.inl hk)
  · have ha := keepShape_of_not_keepsExtension hv hk
    obtain ⟨ns, n, ext, hext, hn, rfl⟩ :=
      (Alias.dropExtension_names hne).resolve_left fun h => hk (.inl h)
    obtain ⟨hns, hlast⟩ := List.forall_mem_append.mp hnames
    have hslash : '/' ∉ n := fun hc =>
      (hlast _ (List.mem_singleton_self _)).no_slash (List.mem_append_left _ hc)
    have hstem := Alias.dropExtension_joinWith ns hext hn hslash
    obtain ⟨hself, hindex⟩ := stem_ne hns hn hslash hext hin
    obtain ⟨hrne, hr⟩ := Path.relative_joinWith (by simp : ns ++ [n] ≠ [])
      (List.forall_mem_append.mpr ⟨fun m hm => (hns m hm).segment,
        List.forall_mem_singleton.mpr ⟨hn, hslash⟩⟩)
    rw [hstem] at ha ⊢
    rw [exists_leading_iff hx ha hrne hr, or_iff_right hk]
    exact Target.path_probe_eq_iff hself hindex

end

/-- Without mappings, the alias of a relative specifier whose target lies below the base leads back
to that target exactly when `Alias.LeadsBack` says so. -/
theorem aliasOf_leads_back_iff (project : Project) (tree : FileTree) (aliasPrefix x : Text)
    (file : Path) (s : Specifier) (names : List Text)
    (hs : s.kind aliasPrefix = .relative) (hm : ∀ m ∈ project.manifest, m.mappings = [])
    (hx : IsName x) (hne : names ≠ []) (hb : ∀ n ∈ names, '\\' ∉ n)
    (hin : (Target.resolve tree s file).path.normalComponents =
      (Alias.base project.root project.manifest).normalComponents ++ names.map .normal) :
    (∃ r, r ≠ [] ∧ project.aliasOf tree aliasPrefix file s = .ok (aliasPrefix ++ r) ∧
        (Target.resolve tree r ((Alias.base project.root project.manifest).join ⟨x⟩)).path =
          (Target.resolve tree s file).path) ↔
      Alias.LeadsBack tree aliasPrefix (Alias.base project.root project.manifest) s
        (Target.resolve tree s file) names := by
  have hdot : s.head? = some '.' := by
    by_contra h
    unfold Specifier.kind at hs
    rw [if_neg h] at hs
    split_ifs at hs
  have ha : project.aliasOf tree aliasPrefix file s = .ok (Alias.keepShape s
      (Target.resolve tree s file) (aliasPrefix ++ Alias.dropExtension (joinWith '/' names))) := by
    simp only [Project.aliasOf, Alias.ofFile?_below hm hne hb hin]
  simp only [ha, Except.ok.injEq]
  generalize Alias.base project.root project.manifest = base at hin
  generalize hp : (file.directory.join ⟨s⟩).normalize = p
  have hpn : p.normalize = p := by rw [← hp, Path.normalize_normalize]
  have hr : Target.resolve tree s file = Target.probe tree p := by rw [Target.resolve, hp]
  rw [hr] at hin ⊢
  cases hv : (Target.probe tree p).viaIndex with
  | false => exact leads_back_plain hdot hp.symm hx hv hne hin
  | true =>
    have ht := Target.probed_probe tree p
    generalize he : Target.probe tree p = t at ht hv hin
    cases ht with
    | itself => cases hv
    | extended => cases hv
    | index hf hfind => exact leads_back_index hpn hx hf hfind he hne hin

def sampleTree : FileTree :=
  (FileTree.empty.makeFile (.of "/p/index.ts") (.text [])).makeFile (.of "/p/lib/io.ts") (.text [])

def sampleProject : Project := ⟨.of "/p", none, false⟩

theorem aliasOf_leads_back_lib :
    ∃ r, r ≠ [] ∧ sampleProject.aliasOf sampleTree "@/".toList (.of "/p/a/b/c.ts")
        "../../lib/io".toList = .ok ("@/".toList ++ r) ∧
      (Target.resolve sampleTree r ((Alias.base (.of "/p") none).join ⟨"x".toList⟩)).path =
        (Target.resolve sampleTree "../../lib/io".toList (.of "/p/a/b/c.ts")).path := by
  refine (aliasOf_leads_back_iff sampleProject sampleTree "@/".toList "x".toList
    (.of "/p/a/b/c.ts") "../../lib/io".toList ["lib".toList, "io.ts".toList] (by decide)
    (by simp [sampleProject]) ⟨by decide, by decide, by decide, by decide⟩ (by decide) (by decide)
    (by decide +kernel)).mpr ?_
  have hv : (Target.resolve sampleTree "../../lib/io".toList
      (.of "/p/a/b/c.ts")).viaIndex = false := by
    decide +kernel
  rw [Alias.LeadsBack, hv]
  exact .inr (by decide +kernel)

/-- The index file of the base gets an alias that does not even start with the prefix. -/
theorem aliasOf_base_index :
    ¬∃ r, sampleProject.aliasOf sampleTree "@/".toList (.of "/p/a/b/c.ts") "../..".toList =
      .ok ("@/".toList ++ r) := by
  rintro ⟨r, h⟩
  have ha : sampleProject.aliasOf sampleTree "@/".toList (.of "/p/a/b/c.ts") "../..".toList =
      .ok "@".toList := rfl
  rw [ha] at h
  simp at h

end ImportAlias
