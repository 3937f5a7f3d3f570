import ImportAlias.Proofs.Alias
import ImportAlias.Proofs.Edit
import ImportAlias.Proofs.Header.Kinds
import ImportAlias.Proofs.Path.Ancestor

/-! Quotes and line breaks in aliases. An alias is put between quotes as it is, and the names that
it is made of may hold what ends a quoted text. -/
namespace ImportAlias
open Text (splitOn joinWith)
open ImportAlias.Header (IsQuote)

/-- A character that ends a quoted text of some kind. -/
def Breaks (x : Char) : Prop := x = '\n' ∨ IsQuote x

namespace Breaks

variable {x : Char}

theorem not_mem_separators (h : Breaks x) : x ∉ ['/', '\\', '.'] := by
  rcases h with rfl | rfl | rfl <;> decide

theorem ne_slash (h : Breaks x) : x ≠ '/' := fun he => h.not_mem_separators (by simp [he])

theorem ne_backslash (h : Breaks x) : x ≠ '\\' := fun he => h.not_mem_separators (by simp [he])

theorem ne_dot (h : Breaks x) : x ≠ '.' := fun he => h.not_mem_separators (by simp [he])

theorem not_mem_extension (h : Breaks x) {ext : Text} (hext : ext ∈ Alias.sourceExtensions) :
    x ∉ '.' :: ext := by
  revert ext
  rcases h with rfl | rfl | rfl <;> decide

theorem not_mem_index (h : Breaks x) : x ∉ "/index".toList := by
  rcases h with rfl | rfl | rfl <;> decide

end Breaks

namespace Path

variable {x : Char}

theorem mem_slashed {p : Path} (hs : x ≠ '/') (hb : x ≠ '\\') : x ∈ p.slashed ↔ x ∈ p.text := by
  rw [slashed, List.mem_map]
  constructor
  · rintro ⟨c, hc, rfl⟩
    split_ifs at hs hb ⊢ with he
    · exact absurd rfl hs
    · exact hc
  · intro hx
    exact ⟨x, hx, if_neg hb⟩

/-- The names on the way from a directory by a relative path come from the one or the other. -/
theorem mem_normalComponents_join {d : Path} {t n : Text} (hr : (Path.mk t).isAbsolute = false)
    (h : .normal n ∈ (d.join ⟨t⟩).normalComponents) :
    .normal n ∈ d.normalComponents ∨ n ∈ splitOn '/' t := by
  rw [normalComponents_join hr, List.mem_reverse] at h
  rcases mem_foldl_collapse h with hd | hs
  · exact .inl (List.mem_reverse.mp hd)
  · right
    simp only [steps, hr, Bool.false_eq_true, if_false, List.nil_append, List.mem_filterMap] at hs
    obtain ⟨u, hu, hc⟩ := hs
    unfold Component.ofSegment? at hc
    split_ifs at hc
    · cases hc
    · obtain rfl := Component.normal.inj (Option.some.inj hc)
      exact hu

end Path

namespace Target

variable {x : Char}

/-- What breaks a quoted text in a name of a target comes from the path that was probed. -/
theorem Probed.exists_name {tree : FileTree} {p : Path} {t : Target} (h : Probed tree p t)
    (hp : p.normalize = p) (hx : Breaks x) {n : Text} (hn : .normal n ∈ t.path.normalComponents)
    (hm : x ∈ n) : ∃ m, .normal m ∈ p.normalComponents ∧ x ∈ m := by
  cases h with
  | itself => exact ⟨n, hn, hm⟩
  | extended hext hfile =>
    obtain ⟨e, he, rfl⟩ := exists_of_mem_probedExtensions hext
    have hfresh := hx.not_mem_extension he
    obtain ⟨-, cs, m, hcs, hadd⟩ := Path.normalize_append hp (fun _ => isName_append hext)
      (FileTree.isAbsolute_of_isFile hfile)
    rw [hadd, List.mem_append, List.mem_singleton] at hn
    rcases hcs with ⟨-, rfl, rfl⟩ | hcs
    · obtain rfl : n = '.' :: e := by simpa using hn
      exact absurd hm hfresh
    · rcases hn with hn | hn
      · exact ⟨n, by rw [hcs]; exact List.mem_append_left _ hn, hm⟩
      · obtain rfl := Path.Component.normal.inj hn
        exact ⟨m, by simp [hcs], (List.mem_append.mp hm).resolve_right hfresh⟩
  | index hf =>
    rw [(Path.normalize_join_name hp (isName_index hf)).2, List.mem_append,
      List.mem_singleton] at hn
    rcases hn with hn | hn
    · exact ⟨n, hn, hm⟩
    · obtain rfl := Path.Component.normal.inj hn
      obtain ⟨e, he, rfl⟩ := exists_of_mem_indexFiles hf
      rcases List.mem_append.mp hm with hm | hm
      · exact absurd (List.mem_cons_of_mem '/' hm) hx.not_mem_index
      · exact absurd hm (hx.not_mem_extension he)

/-- What breaks a quoted text in a name of a target, but not in the specifier, comes from a
directory of the file. -/
theorem exists_directory {tree : FileTree} {s : Specifier} {file : Path} (hx : Breaks x)
    (hs : s.head? = some '.') (hxs : x ∉ s) {n : Text}
    (hn : .normal n ∈ (resolve tree s file).path.normalComponents) (hm : x ∈ n) :
    ∃ d, .normal d ∈ file.directory.normalComponents ∧ x ∈ d := by
  have hr : (Path.mk s).isAbsolute = false := by simp [Path.isAbsolute, hs]
  obtain ⟨m, hmem, hxm⟩ := (probed_probe tree (file.directory.join ⟨s⟩).normalize).exists_name
    (Path.normalize_normalize _) hx hn hm
  rw [Path.normalComponents_normalize] at hmem
  rcases Path.mem_normalComponents_join hr hmem with hd | hseg
  · exact ⟨m, hd, hxm⟩
  · have hmem : x ∈ joinWith '/' (splitOn '/' s) := Text.mem_joinWith_of_mem hseg hxm
    rw [Text.joinWith_splitOn] at hmem
    exact absurd hmem hxs

end Target

namespace Alias

variable {x : Char}

theorem mem_dropExtension (hx : Breaks x) (t : Text) : x ∈ dropExtension t ↔ x ∈ t := by
  rcases dropExtension_cases t with he | ⟨ext, hext, he, -⟩
  · rw [he]
  · have hfresh := hx.not_mem_extension hext
    constructor
    · intro hm
      rw [he]
      exact List.mem_append_left _ hm
    · intro hm
      rw [he] at hm
      exact (List.mem_append.mp hm).resolve_right hfresh

/-- The segments that a climbing path is shortened by hold nothing but dots. -/
theorem mem_descent? (hx : x ≠ '.') (segments : List Text) :
    (∃ rest, descent? segments = some rest ∧ ∃ u ∈ rest, x ∈ u) ↔ ∃ u ∈ segments, x ∈ u := by
  induction segments with
  | nil => simp [descent?]
  | cons u us ih =>
    by_cases hu : u = ['.', '.'] ∨ u = ['.'] ∨ u = []
    · have hd : descent? (u :: us) = descent? us := by
        rcases hu with rfl | rfl | rfl <;> rfl
      have hfresh : x ∉ u := by
        rcases hu with rfl | rfl | rfl <;> simp [hx]
      rw [hd, ih]
      simp [hfresh]
    · have hd : descent? (u :: us) = some (u :: us) := by
        simp only [not_or] at hu
        simp [descent?, hu.1, hu.2.1, hu.2.2]
      simp [hd]

theorem mem_inside? (hs : x ≠ '/') (hd : x ≠ '.') (t : Text) :
    (∃ u, inside? t = some u ∧ x ∈ u) ↔ x ∈ t := by
  have hj : ∀ ss : List Text, x ∈ joinWith '/' ss ↔ ∃ u ∈ ss, x ∈ u := fun ss =>
    ⟨fun h => (Text.mem_joinWith h).resolve_left hs,
      fun ⟨_, hu, hm⟩ => Text.mem_joinWith_of_mem hu hm⟩
  unfold inside?
  split
  · rename_i rest hrest
    have ht : x ∈ t ↔ ∃ u ∈ rest, x ∈ u := by
      rw [← Text.joinWith_splitOn '/' t, hrest, hj]
      simp [hd]
    rw [ht, ← mem_descent? hd rest]
    simp [hj]
  · simp

/-- Without a mapping, an alias holds what breaks a quoted text exactly where a name does that the
file is reached through from the base. -/
theorem mem_fallback? {aliasPrefix : Text} (hx : Breaks x) (hp : x ∉ aliasPrefix)
    (base file : Path) : (∃ a, fallback? aliasPrefix base file = some a ∧ x ∈ a) ↔
      ∃ n, file.LeadsThrough base n ∧ x ∈ n := by
  rw [← Path.mem_relativeTo hx.ne_slash hx.ne_dot, ← Path.mem_slashed hx.ne_slash hx.ne_backslash,
    ← mem_inside? hx.ne_slash hx.ne_dot, fallback?, Path.relativeTo_normalize]
  cases inside? (file.relativeTo base).slashed with
  | none => simp
  | some relative =>
    have hm := mem_dropExtension hx relative
    by_cases hstem : dropExtension relative = []
    · simpa [hstem] using hm
    · simpa [hstem, hp] using hm

theorem mem_of_spelledExtension? {s : Specifier} {ext : Text} (h : spelledExtension? s = some ext) :
    ext ∈ sourceExtensions := by
  simp only [spelledExtension?] at h
  split at h
  · split_ifs at h with hc
    obtain rfl := Option.some.inj h
    simpa using hc
  · cases h

theorem mem_keepShape (hx : Breaks x) (s : Specifier) (target : Target) (a : Text) :
    x ∈ keepShape s target a ↔ x ∈ a := by
  unfold keepShape
  split_ifs with hv
  · cases hb : Text.before? "/index".toList a with
    | none => rfl
    | some b =>
      rw [Text.before?_eq_some.mp hb, Option.getD_some, List.mem_append,
        or_iff_left hx.not_mem_index]
  · split
    · rename_i ext hext
      have hfresh := hx.not_mem_extension (mem_of_spelledExtension? hext)
      split_ifs
      · rfl
      · rw [List.mem_append, or_iff_left hfresh]
    · rfl

end Alias

/-- In a project without a manifest, the alias of a specifier holds what breaks a quoted text
exactly where a name does that its target is reached through from the root. -/
theorem Project.mem_aliasOf {x : Char} (hx : Breaks x) {aliasPrefix : Text} (hp : x ∉ aliasPrefix)
    {project : Project} (hm : project.manifest = none) (tree : FileTree) (file : Path)
    (s : Specifier) : (∃ a, project.aliasOf tree aliasPrefix file s = .ok a ∧ x ∈ a) ↔
      ∃ n, (Target.resolve tree s file).path.LeadsThrough project.root n ∧ x ∈ n := by
  have hroot : ∀ p n, Path.LeadsThrough p project.root.normalize n ↔
      p.LeadsThrough project.root n := by
    simp [Path.LeadsThrough]
  have hf := Alias.mem_fallback? hx hp project.root.normalize (Target.resolve tree s file).path
  simp only [hroot] at hf
  rw [← hf]
  simp only [Project.aliasOf, Alias.ofFile?, hm, Alias.base, Option.bind_none, Option.none_or,
    Option.getD_none]
  cases Alias.fallback? aliasPrefix project.root.normalize (Target.resolve tree s file).path with
  | none => simp
  | some a => simp [Alias.mem_keepShape hx]

theorem Specifier.head?_of_exceeds {threshold : Nat} {s : Specifier}
    (h : s.exceeds threshold = true) : s.head? = some '.' := by
  by_contra hs
  simp [exceeds, climbDepth, hs] at h

namespace Header

variable {tree : FileTree} {options : Options} {file : Path} {text : Text}

/-- Neither a line break nor the character that a specifier stands between is in the specifier, and
both of them break quoted texts. -/
private theorem breaks_of_encloses {l : HeaderLine} (hl : l ∈ (scan text).lines) {c : Char}
    {s : Specifier} (he : l.Encloses c s) {x : Char} (hx : x = '\n' ∨ x = c) :
    Breaks x ∧ x ∉ s := by
  obtain ⟨hq, hf⟩ := quote_of_encloses hl he
  rcases hx with rfl | rfl
  · have hn := not_mem_text_of_mem_scan hl
    obtain ⟨lead, tail, rfl⟩ := he
    simp only [HeaderLine.text, List.mem_append, not_or] at hn
    exact ⟨.inl rfl, hn.1.2⟩
  · exact ⟨.inr hq, hf⟩

/-- No name that the target of the specifier is reached through from the root of the project holds
a line break or the character `c`. -/
def ClearWay (tree : FileTree) (options : Options) (file : Path) (c : Char) (s : Specifier) :
    Prop :=
  ∀ n, (Target.resolve tree s file).path.LeadsThrough (Project.ofFile tree options file).root n →
    '\n' ∉ n ∧ c ∉ n

/-- Every specifier of the header that gets an alias has a clear way. -/
def ClearWays (tree : FileTree) (options : Options) (file : Path) (h : Header) : Prop :=
  ∀ l ∈ h.lines, ∀ c s, l.Encloses c s → s.exceeds options.maxDepth = true →
    ClearWay tree options file c s

theorem intact_iff_clearWays (hm : (Project.ofFile tree options file).manifest = none)
    (hp : options.aliasPrefix = "@/".toList) :
    (scan text).Intact ((Resolver.ofFile tree options file).choose options.maxDepth) ↔
      (scan text).ClearWays tree options file := by
  have hclean : ∀ {x}, Breaks x → x ∉ options.aliasPrefix := by
    rintro x (rfl | rfl | rfl) <;> rw [hp] <;> decide
  have hforall : ∀ {t : Text} {c : Char}, ('\n' ∉ t ∧ c ∉ t) ↔ ∀ x, x = '\n' ∨ x = c → x ∉ t := by
    intro t c
    simp
  constructor
  · intro hi l hl c s he hd n hn
    refine hforall.mpr fun x hx hxn => ?_
    obtain ⟨hb, hxs⟩ := breaks_of_encloses hl he hx
    obtain ⟨a, ha, hxa⟩ := (Project.mem_aliasOf hb (hclean hb) hm tree file s).mpr ⟨n, hn, hxn⟩
    have hne : a ≠ s := fun h => hxs (h ▸ hxa)
    have hc : (Resolver.ofFile tree options file).choose options.maxDepth s = some a :=
      Resolver.choose_eq_some.mpr
        ⟨of_decide_eq_true hd, by simp [Resolver.ofFile, ha, Except.map], hne⟩
    exact hforall.mp (hi l hl c s a he hc) x hx hxa
  · intro hclear l hl c s a he hc
    obtain ⟨hd, hr, -⟩ := Resolver.choose_eq_some.mp hc
    have ha : (Project.ofFile tree options file).aliasOf tree options.aliasPrefix file s =
        .ok a := by
      unfold Resolver.ofFile at hr
      cases hok : (Project.ofFile tree options file).aliasOf tree options.aliasPrefix file s with
      | error e => simp [hok, Except.map] at hr
      | ok b => simpa [hok, Except.map] using hr
    refine hforall.mpr fun x hx hxa => ?_
    obtain ⟨hb, -⟩ := breaks_of_encloses hl he hx
    obtain ⟨n, hn, hxn⟩ := (Project.mem_aliasOf hb (hclean hb) hm tree file s).mp ⟨a, ha, hxa⟩
    exact hforall.mp (hclear l hl c s he (decide_eq_true hd) n hn) x hx hxn

/-- Directories without quotes and line breaks in their names leave every way clear. -/
theorem clearWays_of_directory
    (h : ∀ d, .normal d ∈ file.directory.normalComponents → ∀ x, Breaks x → x ∉ d) :
    (scan text).ClearWays tree options file := by
  intro l hl c s he hd n hn
  have hfresh : ∀ x, x = '\n' ∨ x = c → x ∉ n := by
    intro x hx hxn
    obtain ⟨hb, hxs⟩ := breaks_of_encloses hl he hx
    obtain ⟨d, hmem, hxd⟩ :=
      Target.exists_directory hb (Specifier.head?_of_exceeds hd) hxs hn.mem hxn
    exact h d hmem x hb hxd
  exact ⟨hfresh _ (.inl rfl), hfresh _ (.inr rfl)⟩

end Header

/-- In a project without a manifest and with the default prefix, no alias put into a header breaks
the quoted text that it is put into exactly if no name does that the target is reached through from
the root; and exactly then the new text has the same kinds of statements with their aliases as
specifiers. This is so for every text if the directories of the file are named without quotes and
line breaks. -/
theorem aliasHeader_intact_iff (tree : FileTree) (options : Options) (file : Path) (text : Text)
    (hm : (Project.ofFile tree options file).manifest = none)
    (hp : options.aliasPrefix = "@/".toList) :
    let resolve := Resolver.ofFile tree options file
    let choose := resolve.choose options.maxDepth
    let out := (aliasHeader resolve options.maxDepth text).text
    ((Header.scan text).Intact choose ↔ (Header.scan text).ClearWays tree options file) ∧
      ((Header.scan text).Intact choose ↔ Header.Rescans choose text out) ∧
      ((Header.slotted text).map (fun st => (st.line, st.specifier)) =
        (Header.scan text).candidates) ∧
      ((∀ d, .normal d ∈ file.directory.normalComponents → ∀ x, Breaks x → x ∉ d) →
        Header.Rescans choose text out) := by
  intro resolve choose out
  have hclear : (Header.scan text).Intact choose ↔ (Header.scan text).ClearWays tree options file :=
    Header.intact_iff_clearWays hm hp
  refine ⟨hclear, Header.rescans_iff.symm, Header.slotted_sites text, fun h => ?_⟩
  exact Header.rescans_iff.mpr (hclear.mpr (Header.clearWays_of_directory h))

def apostropheTree : FileTree :=
  (FileTree.empty.makeFile (.of "/p/package.json") (.text "\x7b\x7d".toList)).makeFile
    (.of "/p/it's/a/b/c.ts") (.text [])

/-- Between the other quotes an apostrophe does no harm. -/
theorem aliasHeader_intact_double :
    let file := Path.of "/p/it's/a/b/c.ts"
    let text := "import x from \"../../lib\";".toList
    let resolve := Resolver.ofFile apostropheTree {} file
    (Project.ofFile apostropheTree {} file).manifest = none ∧
      (aliasHeader resolve 1 text).text = "import x from \"@/it's/lib\";".toList ∧
      Header.Rescans (resolve.choose 1) text (aliasHeader resolve 1 text).text := by
  intro file text resolve
  have hm : (Project.ofFile apostropheTree {} file).manifest = none := by decide +kernel
  obtain ⟨hclear, hrescans, -⟩ := aliasHeader_intact_iff apostropheTree {} file text hm rfl
  refine ⟨hm, by decide +kernel, hrescans.mp (hclear.mpr ?_)⟩
  have hlines : (Header.scan text).lines = [.slot "import x from \"".toList "../../lib".toList
      "\";".toList] := by
    decide +kernel
  have hway : (Target.resolve apostropheTree "../../lib".toList file).path.normalComponents =
      [.root, .normal "p".toList, .normal "it's".toList, .normal "lib".toList] := by
    decide +kernel
  intro l hl c s he hd n hn
  rw [hlines, List.mem_singleton] at hl
  obtain ⟨lead, tail, rfl⟩ := he
  obtain ⟨-, rfl, htail⟩ := HeaderLine.slot.inj hl
  obtain rfl : c = '"' := (List.cons.inj htail).1
  have hmem := hn.mem
  simp only [hway, List.mem_cons, Path.Component.normal.injEq, reduceCtorEq, List.not_mem_nil,
    false_or, or_false] at hmem
  rcases hmem with rfl | rfl | rfl <;> decide

/-- Between apostrophes the name of the directory ends the quoted text, and the new line is no
statement of the header any more. -/
theorem aliasHeader_apostrophe :
    let file := Path.of "/p/it's/a/b/c.ts"
    let text := "import x from '../../lib';\n".toList
    let resolve := Resolver.ofFile apostropheTree {} file
    let out := (aliasHeader resolve 1 text).text
    (Project.ofFile apostropheTree {} file).manifest = none ∧
      out = "import x from '@/it's/lib';\n".toList ∧
      Header.slotted text = [⟨1, .importFrom, "../../lib".toList⟩] ∧ Header.slotted out = [] ∧
      ¬(Header.scan text).Intact (resolve.choose 1) := by
  intro file text resolve out
  refine ⟨by decide +kernel, by decide +kernel, by decide +kernel, by decide +kernel, fun hi => ?_⟩
  have hmem : HeaderLine.slot "import x from '".toList "../../lib".toList "';".toList ∈
      (Header.scan text).lines := by
    decide +kernel
  have ha : resolve.choose 1 "../../lib".toList = some "@/it's/lib".toList := by decide +kernel
  have hc := hi _ hmem '\x27' _ _ ⟨"import x from ".toList, ";".toList, rfl⟩ ha
  exact hc.2 (by decide)

end ImportAlias
