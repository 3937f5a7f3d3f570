import ImportAlias.Run
import ImportAlias.Proofs.FileTree
import ImportAlias.Proofs.Path.Normal

/-! What a run reads besides the source files: ignore files, options, manifests. Rewriting source
files does not touch them, so that discovery, options and resolution stay as they were. -/
namespace ImportAlias

namespace SourceKind

open ImportAlias.Path (IsName)

theorem fileName?_pathOf {k : Location} {n : Text} (h : ∀ m ∈ k ++ [n], IsName m) :
    (FileTree.pathOf (k ++ [n])).fileName? = some n := by
  have hlast : (Path.Component.root :: (k ++ [n]).map .normal).getLast? = some (.normal n) := by
    rw [List.map_append, ← List.cons_append]
    exact List.getLast?_concat
  simp only [Path.fileName?, FileTree.components_pathOf h, hlast]

theorem fileName?_name {n : Text} (h : IsName n) : (Path.mk n).fileName? = some n := by
  have hs : Text.splitOn '/' n = [n] := Text.splitOn_of_not_mem h.no_slash
  have hc : (Path.mk n).components = [.normal n] := by
    rw [Path.components_of_head? (by simp [hs, h.ne_current])]
    simp [Path.steps, h.relative, hs, h.ofSegment?]
  simp [Path.fileName?, hc]

/-- The kind of a file depends on its name alone. -/
theorem ofPath?_pathOf {k : Location} {n : Text} (h : ∀ m ∈ k ++ [n], IsName m) :
    ofPath? (FileTree.pathOf (k ++ [n])) = ofPath? ⟨n⟩ := by
  have hn : IsName n := h n (by simp)
  simp only [ofPath?, Path.extension?, fileName?_pathOf h, fileName?_name hn]

end SourceKind

namespace FileTree

theorem walk_concat {tree : FileTree} {l l' : Location} {segments : List Text} {n : Text}
    (hn : Path.IsName n) (h : tree.walk l (segments ++ [n]) = .ok l') : ∃ k, l' = k ++ [n] := by
  induction segments generalizing l with
  | nil =>
    rw [List.nil_append, walk_cons] at h
    have htrivial : Path.isTrivial n = false := by simp [Path.isTrivial, hn.ne_nil, hn.ne_current]
    simp only [htrivial, hn.ne_parent, Bool.false_eq_true, if_false] at h
    split_ifs at h
    exact ⟨l, (Except.ok.inj h).symm⟩
  | cons s rest ih =>
    rw [List.cons_append, walk_cons] at h
    split_ifs at h <;> exact ih h

/-- What a name in a directory leads to has that name. -/
theorem locate_join_name {tree : FileTree} {p : Path} {n : Text} (hn : Path.IsName n) {l : Location}
    (h : tree.locate (p.join ⟨n⟩) = .ok l) : ∃ k, l = k ++ [n] := by
  have ht : (p.join ⟨n⟩).text = n ∨ ∃ t, (p.join ⟨n⟩).text = t ++ '/' :: n := by
    unfold Path.join
    rw [if_neg (by simp [hn.relative])]
    split_ifs with hp
    · rcases hp with hp | hp
      · simp [hp]
      · obtain ⟨t, ht⟩ := List.getLast?_eq_some_iff.mp hp
        exact .inr ⟨t, by simp [ht]⟩
    · exact .inr ⟨p.text, rfl⟩
  unfold locate at h
  split at h
  · rename_i rest heq
    have hsplit : ∃ segments, Text.splitOn '/' rest = segments ++ [n] := by
      rcases ht with ht | ⟨t, ht⟩
      · rw [heq] at ht
        exact absurd (ht ▸ List.mem_cons_self) hn.no_slash
      · rw [heq] at ht
        cases t with
        | nil =>
          obtain rfl : rest = n := by simpa using ht
          exact ⟨[], Text.splitOn_of_not_mem hn.no_slash⟩
        | cons c t =>
          obtain rfl : rest = t ++ '/' :: n := by simpa using (List.cons.inj ht).2
          exact ⟨_, by rw [Text.splitOn_append, Text.splitOn_of_not_mem hn.no_slash]⟩
    obtain ⟨segments, hs⟩ := hsplit
    rw [hs] at h
    exact walk_concat hn h
  · cases h

section Rewritten

variable {P : Location → Prop} {a b : FileTree} (h : Rewritten P a b)
include h

theorem Rewritten.isFile_eq (p : Path) : a.isFile p = b.isFile p := by
  unfold isFile entryAt?
  rw [h.locate_eq]
  cases hl : b.locate p with
  | error e => rfl
  | ok l =>
    rcases h.lookup l with he | ⟨-, x, y, hx, hy, hr⟩
    · simp only [he]
    · rcases hr with rfl | ⟨t, u, rfl, rfl⟩
      · simp only [hx, hy]
      · simp only [hx, hy]

theorem Rewritten.contains_eq (p : Path) : a.contains p = b.contains p := by
  unfold contains entryAt?
  rw [h.locate_eq]
  cases hl : b.locate p with
  | error e => rfl
  | ok l => exact h.isSome_eq l

theorem Rewritten.isDirectory_eq (p : Path) : a.isDirectory p = b.isDirectory p := by
  unfold isDirectory entryAt?
  rw [h.locate_eq]
  cases hl : b.locate p with
  | error e => rfl
  | ok l => rw [Bool.eq_iff_iff, beq_iff_eq, beq_iff_eq, h.isDirectory_iff l]

theorem Rewritten.canonical?_eq (p : Path) : a.canonical? p = b.canonical? p := by
  unfold canonical?
  rw [h.locate_eq]

/-- What does not depend on the texts of files is the same for the entries of both trees. -/
theorem Rewritten.filterMap_eq {β : Type} {g : Location × Entry → Option β}
    (hg : ∀ l x y, Refilled x y → g (l, x) = g (l, y)) :
    a.entries.filterMap g = b.entries.filterMap g := by
  obtain ⟨a⟩ := a
  obtain ⟨b⟩ := b
  simp only [Rewritten] at h ⊢
  induction h with
  | nil => rfl
  | cons hxy _ ih =>
    rename_i x y as bs _
    obtain ⟨l, e⟩ := x
    obtain ⟨l', e'⟩ := y
    obtain ⟨hkey, hentry⟩ := hxy
    obtain rfl : l = l' := hkey
    have he : g (l, e) = g (l, e') := by
      rcases hentry with heq | ⟨-, hr⟩
      · exact congrArg (fun e => g (l, e)) heq
      · exact hg l e e' hr
    simp [List.filterMap_cons, he, ih]

end Rewritten

/-- The second tree is the first with other texts in source files. -/
structure Resourced (P : Location → Prop) (a b : FileTree) : Prop where
  proper : a.IsProper
  rewritten : Rewritten P a b
  source : ∀ l, P l → (a.lookup l).isSome = true ∧ (SourceKind.ofPath? (pathOf l)).isSome = true

namespace Resourced

variable {P : Location → Prop} {a b : FileTree} (h : Resourced P a b)
include h

theorem lookup_apart {l : Location} (hl : ¬P l) : a.lookup l = b.lookup l := by
  rcases h.rewritten.lookup l with he | ⟨hP, -⟩
  · exact he
  · exact absurd hP hl

theorem read_apart {p : Path} (hp : ∀ l, a.locate p = .ok l → ¬P l) : a.read p = b.read p := by
  unfold read
  rw [← h.rewritten.locate_eq]
  cases hl : a.locate p with
  | error e => rfl
  | ok l => simp only [h.lookup_apart (hp l hl)]

theorem not_named {k : Location} {n : Text} (hn : SourceKind.ofPath? ⟨n⟩ = none) :
    ¬P (k ++ [n]) := by
  intro hP
  obtain ⟨hsome, hsource⟩ := h.source _ hP
  rw [SourceKind.ofPath?_pathOf (h.proper.names hsome), hn] at hsource
  exact absurd hsource (by simp)

/-- Files whose names are not those of source files are read as before. -/
theorem read_named (p : Path) {n : Text} (hname : Path.IsName n)
    (hn : SourceKind.ofPath? ⟨n⟩ = none) : a.read (p.join ⟨n⟩) = b.read (p.join ⟨n⟩) := by
  refine h.read_apart fun l hl => ?_
  obtain ⟨k, rfl⟩ := locate_join_name hname hl
  exact h.not_named hn

/-! Discovery -/

theorem load_eq {d : Location} {file : List String}
    (hfile : file ∈ [[".ignore"], [".gitignore"], [".git", "info", "exclude"]]) :
    IgnoreList.load a (d ++ file.map String.toList) =
      IgnoreList.load b (d ++ file.map String.toList) := by
  have hl : ∃ k n, d ++ file.map String.toList = k ++ [n] ∧ SourceKind.ofPath? ⟨n⟩ = none := by
    simp only [List.mem_cons, List.not_mem_nil, or_false] at hfile
    rcases hfile with rfl | rfl | rfl
    · exact ⟨d, ".ignore".toList, rfl, by decide +kernel⟩
    · exact ⟨d, ".gitignore".toList, rfl, by decide +kernel⟩
    · exact ⟨d ++ [".git".toList, "info".toList], "exclude".toList, by simp, by decide +kernel⟩
  obtain ⟨k, n, hl, hn⟩ := hl
  unfold IgnoreList.load
  rw [hl, h.lookup_apart (h.not_named hn)]

theorem hasFlawedRules_eq (l : Location) : a.hasFlawedRules l = b.hasFlawedRules l := by
  unfold hasFlawedRules
  simp only [List.any_cons, List.any_nil]
  rw [h.load_eq (by simp), h.load_eq (by simp), h.load_eq (by simp)]

theorem firstVerdict?_eq (dirs : List Location) {file : List String}
    (hfile : file ∈ [[".ignore"], [".gitignore"], [".git", "info", "exclude"]]) (l : Location)
    (isDirectory : Bool) :
    a.firstVerdict? dirs file l isDirectory = b.firstVerdict? dirs file l isDirectory := by
  unfold firstVerdict?
  simp only [h.load_eq hfile]

theorem ignoreVerdict?_eq (l : Location) (isDirectory : Bool) :
    a.ignoreVerdict? l isDirectory = b.ignoreVerdict? l isDirectory := by
  have hchain : a.repositoryChain l.dropLast = b.repositoryChain l.dropLast := by
    simp only [repositoryChain, isRepository, h.rewritten.isSome_eq]
  simp only [ignoreVerdict?, hchain]
  rw [h.firstVerdict?_eq _ (by simp), h.firstVerdict?_eq _ (by simp),
    h.firstVerdict?_eq _ (by simp)]

theorem sourceFiles_eq (rules : IgnoreList) (root : Path) (base : Location) :
    a.sourceFiles rules root base = b.sourceFiles rules root base := by
  have hfound : ∀ l, a.isFound rules base l = b.isFound rules base l := fun l => by
    simp only [isFound, isLeftOut, h.ignoreVerdict?_eq]
  unfold sourceFiles
  simp only [hfound]
  congr 1
  refine h.rewritten.filterMap_eq fun l x y hr => ?_
  rcases hr with rfl | ⟨t, u, rfl, rfl⟩ <;> rfl

theorem discover_eq (s : Selection) (root : Path) : a.discover s root = b.discover s root := by
  have hflawed : a.hasFlawedRules = b.hasFlawedRules := funext h.hasFlawedRules_eq
  simp only [discover, h.rewritten.isFile_eq, h.rewritten.locate_eq, hflawed, h.sourceFiles_eq]

theorem files_eq (r : Request) (cwd : Path) : r.files a cwd = r.files b cwd := by
  have hat : r.filesAt a cwd = r.filesAt b cwd := by
    funext path
    simp only [Request.filesAt, h.rewritten.canonical?_eq, h.discover_eq]
  simp only [Request.files, hat]

/-! Options -/

theorem ofProject_eq (root : Path) : Options.ofProject a root = Options.ofProject b root := by
  have hfind : Options.find? a root none = Options.find? b root none := by
    have hfile : a.isFile = b.isFile := funext h.rewritten.isFile_eq
    simp only [Options.find?, hfile]
  unfold Options.ofProject
  rw [← hfind]
  cases hp : Options.find? a root none with
  | none => rfl
  | some path =>
    have hread : a.read path = b.read path := by
      have hmem := List.mem_of_find?_eq_some hp
      simp only [Options.fileNames, Path.of, List.map_cons, List.map_nil, List.mem_cons,
        List.not_mem_nil, or_false] at hmem
      rcases hmem with rfl | rfl
      · exact h.read_named root (by decide) (by decide +kernel)
      · exact h.read_named root (by decide) (by decide +kernel)
    simp only [Options.load, hread]

theorem options_eq {r : Request} {cwd : Path}
    (hr : ∀ p, r.optionsFile = some p → ∀ l, a.locate (cwd.join p) = .ok l → ¬P l) :
    r.options a cwd = r.options b cwd := by
  unfold Request.options
  cases ho : r.optionsFile with
  | none => simp only [h.ofProject_eq]
  | some p =>
    have hread := h.read_apart (hr p ho)
    simp only [Options.find?, h.rewritten.contains_eq]
    split
    · rfl
    · rename_i heq
      obtain rfl := Option.some.inj (Option.ite_none_right_eq_some.mp heq).2
      simp only [Options.load, hread]

/-! Resolution -/

theorem rootOf_eq (file : Path) : Project.rootOf a file = Project.rootOf b file := by
  simp only [Project.rootOf, h.rewritten.contains_eq]

theorem load?_eq {path : Path} (hp : a.read path = b.read path) :
    Manifest.load? a path = Manifest.load? b path := by
  simp only [Manifest.load?, Manifest.load, h.rewritten.isFile_eq, hp]

theorem detectFramework_eq (root : Path) :
    Project.detectFramework a root = Project.detectFramework b root := by
  have hread : a.read (root.join (.of "package.json")) = b.read (root.join (.of "package.json")) :=
    h.read_named root (by decide) (by decide +kernel)
  simp only [Project.detectFramework, h.rewritten.contains_eq, hread]

theorem foundManifest_eq (root : Path) :
    ((Project.findManifest? a root).bind fun (_, path) => Manifest.load? a path) =
      (Project.findManifest? b root).bind fun (_, path) => Manifest.load? b path := by
  have hload : ∀ m : Path, Path.IsName m.text → SourceKind.ofPath? m = none →
      Manifest.load? a (root.join m) = Manifest.load? b (root.join m) :=
    fun _ hname hm => h.load?_eq (h.read_named root hname hm)
  have hts := hload (.of "tsconfig.json") (by decide) (by decide +kernel)
  have hjs := hload (.of "jsconfig.json") (by decide) (by decide +kernel)
  unfold Project.findManifest?
  simp only [h.rewritten.isFile_eq]
  split_ifs
  · exact hts
  · exact hjs
  · rfl

theorem project_eq {options : Options} {file : Path}
    (hm : ∀ p, options.explicitManifest? = some p →
      ∀ l, a.locate ((Project.rootOf a file).join p) = .ok l → ¬P l) :
    Project.ofFile a options file = Project.ofFile b options file := by
  simp only [Project.ofFile, ← h.rootOf_eq, ← h.detectFramework_eq]
  congr 1
  split
  · rename_i p hp
    exact h.load?_eq (h.read_apart (hm p hp))
  · exact h.foundManifest_eq _

theorem resolver_eq {options : Options} {file : Path}
    (hm : ∀ p, options.explicitManifest? = some p →
      ∀ l, a.locate ((Project.rootOf a file).join p) = .ok l → ¬P l) :
    Resolver.ofFile a options file = Resolver.ofFile b options file := by
  have hfile : a.isFile = b.isFile := funext h.rewritten.isFile_eq
  have hresolve : Target.resolve a = Target.resolve b := by
    funext s file
    simp only [Target.resolve, Target.probe, hfile, h.rewritten.isDirectory_eq]
  simp only [Resolver.ofFile, Project.aliasOf, h.project_eq hm, hresolve]

end Resourced

end FileTree

end ImportAlias
