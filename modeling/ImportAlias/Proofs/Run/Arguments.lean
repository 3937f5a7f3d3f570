import ImportAlias.Proofs.Path.Order
import ImportAlias.Proofs.Run.Writing
import Mathlib.Data.List.Sort

/-! The paths of a request. They lead to a set of files: in which order they are given, and whether
one leads to files that another leads to, changes nothing in a run. -/
namespace ImportAlias

theorem exists_mapM_eq_ok_iff {ε α β : Type} {f : α → Except ε β} {xs : List α} :
    (∃ ys, xs.mapM f = .ok ys) ↔ ∀ x ∈ xs, ∃ y, f x = .ok y := by
  induction xs with
  | nil => simp [pure, Except.pure]
  | cons x xs ih =>
    rw [List.forall_mem_cons, ← ih, List.mapM_cons]
    constructor
    · rintro ⟨zs, h⟩
      obtain ⟨y, hy, h⟩ := bind_eq_ok h
      obtain ⟨ys, hys, -⟩ := bind_eq_ok h
      exact ⟨⟨y, hy⟩, ys, hys⟩
    · rintro ⟨⟨y, hy⟩, ys, hys⟩
      exact ⟨y :: ys, by simp [hy, hys, bind, Except.bind, pure, Except.pure]⟩

namespace SourceFile

variable {f g : SourceFile} {tree : FileTree} {k l : Location}

instance : IsStrictOrder SourceFile fun f g => f.path.lt g.path = true where
  irrefl f := irrefl_of (fun p q => Path.lt p q = true) f.path
  trans _ _ _ := trans_of fun p q => Path.lt p q = true

/-- Of two files of a tree one comes first. -/
theorem At.eq_of_not_lt (ht : tree.IsProper) (hf : f.At tree k) (hg : g.At tree l)
    (h : ¬f.path.lt g.path = true) (h' : ¬g.path.lt f.path = true) : f = g := by
  have hc := Path.components_eq_of_not_lt h h'
  rw [hf.path_eq, hg.path_eq, FileTree.components_pathOf (ht.names hf.isSome),
    FileTree.components_pathOf (ht.names hg.isSome)] at hc
  have hkl : k = l := by
    refine List.map_injective_iff.mpr ?_ (List.cons.inj hc).2
    intro m n hmn
    exact Path.Component.normal.inj hmn
  exact hf.eq (hkl ▸ hg)

/-- Sorted files come one after the other, or are the same. -/
theorem pairwise_mergeSort (ht : tree.IsProper) {files : List SourceFile}
    (hat : ∀ f ∈ files, ∃ l, f.At tree l) :
    (files.mergeSort fun a b => !b.path.lt a.path).Pairwise
      fun f g => f = g ∨ f.path.lt g.path = true := by
  have hsorted := @List.pairwise_mergeSort _ (fun a b : SourceFile => !b.path.lt a.path)
    (by
      intro a b c hab hbc
      simp only [Bool.not_eq_true'] at hab hbc ⊢
      by_contra hca
      rcases Path.lt_or_lt (by simpa using hca) b.path with h | h
      · simp [h] at hbc
      · simp [h] at hab)
    (by
      intro a b
      by_contra h
      simp only [Bool.not_eq_true, Bool.or_eq_false_iff, Bool.not_eq_false'] at h
      exact asymm_of (fun p q => Path.lt p q = true) h.1 h.2)
    files
  refine hsorted.imp_of_mem ?_
  intro a b ha hb hab
  obtain ⟨k, ha⟩ := hat a (List.mem_mergeSort.mp ha)
  obtain ⟨l, hb⟩ := hat b (List.mem_mergeSort.mp hb)
  by_cases h : a.path.lt b.path = true
  · exact .inr h
  · exact .inl (ha.eq_of_not_lt ht hb h (by simpa using hab))

end SourceFile

namespace Request

section

variable {files : List SourceFile}

theorem mem_dropRepeated (h : files.Pairwise fun f g => f = g ∨ f.path.lt g.path = true)
    {f : SourceFile} : f ∈ dropRepeated files ↔ f ∈ files := by
  fun_induction dropRepeated files with
  | case1 a b rest he ih =>
    have hab : a = b := by
      refine ((List.pairwise_cons.mp h).1 b List.mem_cons_self).resolve_right fun hlt => ?_
      exact irrefl_of (fun p q => Path.lt p q = true) b.path (he ▸ hlt)
    subst hab
    simp [ih h.tail]
  | case2 a b rest he ih => simp [ih h.tail]
  | case3 files _ => rfl

theorem pairwise_dropRepeated (h : files.Pairwise fun f g => f = g ∨ f.path.lt g.path = true) :
    (dropRepeated files).Pairwise fun f g => f.path.lt g.path = true := by
  fun_induction dropRepeated files with
  | case1 a b rest he ih => exact ih (h.sublist ((List.sublist_cons_self b rest).cons_cons a))
  | case2 a b rest he ih =>
    obtain ⟨ha, hrest⟩ := List.pairwise_cons.mp h
    have hab : a.path.lt b.path = true :=
      (ha b List.mem_cons_self).resolve_left fun h => he (congrArg _ h)
    refine List.pairwise_cons.mpr ⟨fun f hf => ?_, ih hrest⟩
    rcases List.mem_cons.mp ((mem_dropRepeated hrest).mp hf) with rfl | hf
    · exact hab
    · rcases (List.pairwise_cons.mp hrest).1 f hf with rfl | hbf
      · exact hab
      · exact trans_of (fun p q => Path.lt p q = true) hab hbf
  | case3 files hfiles =>
    rcases files with _ | ⟨a, _ | ⟨b, rest⟩⟩
    · exact .nil
    · exact List.pairwise_singleton _ a
    · exact absurd rfl (hfiles a b rest)

end

variable {r : Request} {tree : FileTree} {cwd : Path} {files : List SourceFile}

/-- A path of the request leads to a file. -/
def LeadsTo (r : Request) (tree : FileTree) (cwd : Path) (f : SourceFile) : Prop :=
  ∃ path ∈ r.paths, ∃ root found, tree.canonical? (cwd.join path) = some root ∧
    tree.discover r.selection root = .ok found ∧ f ∈ found

theorem exists_files_iff :
    (∃ files, r.files tree cwd = .ok files) ↔
      ∀ path ∈ r.paths, ∃ found, r.filesAt tree cwd path = .ok found := by
  rw [← exists_mapM_eq_ok_iff]
  constructor
  · rintro ⟨files, h⟩
    obtain ⟨found, hfound, -⟩ := of_files_eq_ok h
    exact ⟨found, hfound⟩
  · rintro ⟨found, h⟩
    exact ⟨_, by simp only [Request.files, h]; rfl⟩

section

variable (ht : tree.IsProper) (h : r.files tree cwd = .ok files)
include ht h

theorem mem_files_iff_flatten {found : List (List SourceFile)}
    (hfound : r.paths.mapM (r.filesAt tree cwd) = .ok found) {f : SourceFile} :
    f ∈ files ↔ f ∈ found.flatten := by
  obtain ⟨found', hfound', rfl⟩ := of_files_eq_ok h
  obtain rfl := Except.ok.inj (hfound.symm.trans hfound')
  have hat : ∀ f ∈ found.flatten, ∃ l, f.At tree l := fun f => at_of_mem_flatten ht hfound
  rw [mem_dropRepeated (SourceFile.pairwise_mergeSort ht hat), List.mem_mergeSort]

/-- The files of a request are those that its paths lead to. -/
theorem mem_files_iff {f : SourceFile} : f ∈ files ↔ r.LeadsTo tree cwd f := by
  obtain ⟨found, hfound, -⟩ := of_files_eq_ok h
  rw [mem_files_iff_flatten ht h hfound, List.mem_flatten]
  constructor
  · rintro ⟨part, hpart, hf⟩
    obtain ⟨path, hpath, hp⟩ := (mem_of_mapM_eq_ok hfound).mp hpart
    obtain ⟨root, hroot, hd⟩ := filesAt_eq_ok_iff.mp hp
    exact ⟨path, hpath, root, part, hroot, hd, hf⟩
  · rintro ⟨path, hpath, root, part, hroot, hd, hf⟩
    have hp : r.filesAt tree cwd path = .ok part := filesAt_eq_ok_iff.mpr ⟨root, hroot, hd⟩
    exact ⟨part, (mem_of_mapM_eq_ok hfound).mpr ⟨path, hpath, hp⟩, hf⟩

/-- They stand by increasing path, so none is there twice. -/
theorem pairwise_files : files.Pairwise fun f g => f.path.lt g.path = true := by
  obtain ⟨found, hfound, rfl⟩ := of_files_eq_ok h
  exact pairwise_dropRepeated
    (SourceFile.pairwise_mergeSort ht fun f => at_of_mem_flatten ht hfound)

/-- The same paths in another order, or more than once, lead to the same files. -/
theorem files_eq_of_mem_iff {paths : List Path} (hp : ∀ p, p ∈ paths ↔ p ∈ r.paths) :
    { r with paths }.files tree cwd = .ok files := by
  obtain ⟨files', h'⟩ : ∃ files', { r with paths }.files tree cwd = .ok files' := by
    refine exists_files_iff.mpr fun path hpath => ?_
    exact exists_files_iff.mp ⟨files, h⟩ path ((hp path).mp hpath)
  have heq : files' = files := by
    refine (pairwise_files ht h').eq_of_mem_iff (pairwise_files ht h) fun f => ?_
    rw [mem_files_iff ht h', mem_files_iff ht h]
    simp only [LeadsTo, hp]
  exact heq ▸ h'

end

theorem output_perm {paths : List Path} (hp : paths.Perm r.paths) (report : Report) :
    { r with paths }.output report = r.output report := by
  unfold output
  rcases hr : r.paths with _ | ⟨p, _ | ⟨q, rest⟩⟩
  · rw [hr] at hp
    simp [hp.eq_nil]
  · rw [hr] at hp
    simp [List.perm_singleton.mp hp]
  · rw [hr] at hp
    rcases paths with _ | ⟨p', _ | ⟨q', rest'⟩⟩
    · simp at hp
    · simp at hp
    · simp

/-- A run that succeeds is the run with its paths in any order. -/
theorem run_perm (ht : tree.IsProper) {paths : List Path} (hp : paths.Perm r.paths)
    {out : RunOutcome × FileTree} (h : r.run tree cwd = .ok out) :
    { r with paths }.run tree cwd = .ok out := by
  obtain ⟨options, files, ho, hf⟩ := of_run_eq_ok h
  have ho' : { r with paths }.options tree cwd = .ok options := ho
  have hf' := files_eq_of_mem_iff ht hf fun p => hp.mem_iff (a := p)
  rw [← h, run_eq ho hf, run_eq ho' hf']
  simp only [outcomeOn, output_perm hp]
  rfl

/-- A run does not depend on the order of its paths: it fails in any order, or succeeds with one
outcome in all of them. If it succeeds, its files are those that some path leads to, and each is
reported once, by increasing path. The tree has no links, and no write fails. -/
theorem run_paths (ht : tree.IsProper) (r : Request) (cwd : Path) :
    (∀ paths : List Path, paths.Perm r.paths →
      (∃ e e', r.run tree cwd = .error e ∧ { r with paths }.run tree cwd = .error e') ∨
      ∃ out, r.run tree cwd = .ok out ∧ { r with paths }.run tree cwd = .ok out) ∧
    ∀ out after, r.run tree cwd = .ok (out, after) →
      ∃ (options : Options) (files : List SourceFile), r.options tree cwd = .ok options ∧
        (∀ f, f ∈ files ↔ r.LeadsTo tree cwd f) ∧
        files.Pairwise (fun f g => f.path.lt g.path = true) ∧
        out.report.scanned = files.length ∧
        out.report.files =
          files.map (·.reported tree options ((tree.canonical? cwd).getD cwd)) ∧
        after = if r.write then tree.writeReports (files.zip out.report.files) else tree := by
  constructor
  · intro paths hp
    cases h : r.run tree cwd with
    | ok out => exact .inr ⟨out, rfl, run_perm ht hp h⟩
    | error e =>
      cases h' : { r with paths }.run tree cwd with
      | error e' => exact .inl ⟨e, e', rfl, rfl⟩
      | ok out =>
        have hr := run_perm (r := { r with paths }) ht hp.symm h'
        exact absurd (h.symm.trans hr) (by simp)
  · intro out after h
    obtain ⟨options, files, ho, hf⟩ := of_run_eq_ok h
    rw [run_eq ho hf] at h
    obtain ⟨rfl, rfl⟩ := Prod.mk.inj (Except.ok.inj h)
    refine ⟨options, files, ho, fun f => mem_files_iff ht hf, pairwise_files ht hf, ?_, ?_, ?_⟩
    · simp [outcomeOn, Report.ofFiles, reportsOn]
    · simp [outcomeOn, Report.ofFiles, reportsOn]
    · simp only [outcomeOn, Report.ofFiles, zip_reportsOn]

def overlapTree : FileTree :=
  ⟨[(["p".toList], .directory), (["p".toList, "a-b".toList], .directory),
    (["p".toList, "a-b".toList, "c".toList], .directory),
    (["p".toList, "a-b".toList, "c".toList, "x.ts".toList],
      .file (.text "import x from \"../../x\";".toList)),
    (["p".toList, "a".toList], .directory),
    (["p".toList, "a".toList, "y.vue".toList], .file (.text []))]⟩

/-- The request for a directory, a directory in it, the file in that twice, and another one. -/
def overlapping : Request :=
  { paths := [.of "a-b/c/x.ts", .of "a-b", .of "a-b/c", .of "a-b/c/x.ts", .of "a"] }

def overlapFiles : List SourceFile := [⟨.of "/p/a/y.vue", .vue⟩, ⟨.of "/p/a-b/c/x.ts", .typeScript⟩]

theorem isProper_overlapTree : overlapTree.IsProper := by decide +kernel

theorem options_overlapping : overlapping.options overlapTree (.of "/p") = .ok {} := by
  decide +kernel

theorem files_overlapping : overlapping.files overlapTree (.of "/p") = .ok overlapFiles := by
  have hfound : overlapping.paths.mapM (overlapping.filesAt overlapTree (.of "/p")) =
      .ok (List.replicate 4 overlapFiles.tail ++ [overlapFiles.take 1]) := by decide +kernel
  obtain ⟨files, hf⟩ : ∃ files, overlapping.files overlapTree (.of "/p") = .ok files :=
    ⟨_, by simp only [Request.files, hfound]; rfl⟩
  have heq : files = overlapFiles := by
    refine (pairwise_files isProper_overlapTree hf).eq_of_mem_iff (by decide +kernel) fun f => ?_
    rw [mem_files_iff_flatten isProper_overlapTree hf hfound]
    simp [overlapFiles, or_comm]
  exact heq ▸ hf

theorem run_paths_overlapping : overlapTree.IsProper ∧
    ∃ out after, overlapping.run overlapTree (.of "/p") = .ok (out, after) ∧
      { overlapping with paths := overlapping.paths.reverse }.run overlapTree (.of "/p") =
        .ok (out, after) ∧
      out.report.scanned = 2 ∧
      out.report.files = overlapFiles.map (·.reported overlapTree {} (.of "/p")) := by
  have ht := isProper_overlapTree
  obtain ⟨⟨out, after⟩, hrun⟩ : ∃ out, overlapping.run overlapTree (.of "/p") = .ok out :=
    ⟨_, run_eq options_overlapping files_overlapping⟩
  obtain ⟨hperm, hfiles⟩ := run_paths ht overlapping (.of "/p")
  obtain ⟨options, files, ho, hmem, hsorted, hscanned, hreports, -⟩ := hfiles out after hrun
  obtain rfl : {} = options := Except.ok.inj (options_overlapping.symm.trans ho)
  obtain rfl : files = overlapFiles :=
    hsorted.eq_of_mem_iff (pairwise_files ht files_overlapping) fun f =>
      (hmem f).trans (mem_files_iff ht files_overlapping).symm
  have hcwd : (overlapTree.canonical? (.of "/p")).getD (.of "/p") = .of "/p" := by decide +kernel
  rw [hcwd] at hreports
  refine ⟨ht, out, after, hrun, ?_, hscanned, hreports⟩
  rcases hperm _ (List.reverse_perm _) with ⟨e, -, he, -⟩ | ⟨out', hout, h⟩
  · exact absurd (hrun.symm.trans he) (by simp)
  · exact h.trans (hout.symm.trans hrun)

end Request

end ImportAlias
