import ImportAlias.Run
import ImportAlias.Proofs.FileTree

/-! The files of a request: each is a file of the tree, under the path that leads there. -/
namespace ImportAlias

theorem bind_eq_ok {ε α β : Type} {x : Except ε α} {f : α → Except ε β} {b : β}
    (h : x >>= f = .ok b) : ∃ a, x = .ok a ∧ f a = .ok b := by
  cases x with
  | error e => cases h
  | ok a => exact ⟨a, rfl, h⟩

theorem mem_of_mapM_eq_ok {ε α β : Type} {f : α → Except ε β} {xs : List α} {ys : List β}
    (h : xs.mapM f = .ok ys) {y : β} : y ∈ ys ↔ ∃ x ∈ xs, f x = .ok y := by
  induction xs generalizing ys with
  | nil =>
    cases h
    simp
  | cons x xs ih =>
    rw [List.mapM_cons] at h
    obtain ⟨z, hz, h⟩ := bind_eq_ok h
    obtain ⟨zs, hzs, h⟩ := bind_eq_ok h
    obtain rfl := Except.ok.inj h
    simp [ih hzs, hz, eq_comm]

/-- A source file stands at a location of a tree. -/
structure SourceFile.At (f : SourceFile) (tree : FileTree) (l : Location) : Prop where
  path_eq : f.path = FileTree.pathOf l
  kind_eq : SourceKind.ofPath? f.path = some f.kind
  isFile : ∃ c, tree.lookup l = some (.file c)

namespace SourceFile.At

variable {f f' : SourceFile} {tree : FileTree} {l : Location}

theorem isSome (h : f.At tree l) : (tree.lookup l).isSome = true := by
  obtain ⟨c, hc⟩ := h.isFile
  simp [hc]

theorem locate (h : f.At tree l) (ht : tree.IsProper) : tree.locate f.path = .ok l := by
  rw [h.path_eq]
  exact ht.locate_pathOf h.isSome

theorem ne_nil (h : f.At tree l) : l ≠ [] := by
  rintro rfl
  obtain ⟨c, hc⟩ := h.isFile
  simp at hc

/-- A location holds one source file at most. -/
theorem eq (h : f.At tree l) (h' : f'.At tree l) : f = f' := by
  have hp : f.path = f'.path := h.path_eq.trans h'.path_eq.symm
  have hk : f.kind = f'.kind := by
    have hk := h.kind_eq
    rw [hp, h'.kind_eq] at hk
    exact (Option.some.inj hk).symm
  cases f
  cases f'
  exact congr (congrArg SourceFile.mk hp) hk

end SourceFile.At

namespace FileTree

variable {tree : FileTree} {l : Location}

/-- Only files of the tree are found, and they are named as they stand. -/
theorem IsProper.at_of_mem_sourceFiles (ht : tree.IsProper) {rules : IgnoreList} {f : SourceFile}
    (h : f ∈ tree.sourceFiles rules (pathOf l) l) : ∃ k, f.At tree k := by
  simp only [sourceFiles, List.mem_mergeSort, List.mem_filterMap] at h
  obtain ⟨⟨k, e⟩, hmem, hk⟩ := h
  cases e with
  | directory => simp at hk
  | file c =>
    simp only at hk
    split at hk
    · rename_i kind hkind
      split_ifs at hk with hfound
      obtain rfl := Option.some.inj hk
      have hbelow : l <+: k := by
        simp only [isFound, Bool.and_eq_true, List.isPrefixOf_iff_prefix] at hfound
        exact hfound.1
      obtain ⟨names, rfl⟩ := hbelow
      have hnames := (ht.named _ hmem).2
      have hpath : names.foldl (fun p name => p.join ⟨name⟩) (pathOf l) = pathOf (l ++ names) :=
        foldl_join_pathOf (fun n hn => hnames n (by simp [hn]))
          (fun n hn => hnames n (by simp [hn]))
      refine ⟨l ++ names, ?_, hkind, c, ht.lookup_of_mem hmem⟩
      simpa using hpath
    · simp at hk

theorem IsProper.at_of_mem_discover (ht : tree.IsProper) (hl : (tree.lookup l).isSome = true)
    {s : Selection} {files : List SourceFile} (h : tree.discover s (pathOf l) = .ok files)
    {f : SourceFile} (hf : f ∈ files) : ∃ k, f.At tree k := by
  have hlocate := ht.locate_pathOf hl
  unfold discover at h
  split_ifs at h with hfile
  · obtain rfl := Except.ok.inj h
    simp only [Option.mem_toList, Option.map_eq_some_iff] at hf
    obtain ⟨kind, hk, rfl⟩ := hf
    refine ⟨l, rfl, hk, ?_⟩
    simp only [FileTree.isFile, entryAt?, hlocate] at hfile
    split at hfile
    · exact ⟨_, by assumption⟩
    · exact absurd hfile (by simp)
  · obtain ⟨rules, -, h⟩ := bind_eq_ok h
    simp only [hlocate] at h
    split_ifs at h
    · cases h
    · obtain rfl := Except.ok.inj h
      exact ht.at_of_mem_sourceFiles hf

end FileTree

namespace Request

variable {r : Request} {tree : FileTree} {cwd : Path}

theorem mem_of_mem_dropRepeated {f : SourceFile} {files : List SourceFile}
    (h : f ∈ dropRepeated files) : f ∈ files := by
  fun_induction dropRepeated files with
  | case1 a b rest he ih =>
    rcases List.mem_cons.mp (ih h) with rfl | h
    · simp
    · simp [h]
  | case2 a b rest he ih =>
    rcases List.mem_cons.mp h with rfl | h
    · simp
    · exact List.mem_cons_of_mem _ (ih h)
  | case3 files _ => exact h

/-- What a path of a request leads to is what is discovered where it leads. -/
theorem filesAt_eq_ok_iff {path : Path} {found : List SourceFile} :
    r.filesAt tree cwd path = .ok found ↔ ∃ root, tree.canonical? (cwd.join path) = some root ∧
      tree.discover r.selection root = .ok found := by
  simp only [filesAt]
  cases hq : tree.canonical? (cwd.join path) with
  | none => simp
  | some root => cases hd : tree.discover r.selection root <;> simp [hd, Except.mapError]

theorem at_of_mem_filesAt (ht : tree.IsProper) {path : Path} {found : List SourceFile}
    (h : r.filesAt tree cwd path = .ok found) {f : SourceFile} (hf : f ∈ found) :
    ∃ l, f.At tree l := by
  obtain ⟨q, hq, hd⟩ := filesAt_eq_ok_iff.mp h
  obtain ⟨l, hl, -, rfl⟩ := ht.locate_canonical hq
  exact ht.at_of_mem_discover hl hd hf

/-- The files of a request are those found at its paths, sorted and without repetitions. -/
theorem of_files_eq_ok {files : List SourceFile} (h : r.files tree cwd = .ok files) :
    ∃ found, r.paths.mapM (r.filesAt tree cwd) = .ok found ∧
      files = dropRepeated (found.flatten.mergeSort fun a b => !b.path.lt a.path) := by
  unfold Request.files at h
  obtain ⟨found, hfound, h⟩ := bind_eq_ok h
  exact ⟨found, hfound, (Except.ok.inj h).symm⟩

theorem at_of_mem_flatten (ht : tree.IsProper) {found : List (List SourceFile)}
    (h : r.paths.mapM (r.filesAt tree cwd) = .ok found) {f : SourceFile} (hf : f ∈ found.flatten) :
    ∃ l, f.At tree l := by
  obtain ⟨part, hpart, hf⟩ := List.mem_flatten.mp hf
  obtain ⟨path, -, hp⟩ := (mem_of_mapM_eq_ok h).mp hpart
  exact at_of_mem_filesAt ht hp hf

theorem at_of_mem_files (ht : tree.IsProper) {files : List SourceFile}
    (h : r.files tree cwd = .ok files) {f : SourceFile} (hf : f ∈ files) : ∃ l, f.At tree l := by
  obtain ⟨found, hfound, rfl⟩ := of_files_eq_ok h
  exact at_of_mem_flatten ht hfound (List.mem_mergeSort.mp (mem_of_mem_dropRepeated hf))

end Request

end ImportAlias
