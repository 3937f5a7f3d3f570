import ImportAlias.Proofs.Discovery
import ImportAlias.Proofs.Run.Rewriting

/-! What a run reports on its files, and what writing the reports makes of the tree. -/
namespace ImportAlias

/-- Writing a report puts a text at a location. -/
structure FileReport.Writes (r : FileReport) (tree : FileTree) (f : SourceFile) (l : Location)
    (u : Text) : Prop where
  changed : r.changed = true
  text_eq : r.text = some u
  located : tree.locate f.path = .ok l

namespace FileTree

variable (tree : FileTree) (reports : List (SourceFile × FileReport))

theorem writeReports_concat (p : SourceFile × FileReport) : tree.writeReports (reports ++ [p]) =
      (tree.writeReports reports).writeReports [p] :=
  List.foldl_append

/-- A report is written, or leaves the tree as it is. -/
theorem writeReports_singleton (f : SourceFile) (r : FileReport) :
    ((∀ l u, ¬r.Writes tree f l u) ∧ tree.writeReports [(f, r)] = tree) ∨
      ∃ l u, r.Writes tree f l u ∧ tree.writeReports [(f, r)] = tree.put l (.file (.text u)) := by
  cases hc : r.changed with
  | false =>
    refine .inl ⟨fun l u h => ?_, by simp [writeReports, hc]⟩
    exact absurd h.changed (by simp [hc])
  | true =>
    cases ht : r.text with
    | none =>
      refine .inl ⟨fun l u h => ?_, by simp [writeReports, hc, ht]⟩
      exact absurd h.text_eq (by simp [ht])
    | some u =>
      have hw : tree.writeReports [(f, r)] = tree.overwrite f.path u := by
        simp [writeReports, hc, ht]
      rw [hw]
      cases hl : tree.locate f.path with
      | error e =>
        refine .inl ⟨fun l u h => ?_, by simp [overwrite, hl]⟩
        exact absurd h.located (by simp [hl])
      | ok l => exact .inr ⟨l, u, ⟨hc, ht, hl⟩, by simp [overwrite, hl]⟩

/-- A location has the entry that reports leave there: the text of one that is written to it, or
what it had before. -/
def LeftBy (k : Location) (entry : Option Entry) : Prop :=
  (∃ p ∈ reports, ∃ u, p.2.Writes tree p.1 k u ∧ entry = some (.file (.text u))) ∨
    (∀ p ∈ reports, ∀ u, ¬p.2.Writes tree p.1 k u) ∧ entry = tree.lookup k

variable {tree reports} in
/-- A further report that is not written to a location makes no difference there. -/
theorem LeftBy.concat {k : Location} {entry : Option Entry} (h : tree.LeftBy reports k entry)
    {p : SourceFile × FileReport} (hp : ∀ u, ¬p.2.Writes tree p.1 k u) :
    tree.LeftBy (reports ++ [p]) k entry := by
  rcases h with ⟨q, hq, u, hu⟩ | ⟨hnot, hsame⟩
  · exact .inl ⟨q, by simp [hq], u, hu⟩
  · refine .inr ⟨List.forall_mem_append.mpr ⟨hnot, ?_⟩, hsame⟩
    exact List.forall_mem_singleton.mpr hp

/-- What is written where texts stand rewrites the tree there, and nowhere else. -/
theorem writeReports_spec
    (h : ∀ p ∈ reports, ∀ l u, p.2.Writes tree p.1 l u →
      l ≠ [] ∧ ∃ t, tree.lookup l = some (.file (.text t))) :
    Rewritten (fun l => ∃ p ∈ reports, ∃ u, p.2.Writes tree p.1 l u) tree
      (tree.writeReports reports) ∧
    ∀ k, tree.LeftBy reports k ((tree.writeReports reports).lookup k) := by
  induction reports using List.reverseRecOn with
  | nil => exact ⟨.refl _ _, fun k => .inr ⟨by simp, rfl⟩⟩
  | append_singleton reports p ih =>
    obtain ⟨hr, hk⟩ := ih fun q hq => h q (by simp [hq])
    have hr := hr.mono (Q := fun l => ∃ q ∈ reports ++ [p], ∃ u, q.2.Writes tree q.1 l u) (by
      rintro l ⟨q, hq, hu⟩
      exact ⟨q, by simp [hq], hu⟩)
    -- What was written so far moves no location, so the last report is written where it would
    -- have been at first.
    have hiff : ∀ l u, p.2.Writes (tree.writeReports reports) p.1 l u ↔
        p.2.Writes tree p.1 l u := by
      intro l u
      refine ⟨fun hw => ⟨hw.changed, hw.text_eq, ?_⟩, fun hw => ⟨hw.changed, hw.text_eq, ?_⟩⟩
      · exact (hr.locate_eq _).trans hw.located
      · exact (hr.locate_eq _).symm.trans hw.located
    rw [writeReports_concat]
    rcases writeReports_singleton (tree.writeReports reports) p.1 p.2 with
      ⟨hnone, he⟩ | ⟨l, u, hw, he⟩
    · rw [he]
      exact ⟨hr, fun k => (hk k).concat fun v hv => hnone k v ((hiff k v).mpr hv)⟩
    · have hw := (hiff l u).mp hw
      obtain ⟨hl, t, ht⟩ := h p (by simp) l u hw
      obtain ⟨t', ht'⟩ : ∃ t', (tree.writeReports reports).lookup l = some (.file (.text t')) := by
        rcases hk l with ⟨q, -, v, -, hv⟩ | ⟨-, hsame⟩
        · exact ⟨v, hv⟩
        · exact ⟨t, hsame.trans ht⟩
      rw [he]
      refine ⟨hr.trans (rewritten_put hl ht' ⟨p, by simp, u, hw⟩ u), fun k => ?_⟩
      rw [lookup_put _ hl]
      split_ifs with hkl
      · subst hkl
        exact .inl ⟨p, by simp, u, hw, rfl⟩
      · refine (hk k).concat fun v hv => hkl ?_
        exact (Except.ok.inj (hw.located.symm.trans hv.located)).symm

end FileTree

namespace SourceFile

variable {f : SourceFile} {tree : FileTree} {l : Location} {options : Options} {directory : Path}

def reported (f : SourceFile) (tree : FileTree) (options : Options) (directory : Path) :
    FileReport :=
  f.report tree (ParserSet.aliasing {} [] options).1 options directory

/-- Aliases make one text of another in a file. -/
def Becomes (f : SourceFile) (tree : FileTree) (options : Options) (t u : Text) : Prop :=
  f.aliasedText tree (ParserSet.aliasing {} [] options).1 options t = .ok u

/-- The edits of a file as it can be read stay on their lines. -/
def OneLine (f : SourceFile) (tree : FileTree) (options : Options) : Prop :=
  ∀ t, tree.read f.path = .ok t → ∀ e ∈ f.edits tree options t, '\n' ∉ e.replacement

theorem At.read_text (h : f.At tree l) (ht : tree.IsProper) {t : Text}
    (hl : tree.lookup l = some (.file (.text t))) : tree.read f.path = .ok t := by
  simp [FileTree.read, h.locate ht, hl]

/-- The report on a file that holds text. -/
theorem At.reported_text (h : f.At tree l) (ht : tree.IsProper) {t u : Text}
    (hl : tree.lookup l = some (.file (.text t))) (hu : f.Becomes tree options t u)
    (directory : Path) :
    (f.reported tree options directory).error = none ∧
      (f.reported tree options directory).changes = LineChange.between t u ∧
      (f.reported tree options directory).text = some u := by
  have hr := h.read_text ht hl
  unfold Becomes at hu
  simp [reported, report, hr, hu]

/-- The report on a file that holds no text. -/
theorem At.reported_binary (h : f.At tree l) (ht : tree.IsProper)
    (hl : ∀ t, tree.lookup l ≠ some (.file (.text t))) (options : Options) (directory : Path) :
    (f.reported tree options directory).error.isSome = true ∧
      (f.reported tree options directory).changes = [] ∧
      (f.reported tree options directory).text = none := by
  obtain ⟨c, hc⟩ := h.isFile
  cases c with
  | text t => exact absurd hc (hl t)
  | binary bytes =>
    have hr : tree.read f.path = .error .notText := by simp [FileTree.read, h.locate ht, hc]
    simp [reported, report, hr]

/-- The report on a file is written exactly if aliases change the text of the file. -/
theorem At.writes_iff (h : f.At tree l) (ht : tree.IsProper) (hone : f.OneLine tree options)
    {k : Location} {u : Text} : (f.reported tree options directory).Writes tree f k u ↔
      k = l ∧ ∃ t, tree.lookup l = some (.file (.text t)) ∧ f.Becomes tree options t u ∧ u ≠ t := by
  have hlocate := h.locate ht
  by_cases htext : ∃ t, tree.lookup l = some (.file (.text t))
  · obtain ⟨t, hl⟩ := htext
    obtain ⟨v, hv, hshown⟩ := f.exists_aliasedText tree options t
    have hshown := hshown (hone t (h.read_text ht hl))
    obtain ⟨-, hchanges, htext⟩ := h.reported_text ht hl hv directory
    have hchanged : (f.reported tree options directory).changed = true ↔ v ≠ t := by
      rw [FileReport.changed, hchanges]
      refine ⟨?_, fun hne => by simp [hshown hne]⟩
      rintro hb rfl
      simp [LineChange.between_self] at hb
    constructor
    · intro hw
      have hk : k = l := Except.ok.inj (hw.located.symm.trans hlocate)
      obtain rfl : u = v := Option.some.inj (hw.text_eq.symm.trans htext)
      exact ⟨hk, t, hl, hv, hchanged.mp hw.changed⟩
    · rintro ⟨rfl, t', hl', hu, hne⟩
      obtain rfl : t = t' := by simpa [hl] using hl'
      obtain rfl : v = u := Except.ok.inj (hv.symm.trans hu)
      exact ⟨hchanged.mpr hne, htext, hlocate⟩
  · have htext := not_exists.mp htext
    obtain ⟨-, -, hnone⟩ := h.reported_binary ht htext options directory
    constructor
    · intro hw
      exact absurd hw.text_eq (by simp [hnone])
    · rintro ⟨rfl, t, hl, -⟩
      exact absurd hl (htext t)

/-- Changes that a report tells of are written. -/
theorem At.writes_of_changed (h : f.At tree l) (ht : tree.IsProper)
    (hc : (f.reported tree options directory).changed = true) :
    ∃ u, (f.reported tree options directory).Writes tree f l u := by
  by_cases htext : ∃ t, tree.lookup l = some (.file (.text t))
  · obtain ⟨t, hl⟩ := htext
    obtain ⟨u, hu, -⟩ := f.exists_aliasedText tree options t
    exact ⟨u, hc, (h.reported_text ht hl hu directory).2.2, h.locate ht⟩
  · obtain ⟨-, hnil, -⟩ := h.reported_binary ht (not_exists.mp htext) options directory
    simp [FileReport.changed, hnil] at hc

end SourceFile

namespace Request

variable {r : Request} {tree : FileTree} {cwd : Path}

/-- The aliases that a run puts into the files that it can read. -/
def aliases (r : Request) (tree : FileTree) (cwd : Path) : List Text :=
  match r.options tree cwd, r.files tree cwd with
  | .ok options, .ok files => files.flatMap fun f =>
    match tree.read f.path with
    | .ok t => (f.edits tree options t).map Edit.replacement
    | .error _ => []
  | _, _ => []

theorem mem_aliases {options : Options} {files : List SourceFile}
    (ho : r.options tree cwd = .ok options) (hf : r.files tree cwd = .ok files) {f : SourceFile}
    (hmem : f ∈ files) {t : Text} (ht : tree.read f.path = .ok t) {e : Edit}
    (he : e ∈ f.edits tree options t) : e.replacement ∈ r.aliases tree cwd := by
  simp only [aliases, ho, hf, List.mem_flatMap]
  refine ⟨f, hmem, ?_⟩
  rw [ht]
  exact List.mem_map_of_mem he

def reportsOn (tree : FileTree) (cwd : Path) (options : Options) (files : List SourceFile) :
    List (SourceFile × FileReport) :=
  files.map fun f => (f, f.reported tree options ((tree.canonical? cwd).getD cwd))

/-- Pairing files with reports by position gives each file its own. -/
theorem zip_reportsOn (options : Options) (files : List SourceFile) :
    files.zip ((reportsOn tree cwd options files).map Prod.snd) =
      reportsOn tree cwd options files := by
  induction files with
  | nil => rfl
  | cons f files ih => simpa [reportsOn] using ih

def outcomeOn (r : Request) (reports : List (SourceFile × FileReport)) : RunOutcome :=
  let report := Report.ofFiles r.write (reports.map Prod.snd)
  ⟨r.output report, r.exitCode report, report⟩

section

variable {options : Options} {files : List SourceFile} (ho : r.options tree cwd = .ok options)
  (hf : r.files tree cwd = .ok files)
include ho hf

theorem run_eq : r.run tree cwd = .ok (r.outcomeOn (reportsOn tree cwd options files),
    if r.write then tree.writeReports (reportsOn tree cwd options files) else tree) := by
  simp only [run, Request.reports, ho, hf, bind, Except.bind]
  rfl

/-- The run in a mode: the outcome depends on the mode, the reports do not. -/
theorem run_in_mode (write check : Bool) : { r with write, check }.run tree cwd =
    .ok ({ r with write, check }.outcomeOn (reportsOn tree cwd options files),
      if write then tree.writeReports (reportsOn tree cwd options files) else tree) :=
  run_eq (r := { r with write, check }) ho hf

/-- Aliases without line breaks make one-line edits. -/
theorem oneLine_of_aliases (ha : ∀ a ∈ r.aliases tree cwd, '\n' ∉ a) :
    ∀ f ∈ files, f.OneLine tree options :=
  fun _ hmem _ ht _ he => ha _ (mem_aliases ho hf hmem ht he)

end

/-- A run succeeds with options and files. -/
theorem of_run_eq_ok {out : RunOutcome × FileTree} (h : r.run tree cwd = .ok out) :
    ∃ options files, r.options tree cwd = .ok options ∧ r.files tree cwd = .ok files := by
  unfold run at h
  obtain ⟨reports, h, -⟩ := bind_eq_ok h
  unfold Request.reports at h
  obtain ⟨options, ho, h⟩ := bind_eq_ok h
  obtain ⟨files, hf, -⟩ := bind_eq_ok h
  exact ⟨options, files, ho, hf⟩

section

variable {options : Options} {files : List SourceFile} (ht : tree.IsProper)
  (hfiles : ∀ f ∈ files, ∃ l, f.At tree l) (hone : ∀ f ∈ files, f.OneLine tree options)
include ht hfiles hone

/-- Which reports on files are written, and where. -/
theorem mem_reportsOn_writes {p : SourceFile × FileReport}
    (hp : p ∈ reportsOn tree cwd options files) {k : Location} {u : Text}
    (hw : p.2.Writes tree p.1 k u) : p.1 ∈ files ∧ p.1.At tree k ∧
      ∃ t, tree.lookup k = some (.file (.text t)) ∧ p.1.Becomes tree options t u ∧ u ≠ t := by
  obtain ⟨f, hmem, rfl⟩ := List.mem_map.mp hp
  obtain ⟨l, hl⟩ := hfiles f hmem
  obtain ⟨rfl, h⟩ := (hl.writes_iff ht (hone f hmem)).mp hw
  exact ⟨hmem, hl, h⟩

/-- Writing rewrites files of the request only, and of those the ones that aliases change. -/
theorem writeReports_reportsOn (cwd : Path) :
    FileTree.Rewritten (fun l => ∃ f ∈ files, f.At tree l) tree
      (tree.writeReports (reportsOn tree cwd options files)) ∧
    ∀ k, (∃ f ∈ files, f.At tree k ∧ ∃ t u, tree.lookup k = some (.file (.text t)) ∧
        f.Becomes tree options t u ∧ u ≠ t ∧
        (tree.writeReports (reportsOn tree cwd options files)).lookup k = some (.file (.text u))) ∨
      (∀ f ∈ files, f.At tree k → ∀ t u, tree.lookup k = some (.file (.text t)) →
        f.Becomes tree options t u → u = t) ∧
      (tree.writeReports (reportsOn tree cwd options files)).lookup k = tree.lookup k := by
  obtain ⟨hr, hk⟩ := tree.writeReports_spec (reportsOn tree cwd options files) (by
    intro p hp l u hw
    obtain ⟨-, hat, t, hl, -⟩ := mem_reportsOn_writes ht hfiles hone hp hw
    exact ⟨hat.ne_nil, t, hl⟩)
  refine ⟨hr.mono ?_, fun k => ?_⟩
  · rintro l ⟨p, hp, u, hw⟩
    obtain ⟨hmem, hat, -⟩ := mem_reportsOn_writes ht hfiles hone hp hw
    exact ⟨p.1, hmem, hat⟩
  · rcases hk k with ⟨p, hp, u, hw, hlook⟩ | ⟨hnot, hlook⟩
    · obtain ⟨hmem, hat, t, hl, hb, hne⟩ := mem_reportsOn_writes ht hfiles hone hp hw
      exact .inl ⟨p.1, hmem, hat, t, u, hl, hb, hne, hlook⟩
    · refine .inr ⟨fun f hmem hat t u hl hb => ?_, hlook⟩
      by_contra hne
      exact hnot _ (List.mem_map_of_mem hmem) u
        ((hat.writes_iff ht (hone f hmem)).mpr ⟨rfl, t, hl, hb, hne⟩)

/-- Writing leaves in each file the text that aliases make of it. -/
theorem lookup_writeReports {f : SourceFile} (hmem : f ∈ files) {l : Location} (hat : f.At tree l)
    {t u : Text} (hl : tree.lookup l = some (.file (.text t))) (hb : f.Becomes tree options t u) :
    (tree.writeReports (reportsOn tree cwd options files)).lookup l = some (.file (.text u)) := by
  rcases (writeReports_reportsOn ht hfiles hone cwd).2 l with
    ⟨g, -, hatg, t', u', hl', hb', -, hlook⟩ | ⟨hsame, hlook⟩
  · obtain rfl := hat.eq hatg
    obtain rfl : t = t' := by simpa [hl] using hl'
    obtain rfl : u = u' := Except.ok.inj (hb.symm.trans hb')
    exact hlook
  · obtain rfl := hsame f hmem hat t u hl hb
    exact hlook.trans hl

/-- Writing leaves the files with errors alone. -/
theorem entryAt?_writeReports_of_error {f : SourceFile} (hmem : f ∈ files)
    (herr : (f.reported tree options ((tree.canonical? cwd).getD cwd)).error.isSome = true) :
    (tree.writeReports (reportsOn tree cwd options files)).entryAt? f.path =
      tree.entryAt? f.path := by
  obtain ⟨hr, hk⟩ := writeReports_reportsOn ht hfiles hone cwd
  obtain ⟨l, hat⟩ := hfiles f hmem
  have hlook : (tree.writeReports (reportsOn tree cwd options files)).lookup l = tree.lookup l := by
    rcases hk l with ⟨g, -, hatg, t, u, hl, hb, -⟩ | ⟨-, hlook⟩
    · obtain rfl := hat.eq hatg
      simp [(hat.reported_text ht hl hb _).1] at herr
    · exact hlook
  simp only [FileTree.entryAt?, ← hr.locate_eq, hat.locate ht, hlook]

/-- Writing leaves in each file without an error the text that is reported. -/
theorem read_writeReports {f : SourceFile} (hmem : f ∈ files)
    (herr : (f.reported tree options ((tree.canonical? cwd).getD cwd)).error = none) :
    ∃ u, (f.reported tree options ((tree.canonical? cwd).getD cwd)).text = some u ∧
      (tree.writeReports (reportsOn tree cwd options files)).read f.path = .ok u := by
  obtain ⟨hr, -⟩ := writeReports_reportsOn ht hfiles hone cwd
  obtain ⟨l, hat⟩ := hfiles f hmem
  by_cases htext : ∃ t, tree.lookup l = some (.file (.text t))
  · obtain ⟨t, hl⟩ := htext
    obtain ⟨u, hu, -⟩ := f.exists_aliasedText tree options t
    refine ⟨u, (hat.reported_text ht hl hu _).2.2, ?_⟩
    have hlook : (tree.writeReports (reportsOn tree cwd options files)).lookup l =
        some (.file (.text u)) := lookup_writeReports ht hfiles hone hmem hat hl hu
    simp only [FileTree.read, ← hr.locate_eq, hat.locate ht, hlook]
  · obtain ⟨hsome, -⟩ := hat.reported_binary ht (not_exists.mp htext) options
      ((tree.canonical? cwd).getD cwd)
    simp [herr] at hsome

end

theorem changed_ofFiles_pos (written : Bool) (options : Options) (files : List SourceFile) :
    0 < (Report.ofFiles written ((reportsOn tree cwd options files).map Prod.snd)).changed ↔
      ∃ f ∈ files, (f.reported tree options ((tree.canonical? cwd).getD cwd)).changed = true := by
  simp [Report.ofFiles, reportsOn, List.length_pos_iff_exists_mem]

theorem hasErrors_ofFiles (written : Bool) (options : Options) (files : List SourceFile) :
    (Report.ofFiles written ((reportsOn tree cwd options files).map Prod.snd)).hasErrors = false ↔
      ∀ f ∈ files, (f.reported tree options ((tree.canonical? cwd).getD cwd)).error = none := by
  simp [Report.ofFiles, Report.hasErrors, reportsOn]

def sampleTree : FileTree :=
  ⟨[(["p".toList], .directory), (["p".toList, "package.json".toList], .file (.text [])),
    (["p".toList, "a".toList], .directory), (["p".toList, "a".toList, "b".toList], .directory),
    (["p".toList, "a".toList, "b".toList, "c.ts".toList],
      .file (.text "import x from \"../../lib/x\";\r\nrun(x);".toList))]⟩

def sample : Request := { paths := [.of "a/b/c.ts"] }

theorem options_sample : sample.options sampleTree (.of "/p") = .ok {} := by decide +kernel

theorem files_sample :
    sample.files sampleTree (.of "/p") = .ok [⟨.of "/p/a/b/c.ts", .typeScript⟩] := by
  have hat : sample.filesAt sampleTree (.of "/p") (.of "a/b/c.ts") =
      .ok [⟨.of "/p/a/b/c.ts", .typeScript⟩] := by decide +kernel
  have hpaths : sample.paths = [.of "a/b/c.ts"] := rfl
  simp [files, hpaths, hat, dropRepeated, bind, Except.bind, pure, Except.pure]

theorem aliases_sample : sample.aliases sampleTree (.of "/p") = ["@/lib/x".toList] := by
  simp only [aliases, options_sample, files_sample]
  decide +kernel

end Request

end ImportAlias
