import ImportAlias.Proofs.Run.Writing

/-! The modes of a run: without a mode, checking and writing. They report the same, and only
writing touches the tree, where it rewrites the files that aliases change. -/
namespace ImportAlias.Request

variable {r : Request} {tree : FileTree} {cwd : Path}

/-- A file of the request stands at a location, and aliases make another text of it. -/
def Rewrites (r : Request) (tree : FileTree) (cwd : Path) (l : Location) (t u : Text) : Prop :=
  ∃ options files f, r.options tree cwd = .ok options ∧ r.files tree cwd = .ok files ∧ f ∈ files ∧
    tree.locate f.path = .ok l ∧ tree.lookup l = some (.file (.text t)) ∧
    f.aliasedText tree (ParserSet.aliasing {} [] options).1 options t = .ok u ∧ u ≠ t

/-- The runs of a request without a mode, checking and writing, and the tree that writing leaves. -/
structure ModesAgree (r : Request) (tree : FileTree) (cwd : Path)
    (plain checked written : RunOutcome) (after : FileTree) : Prop where
  plain_run : { r with write := false, check := false }.run tree cwd = .ok (plain, tree)
  check_run : { r with write := false, check := true }.run tree cwd = .ok (checked, tree)
  write_run : { r with write := true, check := false }.run tree cwd = .ok (written, after)
  files_eq : checked.report.files = plain.report.files ∧ written.report.files = plain.report.files
  scanned_eq : checked.report.scanned = plain.report.scanned ∧
    written.report.scanned = plain.report.scanned
  changed_eq : checked.report.changed = plain.report.changed ∧
    written.report.changed = plain.report.changed
  /-- Nothing is created or removed. -/
  locations_eq : after.entries.map Prod.fst = tree.entries.map Prod.fst
  rewrites : ∀ l t u, r.Rewrites tree cwd l t u → after.lookup l = some (.file (.text u))
  keeps : ∀ l, (¬∃ t u, r.Rewrites tree cwd l t u) → after.lookup l = tree.lookup l
  keeps_errors : ∀ files, r.files tree cwd = .ok files →
    ∀ p ∈ files.zip written.report.files, p.2.error.isSome = true →
      after.entryAt? p.1.path = tree.entryAt? p.1.path
  check_exit : plain.report.hasErrors = false →
    (checked.exitCode = 1 ↔ ∃ l, after.lookup l ≠ tree.lookup l)
  stdout_eq : ∀ path f, r.paths = [path] → r.files tree cwd = .ok [f] →
    plain.report.hasErrors = false → after.read f.path = .ok plain.stdout

/-- Writing changes the tree exactly if a report tells of changes. -/
theorem exists_lookup_ne_iff {options : Options} {files : List SourceFile} (ht : tree.IsProper)
    (hfiles : ∀ f ∈ files, ∃ l, f.At tree l) (hone : ∀ f ∈ files, f.OneLine tree options) :
    (∃ l, (tree.writeReports (reportsOn tree cwd options files)).lookup l ≠ tree.lookup l) ↔
      ∃ f ∈ files, (f.reported tree options ((tree.canonical? cwd).getD cwd)).changed = true := by
  constructor
  · rintro ⟨l, hne⟩
    rcases (writeReports_reportsOn ht hfiles hone cwd).2 l with
      ⟨f, hmem, hat, t, u, hl, hb, hut, -⟩ | ⟨-, hlook⟩
    · exact ⟨f, hmem, ((hat.writes_iff ht (hone f hmem)).mpr ⟨rfl, t, hl, hb, hut⟩).changed⟩
    · exact absurd hlook hne
  · rintro ⟨f, hmem, hc⟩
    obtain ⟨l, hat⟩ := hfiles f hmem
    obtain ⟨u, hw⟩ := hat.writes_of_changed ht hc
    obtain ⟨-, t, hl, hb, hut⟩ := (hat.writes_iff ht (hone f hmem)).mp hw
    refine ⟨l, ?_⟩
    rw [lookup_writeReports ht hfiles hone hmem hat hl hb, hl]
    simpa using hut

theorem exitCode_outcomeOn_check (hc : r.check = true)
    {reports : List (SourceFile × FileReport)}
    (herr : (Report.ofFiles r.write (reports.map Prod.snd)).hasErrors = false) :
    (r.outcomeOn reports).exitCode = 1 ↔
      0 < (Report.ofFiles r.write (reports.map Prod.snd)).changed := by
  simp [outcomeOn, exitCode, hc, herr]

/-- Without a mode, the text of a single file is printed. -/
theorem stdout_outcomeOn_single (hw : r.write = false) (hc : r.check = false) {path : Path}
    (hp : r.paths = [path]) (f : SourceFile) {report : FileReport} (herr : report.error = none)
    {u : Text} (hu : report.text = some u) : (r.outcomeOn [(f, report)]).stdout = u := by
  obtain ⟨name, changes, error, text⟩ := report
  simp only at herr hu
  subst herr hu
  simp [outcomeOn, output, Report.ofFiles, hw, hc, hp]

/-- The modes of a run that succeeds agree, if no alias has a line break. The tree has no links, and
no write fails. -/
theorem modes_agree (ht : tree.IsProper) (hr : ∃ out, r.run tree cwd = .ok out)
    (ha : ∀ a ∈ r.aliases tree cwd, '\n' ∉ a) :
    ∃ plain checked written after, r.ModesAgree tree cwd plain checked written after := by
  obtain ⟨out, hrun⟩ := hr
  obtain ⟨options, files, ho, hf⟩ := of_run_eq_ok hrun
  have hone := oneLine_of_aliases ho hf ha
  have hfiles : ∀ f ∈ files, ∃ l, f.At tree l := fun f hmem => at_of_mem_files ht hf hmem
  have hr := (writeReports_reportsOn ht hfiles hone cwd).1
  refine ⟨_, _, _, _, {
    plain_run := run_in_mode ho hf false false
    check_run := run_in_mode ho hf false true
    write_run := run_in_mode ho hf true false
    files_eq := ⟨rfl, rfl⟩
    scanned_eq := ⟨rfl, rfl⟩
    changed_eq := ⟨rfl, rfl⟩
    locations_eq := hr.keys.symm
    rewrites := ?_
    keeps := ?_
    keeps_errors := ?_
    check_exit := ?_
    stdout_eq := ?_ }⟩
  · rintro l t u ⟨options', files', f, ho', hf', hmem, hlocate, hl, hb, -⟩
    obtain rfl : options = options' := Except.ok.inj (ho.symm.trans ho')
    obtain rfl : files = files' := Except.ok.inj (hf.symm.trans hf')
    obtain ⟨k, hat⟩ := hfiles f hmem
    obtain rfl : k = l := Except.ok.inj ((hat.locate ht).symm.trans hlocate)
    exact lookup_writeReports ht hfiles hone hmem hat hl hb
  · intro l hnot
    rcases (writeReports_reportsOn ht hfiles hone cwd).2 l with
      ⟨f, hmem, hat, t, u, hl, hb, hut, -⟩ | ⟨-, hlook⟩
    · exact absurd ⟨t, u, options, files, f, ho, hf, hmem, hat.locate ht, hl, hb, hut⟩ hnot
    · exact hlook
  · intro files' hf' p hp herr
    obtain rfl : files = files' := Except.ok.inj (hf.symm.trans hf')
    have hp : p ∈ reportsOn tree cwd options files := zip_reportsOn options files ▸ hp
    obtain ⟨f, hmem, rfl⟩ := List.mem_map.mp hp
    exact entryAt?_writeReports_of_error ht hfiles hone hmem herr
  · intro herr
    refine Iff.trans
      (exitCode_outcomeOn_check (r := { r with write := false, check := true }) rfl herr) ?_
    exact (changed_ofFiles_pos false options files).trans (exists_lookup_ne_iff ht hfiles hone).symm
  · intro path f hp hf' herr
    obtain rfl : files = [f] := Except.ok.inj (hf.symm.trans hf')
    have herr := (hasErrors_ofFiles false options [f]).mp herr f (by simp)
    obtain ⟨u, hu, hread⟩ := read_writeReports ht hfiles hone (by simp) herr
    refine hread.trans (congrArg Except.ok ?_)
    exact (stdout_outcomeOn_single (r := { r with write := false, check := false }) rfl rfl
      hp f herr hu).symm

theorem modes_agree_sample : sampleTree.IsProper ∧
    (∃ out, sample.run sampleTree (.of "/p") = .ok out) ∧
    sample.aliases sampleTree (.of "/p") = ["@/lib/x".toList] ∧
    ∃ plain checked written after,
      sample.ModesAgree sampleTree (.of "/p") plain checked written after := by
  have hp : sampleTree.IsProper := by decide +kernel
  have hr : ∃ out, sample.run sampleTree (.of "/p") = .ok out :=
    ⟨_, run_eq options_sample files_sample⟩
  exact ⟨hp, hr, aliases_sample, modes_agree hp hr (by rw [aliases_sample]; decide)⟩

end ImportAlias.Request
