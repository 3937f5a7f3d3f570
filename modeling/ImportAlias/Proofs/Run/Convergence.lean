import ImportAlias.Proofs.Run.Inputs
import ImportAlias.Proofs.Run.Writing

/-! A run that writes leaves nothing to do for the next one. -/
namespace ImportAlias

/-- Reports without changes leave the tree as it is. -/
theorem FileTree.writeReports_of_unchanged (tree : FileTree)
    {reports : List (SourceFile × FileReport)} (h : ∀ p ∈ reports, p.2.changed = false) :
    tree.writeReports reports = tree := by
  induction reports using List.reverseRecOn with
  | nil => rfl
  | append_singleton reports p ih =>
    rw [writeReports_concat, ih fun q hq => h q (by simp [hq])]
    rcases tree.writeReports_singleton p.1 p.2 with ⟨-, he⟩ | ⟨l, u, hw, -⟩
    · exact he
    · exact absurd hw.changed (by simp [h p (by simp)])

/-- With aliases in the text, what becomes of a file is settled by one round, if the aliases fit
between quotes and do not climb. -/
theorem SourceFile.becomes_settled {f : SourceFile} {tree : FileTree} {options : Options}
    (hs : options.strategy = .text) {t u : Text} (hu : f.Becomes tree options t u)
    (ha : ∀ e ∈ f.edits tree options t, '"' ∉ e.replacement ∧ '\x27' ∉ e.replacement ∧
      '\n' ∉ e.replacement ∧ Specifier.climbDepth e.replacement ≤ options.maxDepth) :
    f.Becomes tree options u u := by
  unfold Becomes at hu ⊢
  rw [f.aliasedText_text tree options (.inr hs)] at hu ⊢
  obtain rfl := Except.ok.inj hu
  rw [f.edits_text tree options (.inr hs)] at ha
  rw [aliasHeader_settled ha]

namespace Request

variable {r : Request} {tree : FileTree} {cwd : Path} {options : Options} {files : List SourceFile}

/-- Neither the options file that a request names nor the manifest that is configured for one of
its files is itself one of them. -/
structure InputsApart (r : Request) (tree : FileTree) (cwd : Path) (options : Options)
    (files : List SourceFile) : Prop where
  optionsFile : ∀ p, r.optionsFile = some p →
    ∀ g ∈ files, tree.locate (cwd.join p) ≠ tree.locate g.path
  manifest : ∀ p, options.explicitManifest? = some p → ∀ f ∈ files, ∀ g ∈ files,
    tree.locate ((Project.rootOf tree f.path).join p) ≠ tree.locate g.path

/-- Reports without errors and changes let a run exit with success. -/
theorem outcomeOn_settled {reports : List (SourceFile × FileReport)}
    (h : ∀ p ∈ reports, p.2.error = none ∧ p.2.changed = false) :
    (r.outcomeOn reports).exitCode = 0 ∧ (r.outcomeOn reports).report.changed = 0 := by
  have hchanged : (Report.ofFiles r.write (reports.map Prod.snd)).changed = 0 := by
    simp only [Report.ofFiles, List.length_eq_zero_iff, List.filter_eq_nil_iff]
    intro report hmem
    obtain ⟨p, hp, rfl⟩ := List.mem_map.mp hmem
    simp [(h p hp).2]
  have herrors : (Report.ofFiles r.write (reports.map Prod.snd)).hasErrors = false := by
    simp only [Report.ofFiles, Report.hasErrors, List.any_eq_false]
    intro report hmem
    obtain ⟨p, hp, rfl⟩ := List.mem_map.mp hmem
    simp [(h p hp).1]
  exact ⟨by simp [outcomeOn, exitCode, herrors, hchanged], hchanged⟩

theorem hasErrors_of_exitCode {reports : List (SourceFile × FileReport)}
    (h : (r.outcomeOn reports).exitCode = 0) :
    (Report.ofFiles r.write (reports.map Prod.snd)).hasErrors = false := by
  cases he : (Report.ofFiles r.write (reports.map Prod.snd)).hasErrors with
  | false => rfl
  | true => simp [outcomeOn, exitCode, he] at h

section

variable (ht : tree.IsProper) (hf : r.files tree cwd = .ok files)
  (hone : ∀ f ∈ files, f.OneLine tree options)
include ht hf hone

/-- Writing rewrites source files. -/
theorem resourced_writeReports : FileTree.Resourced (fun l => ∃ f ∈ files, f.At tree l) tree
    (tree.writeReports (reportsOn tree cwd options files)) where
  proper := ht
  rewritten := (writeReports_reportsOn ht (fun _ hmem => at_of_mem_files ht hf hmem) hone cwd).1
  source := by
    rintro l ⟨f, -, hat⟩
    refine ⟨hat.isSome, ?_⟩
    rw [← hat.path_eq, hat.kind_eq]
    rfl

/-- What a run looks at besides the texts of its files is the same after writing. -/
theorem inputs_writeReports (ho : r.options tree cwd = .ok options)
    (hapart : r.InputsApart tree cwd options files) :
    r.options (tree.writeReports (reportsOn tree cwd options files)) cwd = .ok options ∧
      r.files (tree.writeReports (reportsOn tree cwd options files)) cwd = .ok files ∧
      ∀ f ∈ files, Resolver.ofFile (tree.writeReports (reportsOn tree cwd options files)) options
        f.path = Resolver.ofFile tree options f.path := by
  have hres := resourced_writeReports ht hf hone
  refine ⟨?_, (hres.files_eq r cwd).symm.trans hf, fun f hmem => ?_⟩
  · refine (hres.options_eq fun p hp l hl => ?_).symm.trans ho
    rintro ⟨g, hg, hat⟩
    exact hapart.optionsFile p hp g hg (hl.trans (hat.locate ht).symm)
  · refine (hres.resolver_eq fun p hp l hl => ?_).symm
    rintro ⟨g, hg, hat⟩
    exact hapart.manifest p hp f hmem g hg (hl.trans (hat.locate ht).symm)

/-- After writing, the report on a file that could be read tells of no changes. -/
theorem reported_writeReports (hs : options.strategy = .text)
    (ho : r.options tree cwd = .ok options) (hapart : r.InputsApart tree cwd options files)
    {f : SourceFile} (hmem : f ∈ files)
    (ha : ∀ t, tree.read f.path = .ok t → ∀ e ∈ f.edits tree options t, '"' ∉ e.replacement ∧
      '\x27' ∉ e.replacement ∧ '\n' ∉ e.replacement ∧
      Specifier.climbDepth e.replacement ≤ options.maxDepth)
    (herr : (f.reported tree options ((tree.canonical? cwd).getD cwd)).error = none)
    (directory : Path) :
    (f.reported (tree.writeReports (reportsOn tree cwd options files)) options
        directory).error = none ∧
      (f.reported (tree.writeReports (reportsOn tree cwd options files)) options
        directory).changed = false := by
  have hfiles : ∀ f ∈ files, ∃ l, f.At tree l := fun _ hmem => at_of_mem_files ht hf hmem
  have hres := resourced_writeReports ht hf hone
  obtain ⟨l, hat⟩ := hfiles f hmem
  obtain ⟨t, hl⟩ : ∃ t, tree.lookup l = some (.file (.text t)) := by
    by_contra hnone
    have hsome := (hat.reported_binary ht (not_exists.mp hnone) options
      ((tree.canonical? cwd).getD cwd)).1
    simp [herr] at hsome
  obtain ⟨u, hu, -⟩ := f.exists_aliasedText tree options t
  have hlook : (tree.writeReports (reportsOn tree cwd options files)).lookup l =
      some (.file (.text u)) := lookup_writeReports ht hfiles hone hmem hat hl hu
  have hat' : f.At (tree.writeReports (reportsOn tree cwd options files)) l :=
    ⟨hat.path_eq, hat.kind_eq, _, hlook⟩
  have hsettled : f.Becomes (tree.writeReports (reportsOn tree cwd options files)) options u u := by
    have hb := SourceFile.becomes_settled hs hu (ha t (hat.read_text ht hl))
    unfold SourceFile.Becomes at hb ⊢
    rw [f.aliasedText_text _ options (.inr hs)] at hb ⊢
    rw [(inputs_writeReports ht hf hone ho hapart).2.2 f hmem]
    exact hb
  obtain ⟨hnone, hchanges, -⟩ := hat'.reported_text (hres.rewritten.isProper ht) hlook hsettled
    directory
  exact ⟨hnone, by simp [FileReport.changed, hchanges, LineChange.between_self]⟩

end

/-- After a run that writes and exits with success, checking finds nothing and writing changes
nothing. The tree has no links, and no write fails. -/
theorem write_converges (ht : tree.IsProper) (ho : r.options tree cwd = .ok options)
    (hs : options.strategy = .text) (hf : r.files tree cwd = .ok files)
    (hapart : r.InputsApart tree cwd options files)
    (ha : ∀ a ∈ r.aliases tree cwd, '"' ∉ a ∧ '\x27' ∉ a ∧ '\n' ∉ a ∧
      Specifier.climbDepth a ≤ options.maxDepth)
    {out : RunOutcome} {after : FileTree}
    (hrun : { r with write := true, check := false }.run tree cwd = .ok (out, after))
    (hexit : out.exitCode = 0) :
    (∃ checked, { r with write := false, check := true }.run after cwd = .ok (checked, after) ∧
      checked.exitCode = 0 ∧ checked.report.changed = 0) ∧
    ∃ again, { r with write := true, check := false }.run after cwd = .ok (again, after) := by
  have hone := oneLine_of_aliases ho hf fun a hmem => (ha a hmem).2.2.1
  obtain ⟨rfl, hafter⟩ :=
    Prod.mk.inj (Except.ok.inj (hrun.symm.trans (run_in_mode ho hf true false)))
  obtain rfl : after = tree.writeReports (reportsOn tree cwd options files) := hafter
  have herr := (hasErrors_ofFiles true options files).mp (hasErrors_of_exitCode hexit)
  obtain ⟨ho', hf', -⟩ := inputs_writeReports ht hf hone ho hapart
  have hsettled : ∀ p ∈ reportsOn (tree.writeReports (reportsOn tree cwd options files)) cwd options
      files, p.2.error = none ∧ p.2.changed = false := by
    intro p hp
    obtain ⟨f, hmem, rfl⟩ := List.mem_map.mp hp
    exact reported_writeReports ht hf hone hs ho hapart hmem
      (fun t hread e he => ha _ (mem_aliases ho hf hmem hread he)) (herr f hmem) _
  have hsame := FileTree.writeReports_of_unchanged
    (tree.writeReports (reportsOn tree cwd options files)) fun p hp => (hsettled p hp).2
  have hagain := run_in_mode ho' hf' true false
  rw [if_pos rfl, hsame] at hagain
  exact ⟨⟨_, run_in_mode ho' hf' false true, outcomeOn_settled hsettled⟩, _, hagain⟩

theorem write_converges_sample : ∃ out after,
    { sample with write := true, check := false }.run sampleTree (.of "/p") = .ok (out, after) ∧
    out.exitCode = 0 ∧ after ≠ sampleTree ∧
    (∃ checked, { sample with write := false, check := true }.run after (.of "/p") =
      .ok (checked, after) ∧ checked.exitCode = 0 ∧ checked.report.changed = 0) ∧
    ∃ again, { sample with write := true, check := false }.run after (.of "/p") =
      .ok (again, after) := by
  have hrun := run_in_mode options_sample files_sample true false
  have hexit : ({ sample with write := true, check := false }.outcomeOn
      (reportsOn sampleTree (.of "/p") {} [⟨.of "/p/a/b/c.ts", .typeScript⟩])).exitCode = 0 := by
    decide +kernel
  have hapart : sample.InputsApart sampleTree (.of "/p") {} [⟨.of "/p/a/b/c.ts", .typeScript⟩] :=
    ⟨by simp [sample], by simp [Options.explicitManifest?]⟩
  refine ⟨_, _, hrun, hexit, by decide +kernel, ?_⟩
  exact write_converges (by decide +kernel) options_sample rfl files_sample hapart
    (by rw [aliases_sample]; decide) hrun hexit

end Request

end ImportAlias
