import ImportAlias.Proofs.Run.Rewriting

/-! Aliases in front of the parsers. Whatever the parsers behind them make of a text, files of all
kinds come out with the aliases of their header, and otherwise as they were. -/
namespace ImportAlias.SourceFile

/-- With aliases in front of the parsers, a file that can be read is reported with the aliases of
its header, whatever kind it is of. So it is in a run, and with any other parsers that make trees of
all texts. -/
theorem report_aliasHeader {f : SourceFile} {tree : FileTree} {options : Options} {content : Text}
    (hs : options.strategy = .text) (hc : tree.read f.path = .ok content) (directory : Path) :
    (ParserSet.aliasing {} [] options).1.AnswersAll options ∧
    ∀ parsers : ParserSet, parsers.AnswersAll options →
      let aliased :=
        (aliasHeader (Resolver.ofFile tree options f.path) options.maxDepth content).text
      f.aliasedText tree parsers options content = .ok aliased ∧
      f.report tree parsers options directory =
        { path := ((directory.below? f.path).getD f.path).text
          changes := LineChange.between content aliased
          text := some aliased } := by
  refine ⟨ParserSet.answersAll_aliasing options, fun parsers h => ?_⟩
  have ht := f.aliasedText_answersAll tree hs h content
  exact ⟨ht, by simp [report, hc, ht]⟩

def broken : Text := "import x from \"../../lib/x\";\nrequire(\"../../lib/y\"".toList

def brokenTree : FileTree :=
  ⟨[(["p".toList], .directory), (["p".toList, "package.json".toList], .file (.text [])),
    (["p".toList, "a".toList], .directory), (["p".toList, "a".toList, "b".toList], .directory),
    (["p".toList, "a".toList, "b".toList, "c.ts".toList], .file (.text broken)),
    (["p".toList, "a".toList, "b".toList, "d.vue".toList], .file (.text broken))]⟩

/-- A reading with errors, and with an import and a call all the same. -/
def recovered : Reading where
  root := .node ⟨0, "program", true, none, ⟨0, 50⟩⟩
    [.node ⟨1, "import_statement", true, none, ⟨0, 28⟩⟩
      [.node ⟨2, "string", true, some "source", ⟨14, 27⟩⟩ []],
    .node ⟨3, "ERROR", true, none, ⟨29, 50⟩⟩
      [.node ⟨4, "call_expression", true, none, ⟨29, 50⟩⟩
        [.node ⟨5, "identifier", true, some "function", ⟨29, 36⟩⟩ [],
        .node ⟨6, "arguments", true, some "arguments", ⟨36, 50⟩⟩
          [.node ⟨7, "string", true, none, ⟨37, 50⟩⟩ []]]]]
  hasErrors := true

def recovering : ParserSet :=
  Module.dialects.map fun (name, _) => (name, .aliasing (.foreign name name Module.treeFormat
    fun t => .finish (.ok (Module.ofReading name t recovered))) [] {})

theorem answersAll_recovering : recovering.AnswersAll {} := by
  intro p hp
  simp only [Module.dialects, List.mem_cons, List.not_mem_nil, or_false] at hp
  rcases hp with rfl | rfl | rfl | rfl <;>
    exact ⟨_, rfl, fun files context n set t => ⟨_, rfl⟩⟩

theorem report_aliasHeader_broken :
    let aliased := "import x from \"@/lib/x\";\nrequire(\"../../lib/y\"".toList
    (Module.parse "typescript" .typeScript aliased).hasErrors = true ∧
    ∀ f ∈ [SourceFile.mk (.of "/p/a/b/c.ts") .typeScript, ⟨.of "/p/a/b/d.vue", .vue⟩],
      brokenTree.read f.path = .ok broken ∧
      ∀ parsers ∈ [(ParserSet.aliasing {} [] {}).1, recovering],
        f.aliasedText brokenTree parsers {} broken = .ok aliased ∧
        (f.report brokenTree parsers {} (.of "/p")).text = some aliased := by
  refine ⟨by decide +kernel, fun f hf => ?_⟩
  have hc : brokenTree.read f.path = .ok broken := by
    revert f
    decide +kernel
  have ha :
      (aliasHeader (Resolver.ofFile brokenTree {} f.path) ({} : Options).maxDepth broken).text =
      "import x from \"@/lib/x\";\nrequire(\"../../lib/y\"".toList := by
    revert f
    decide +kernel
  refine ⟨hc, fun parsers hp => ?_⟩
  have hs : ({} : Options).strategy = .text := rfl
  obtain ⟨hall, h⟩ := report_aliasHeader hs hc (.of "/p")
  have hp : parsers.AnswersAll {} := by
    simp only [List.mem_cons, List.not_mem_nil, or_false] at hp
    rcases hp with rfl | rfl
    · exact hall
    · exact answersAll_recovering
  obtain ⟨ht, hr⟩ := h parsers hp
  exact ⟨ht.trans (congrArg Except.ok ha), by rw [hr, ha]⟩

end ImportAlias.SourceFile
