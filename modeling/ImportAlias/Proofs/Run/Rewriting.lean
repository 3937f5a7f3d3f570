import ImportAlias.Run
import ImportAlias.Proofs.Grammar.Concrete
import ImportAlias.Proofs.Header.Changes
import ImportAlias.Proofs.Parsers.Composition

/-! The text that aliases make of a file, the edits behind it, and how its report shows them. -/
namespace ImportAlias

/-- The parser makes a tree of every text, be there errors in it or not. -/
def Parser.AnswersAll (p : Parser) : Prop :=
  ∀ files context n set t, ∃ r : Reading,
    (p.parse files context (n + 1) set t).2 = .ok (Module.ofReading p.name t r)

theorem Parser.answersAll_grammar (name : String) (read : Text → Reading) :
    (Parser.grammar name read).AnswersAll :=
  fun _ _ _ _ t => ⟨read t, rfl⟩

namespace ParserSet

theorem find?_aliasing {name : String} {d : Grammar.Dialect} (h : (name, d) ∈ Module.dialects)
    (options : Options) : ParserSet.find? (aliasing {} [] options).1 name =
      some (.aliasing (.grammar name d.read) [] options) := by
  simp only [Module.dialects, List.mem_cons, Prod.mk.injEq, List.not_mem_nil, or_false] at h
  rcases h with ⟨rfl, rfl⟩ | ⟨rfl, rfl⟩ | ⟨rfl, rfl⟩ | ⟨rfl, rfl⟩ <;> rfl

/-- Each dialect has aliases in front of a parser that answers all texts. -/
def AnswersAll (set : ParserSet) (options : Options) : Prop :=
  ∀ p ∈ Module.dialects, ∃ delegate : Parser,
    set.find? p.1 = some (.aliasing delegate [] options) ∧ delegate.AnswersAll

theorem answersAll_aliasing (options : Options) : (aliasing {} [] options).1.AnswersAll options :=
  fun p hp => ⟨_, find?_aliasing hp options, Parser.answersAll_grammar p.1 p.2.read⟩

/-- What comes out for a text of a file is made of the text with the aliases of its header. -/
theorem parseWith_answersAll {set : ParserSet} {options : Options} (h : set.AnswersAll options)
    (hs : options.strategy = .text) {p : String × Grammar.Dialect} (hp : p ∈ Module.dialects)
    (tree : FileTree) (file : Path) (text : Text) :
    ∃ name r, (set.parseWith tree ⟨some file, none⟩ p.1 text).2 =
      .ok (Module.ofReading name
        (aliasHeader (Resolver.ofFile tree options file) options.maxDepth text).text r) := by
  obtain ⟨delegate, hfind, hall⟩ := h p hp
  have hhanded : Parser.handed tree ⟨some file, none⟩ options text =
      (aliasHeader (Resolver.ofFile tree options file) options.maxDepth text).text := by
    simp [Parser.handed, hs]
  have hn : Parser.longestChain = 9998 + 1 + 1 := rfl
  have ho : (ParseContext.mk (some file) none).options.getD options = options := rfl
  have hcall : set.parseWith tree ⟨some file, none⟩ p.1 text =
      delegate.parse tree ⟨some file, none⟩ (9998 + 1) (delegate.downstream set)
        (aliasHeader (Resolver.ofFile tree options file) options.maxDepth text).text := by
    simp only [parseWith, hfind, hn, ← hhanded]
    exact Parser.parse_aliasing_text ho hs set text (9998 + 1)
  rw [hcall]
  exact ⟨delegate.name, hall tree ⟨some file, none⟩ 9998 _ _⟩

/-- What comes out for a text of a file if aliases go into the tree. -/
theorem parseWith_aliasing_tree {p : String × Grammar.Dialect} (hp : p ∈ Module.dialects)
    (tree : FileTree) {options : Options} (hs : options.strategy = .tree) (file : Path)
    (text : Text) :
    (parseWith tree ⟨some file, none⟩ (aliasing {} [] options).1 p.1 text).2 =
      .ok ((Module.parse p.1 p.2 text).aliased
        ((Resolver.ofFile tree options file).choose options.maxDepth)) := by
  unfold parseWith
  rw [find?_aliasing hp]
  simp [Parser.longestChain, Parser.parse, Parser.nextStage, Registry.find?, hs, Except.map,
    Module.parse]

end ParserSet

namespace SourceFile

def dialect? (f : SourceFile) : Option (String × Grammar.Dialect) :=
  f.kind.parserName?.bind fun name => (Module.dialects.lookup name).map (name, ·)

theorem dialect?_eq_some {f : SourceFile} {name : String} (h : f.kind.parserName? = some name) :
    ∃ d, f.dialect? = some (name, d) ∧ (name, d) ∈ Module.dialects := by
  unfold dialect?
  rw [h]
  cases hk : f.kind <;> rw [hk] at h <;> cases h
  · exact ⟨.typeScript, rfl, by decide⟩
  · exact ⟨.tsx, rfl, by decide⟩
  · exact ⟨.javaScript, rfl, by decide⟩

theorem aliasedText_answersAll (f : SourceFile) (tree : FileTree) {options : Options}
    (hs : options.strategy = .text) {parsers : ParserSet} (h : parsers.AnswersAll options)
    (text : Text) : f.aliasedText tree parsers options text =
      .ok (aliasHeader (Resolver.ofFile tree options f.path) options.maxDepth text).text := by
  unfold aliasedText
  cases hp : f.kind.parserName? with
  | none => rfl
  | some name =>
    obtain ⟨d, -, hmem⟩ := dialect?_eq_some hp
    obtain ⟨parser, r, hm⟩ := ParserSet.parseWith_answersAll h hs hmem tree f.path text
    simp [hm, hs, Module.render?_ofReading]

variable (f : SourceFile) (tree : FileTree) (options : Options)

def chosen (s : Specifier) : Option Text :=
  (Resolver.ofFile tree options f.path).choose options.maxDepth s

def edits (text : Text) : List Edit :=
  match f.dialect?, options.strategy with
  | some (name, d), .tree => (Module.parse name d text).edits (f.chosen tree options)
  | _, _ => (Header.scan text).edits (f.chosen tree options)

theorem edits_text (h : f.dialect? = none ∨ options.strategy = .text) (text : Text) :
    f.edits tree options text = (Header.scan text).edits (f.chosen tree options) := by
  unfold edits
  rcases h with h | h
  · simp [h]
  · rw [h]
    split <;> simp_all

theorem aliasedText_text (h : f.dialect? = none ∨ options.strategy = .text) (text : Text) :
    f.aliasedText tree (ParserSet.aliasing {} [] options).1 options text =
      .ok (aliasHeader (Resolver.ofFile tree options f.path) options.maxDepth text).text := by
  rcases h with h | h
  · cases hp : f.kind.parserName? with
    | none => simp [aliasedText, hp]
    | some name =>
      obtain ⟨d, hd, -⟩ := dialect?_eq_some hp
      rw [hd] at h
      cases h
  · exact f.aliasedText_answersAll tree h (ParserSet.answersAll_aliasing options) text

theorem aliasedText_tree {name : String} {d : Grammar.Dialect} (hd : f.dialect? = some (name, d))
    (h : options.strategy = .tree) (text : Text) :
    f.aliasedText tree (ParserSet.aliasing {} [] options).1 options text =
      .ok (if (Module.parse name d text).hasErrors then text
        else ((Module.parse name d text).aliased (f.chosen tree options)).render?.getD text) := by
  unfold aliasedText
  cases hp : f.kind.parserName? with
  | none => simp [dialect?, hp] at hd
  | some name' =>
    obtain ⟨d', hd', hmem⟩ := dialect?_eq_some hp
    rw [hd] at hd'
    cases hd'
    have hc : (Resolver.ofFile tree options f.path).choose options.maxDepth =
        f.chosen tree options := rfl
    have he : ((Module.parse name d text).aliased (f.chosen tree options)).hasErrors =
        (Module.parse name d text).hasErrors := rfl
    simp only [ParserSet.parseWith_aliasing_tree hmem tree h, h, hc, he, and_true]
    split_ifs <;> rfl

/-- Every text of a file gets its aliases, and if none of them has a line break, changes are
seen. -/
theorem exists_aliasedText (text : Text) :
    ∃ u, f.aliasedText tree (ParserSet.aliasing {} [] options).1 options text = .ok u ∧
      ((∀ e ∈ f.edits tree options text, '\n' ∉ e.replacement) → u ≠ text →
        LineChange.between text u ≠ []) := by
  by_cases h : f.dialect? = none ∨ options.strategy = .text
  · refine ⟨_, f.aliasedText_text tree options h text, fun he => ?_⟩
    rw [edits_text f tree options h] at he
    exact Header.between_aliased_ne_nil he
  · obtain ⟨hd, hs⟩ := not_or.mp h
    obtain ⟨⟨name, d⟩, hd⟩ := Option.ne_none_iff_exists'.mp hd
    have hs : options.strategy = .tree := by
      cases hcase : options.strategy with
      | text => exact absurd hcase hs
      | tree => rfl
    refine ⟨_, f.aliasedText_tree tree options hd hs text, fun he hne => ?_⟩
    simp only [edits, hd, hs] at he
    split_ifs at hne ⊢
    · exact absurd rfl hne
    · cases hr : ((Module.parse name d text).aliased (f.chosen tree options)).render? with
      | none => simp [hr] at hne
      | some out =>
        simp only [hr, Option.getD_some] at hne ⊢
        exact Module.between_aliased_ne_nil (Grammar.quoted_root d text) he hr hne

end SourceFile

end ImportAlias
