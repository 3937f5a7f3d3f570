import ImportAlias.Proofs.Grammar.Concrete
import ImportAlias.Proofs.Header.Mentions

/-! The mentions in the trees that the grammar gives: what trees are read for, and how it is found
in them when they are put together. -/
namespace ImportAlias

open Grammar (Tree Kind)

theorem Literal.ofToken?_quoted (quote : Quote) (body : Text) (start : Nat) :
    Literal.ofToken? (quote.char :: (body ++ [quote.char]))
        ⟨start, start + Text.byteSize (quote.char :: (body ++ [quote.char]))⟩ =
      some (.quotedAt start quote body) := by
  have hq : Quote.ofChar? quote.char = some quote := by cases quote <;> decide
  simp [Literal.ofToken?, hq, quotedAt]

namespace Concrete

theorem mentionsOf?_append (source : Text) (a b : List Concrete) : mentionsOf? source (a ++ b) =
    (mentionsOf? source a).bind fun x => (mentionsOf? source b).map (x ++ ·) := by
  induction a with
  | nil => simp [mentionsOf?]
  | cons c a ih =>
    cases hc : c.label.named with
    | false => simp [mentionsOf?, hc, ih]
    | true =>
      simp only [List.cons_append, mentionsOf?, hc, if_true, ih]
      cases mentions? source c <;> cases mentionsOf? source a <;>
        cases mentionsOf? source b <;> simp

theorem mentions?_leaf (source : Text) (label : Label)
    (h : label.kind ∉ ["import_statement", "export_statement", "call_expression"]) :
    mentions? source (node label []) = some [] := by
  have hown : own? source label.kind [] = some [] := by
    unfold own?
    split <;> simp_all
  simp [mentions?, mentionsOf?, hown]

end Concrete

namespace Grammar

open Concrete (mentions? mentionsOf? mentionsOf?_append formKinds)

/-! Mentions of trees in a row -/

theorem Tree.concreteOf_append (offset id : Nat) (a b : List Tree) :
    concreteOf offset id (a ++ b) = concreteOf offset id a ++
      concreteOf (offset + Text.byteSize (textOf a)) (id + countOf a) b := by
  induction a generalizing offset id with
  | nil => rfl
  | cons t a ih =>
    have hsize : offset + t.byteSize + Text.byteSize (textOf a) =
        offset + Text.byteSize (textOf (t :: a)) := by
      simp [textOf, byteSize, Nat.add_assoc]
    simp only [List.cons_append, concreteOf, ih, hsize, countOf, Nat.add_assoc, List.append_assoc]

/-- The mentions of trees at a place in a source. -/
def mentionsAt (source : Text) (offset id : Nat) (a : List Tree) : Option (List Mention) :=
  mentionsOf? source (Tree.concreteOf offset id a)

theorem mentionsAt_append (source : Text) (offset id : Nat) (a b : List Tree) :
    mentionsAt source offset id (a ++ b) = (mentionsAt source offset id a).bind fun x =>
      (mentionsAt source (offset + Text.byteSize (Tree.textOf a)) (id + Tree.countOf a) b).map
        (x ++ ·) := by
  rw [mentionsAt, Tree.concreteOf_append, mentionsOf?_append]
  rfl

/-- What stands in front of the others, and the others. -/
theorem exists_wrap (kind : Kind) (a : List Tree) :
    ∃ x y, a = x ++ y ∧ (∀ t ∈ x, t.isTrivia = true) ∧ wrap kind a = x ++ [.node kind y] :=
  ⟨a.takeWhile Tree.isTrivia, a.dropWhile Tree.isTrivia,
    List.takeWhile_append_dropWhile.symm, fun _ ht => List.mem_takeWhile_imp ht, rfl⟩

theorem bracketed_not_mem {name : String} {kinds : List String}
    (h : ∀ kind ∈ kinds, kind.toList.head? ≠ some '<') : "<" ++ name ++ ">" ∉ kinds :=
  fun hm => bracketed_ne (h _ hm) rfl

/-- A leaf is no mention. -/
theorem mentionsAt_leaf (source : Text) (offset id : Nat) (kind : Kind) (t : Text) :
    mentionsAt source offset id [.leaf kind t] = some [] := by
  have hleaf : kind ≠ .mark → kind.ofLeaf t ∉
      ["import_statement", "export_statement", "call_expression"] := by
    intro hk
    cases kind with
    | mark => exact absurd rfl hk
    | other name => exact bracketed_not_mem (by decide)
    | _ => simp [Kind.ofLeaf]
  by_cases hspace : kind = .space
  · subst hspace
    rfl
  have hc : Tree.concreteOf offset id [.leaf kind t] = [.node ⟨id, kind.ofLeaf t, kind != .mark,
      kind.leafField?, ⟨offset, offset + Text.byteSize t⟩⟩ []] := by
    cases kind <;> simp_all [Tree.concreteOf, Tree.concrete]
  rw [mentionsAt, hc, mentionsOf?]
  by_cases hmark : kind = .mark
  · simp [hmark, mentionsOf?]
  · have hmentions := Concrete.mentions?_leaf source
      ⟨id, kind.ofLeaf t, kind != .mark, kind.leafField?, ⟨offset, offset + Text.byteSize t⟩⟩
      (hleaf hmark)
    simp [hmark, mentionsOf?, hmentions]

/-- A node of another kind has the mentions below it. -/
theorem mentionsAt_other (source : Text) (offset id : Nat) (name : String) (a : List Tree) :
    mentionsAt source offset id [.node (.other name) a] = mentionsAt source offset (id + 1) a := by
  have hk : (Kind.other name).ofNode ∉ formKinds := bracketed_not_mem (by decide)
  simp [mentionsAt, Tree.concreteOf, Tree.concrete, mentionsOf?, mentions?, hk]

/-- Trees without mentions, and without a source of their own. -/
structure Silent (a : List Tree) : Prop where
  mentions : ∀ source offset id, mentionsAt source offset id a = some []
  source : ∀ t ∈ a, t.kind ≠ .source

variable {a b : List Tree}

theorem silent_nil : Silent [] := ⟨fun _ _ _ => rfl, by simp⟩

theorem Silent.append (ha : Silent a) (hb : Silent b) : Silent (a ++ b) := by
  refine ⟨fun source offset id => ?_, fun t ht => ?_⟩
  · rw [mentionsAt_append, ha.mentions, hb.mentions]
    rfl
  · rcases List.mem_append.mp ht with ht | ht
    · exact ha.source t ht
    · exact hb.source t ht

theorem silent_leaf {kind : Kind} (hs : kind ≠ .source) (t : Text) : Silent [.leaf kind t] :=
  ⟨fun source offset id => mentionsAt_leaf source offset id kind t, by simpa [Tree.kind] using hs⟩

theorem silent_trivia (h : ∀ t ∈ a, t.isTrivia = true) : Silent a := by
  induction a with
  | nil => exact silent_nil
  | cons t a ih =>
    obtain ⟨ht, ha⟩ := List.forall_mem_cons.mp h
    unfold Tree.isTrivia at ht
    split at ht
    · exact (silent_leaf (by decide) _).append (ih ha)
    · exact (silent_leaf (by decide) _).append (ih ha)
    · simp at ht

/-- Behind silent trees. -/
theorem Silent.mentionsAt_append (ha : Silent a) (source : Text) (offset id : Nat) (b : List Tree) :
    mentionsAt source offset id (a ++ b) =
      mentionsAt source (offset + Text.byteSize (Tree.textOf a)) (id + Tree.countOf a) b := by
  rw [Grammar.mentionsAt_append, ha.mentions]
  simp

theorem Silent.wrap (h : Silent a) (name : String) : Silent (wrap (.other name) a) := by
  obtain ⟨x, y, rfl, hx, hw⟩ := exists_wrap (.other name) a
  have hx := silent_trivia hx
  rw [hw]
  refine ⟨fun source offset id => ?_, fun t ht => ?_⟩
  · have hmentions := h.mentions source offset (id + 1)
    rw [hx.mentionsAt_append, Nat.add_right_comm] at hmentions
    rw [hx.mentionsAt_append, mentionsAt_other, hmentions]
  · rcases List.mem_append.mp ht with ht | ht
    · exact hx.source t ht
    · obtain rfl := List.mem_singleton.mp ht
      simp [Tree.kind]

/-! What is found in trees -/

/-- What trees are read for: nothing, the source of a statement, an import or call with its literal,
or an export. The text in front of a literal is given. -/
inductive Found where
  | nothing
  | source (before : Text) (quote : Quote) (body : Text)
  | literal (mention : Literal → Mention) (before : Text) (quote : Quote) (body : Text)
  | exported

/-- The same behind a text. -/
def Found.after (w : Text) : Found → Found
  | source before quote body => source (w ++ before) quote body
  | literal mention before quote body => literal mention (w ++ before) quote body
  | f => f

def Shows : Found → List Tree → Prop
  | .nothing, a => Silent a
  | .source before quote body, a => ∃ x y,
    a = x ++ .leaf .source (quote.char :: (body ++ [quote.char])) :: y ∧ Silent x ∧ Silent y ∧
      Tree.textOf x = before
  | .literal mention before quote body, a => ∀ front back id,
    mentionsAt (front ++ (Tree.textOf a ++ back)) (Text.byteSize front) id a =
      some [mention (.quotedAt (Text.byteSize front + Text.byteSize before) quote body)]
  | .exported, a => ∀ source offset id, mentionsAt source offset id a = some [.exported]

variable {f : Found}

theorem Shows.append_silent (ha : Shows f a) (hb : Silent b) : Shows f (a ++ b) := by
  cases f with
  | nothing => exact Silent.append ha hb
  | source before quote body =>
    obtain ⟨x, y, rfl, hx, hy, ht⟩ := ha
    exact ⟨x, y ++ b, by simp, hx, hy.append hb, ht⟩
  | literal mention before quote body =>
    intro front back id
    rw [mentionsAt_append, Tree.textOf_append, List.append_assoc, ha, hb.mentions]
    rfl
  | exported =>
    intro source offset id
    rw [mentionsAt_append, ha, hb.mentions]
    rfl

theorem Silent.append_shows (ha : Silent a) (hb : Shows f b) :
    Shows (f.after (Tree.textOf a)) (a ++ b) := by
  cases f with
  | nothing => exact Silent.append ha hb
  | source before quote body =>
    obtain ⟨x, y, rfl, hx, hy, ht⟩ := hb
    exact ⟨a ++ x, y, by simp, ha.append hx, hy, by simp [ht]⟩
  | literal mention before quote body =>
    intro front back id
    have hmentions := hb (front ++ Tree.textOf a) back (id + Tree.countOf a)
    rw [ha.mentionsAt_append, Tree.textOf_append, Text.byteSize_append, ← Nat.add_assoc,
      ← Text.byteSize_append, List.append_assoc, ← List.append_assoc front]
    exact hmentions
  | exported =>
    intro source offset id
    rw [ha.mentionsAt_append]
    exact hb _ _ _

theorem Shows.wrap (h : Shows f a) (hf : ∀ before quote body, f ≠ .source before quote body)
    (name : String) : Shows f (wrap (.other name) a) := by
  obtain ⟨x, y, rfl, hx, hw⟩ := exists_wrap (.other name) a
  have hx := silent_trivia hx
  have htext : Tree.textOf (x ++ [Tree.node (.other name) y]) = Tree.textOf (x ++ y) := by
    simp [Tree.textOf, Tree.text]
  have hmentions : ∀ source offset id, mentionsAt source offset id (x ++ [.node (.other name) y]) =
      mentionsAt source offset (id + 1) (x ++ y) := by
    intro source offset id
    rw [hx.mentionsAt_append, hx.mentionsAt_append, mentionsAt_other, Nat.add_right_comm]
  cases f with
  | nothing => exact Silent.wrap h name
  | source before quote body => exact absurd rfl (hf before quote body)
  | literal mention before quote body =>
    intro front back id
    rw [hw, htext, hmentions, h]
  | exported =>
    intro source offset id
    rw [hw, hmentions, h]

/-! Statements with a source -/

theorem takeWhile_append_cons {α : Type} {p : α → Bool} {c : α} (hc : p c = false) (x y : List α) :
    (x ++ c :: y).takeWhile p = x.takeWhile p ∧
      (x ++ c :: y).dropWhile p = x.dropWhile p ++ c :: y := by
  induction x with
  | nil => simp [hc]
  | cons e x ih => cases he : p e <;> simp [he, ih]

/-- Around a source, what stands in front of the statement stays in front of it. -/
theorem exists_wrap_source (kind : Kind) {before body : Text} {quote : Quote}
    (h : Shows (.source before quote body) a) :
    ∃ x z y, wrap kind a = x ++
        [.node kind (z ++ .leaf .source (quote.char :: (body ++ [quote.char])) :: y)] ∧
      Silent x ∧ Silent (x ++ z) ∧ Silent y ∧ Tree.textOf x ++ Tree.textOf z = before := by
  obtain ⟨x, y, rfl, hx, hy, ht⟩ := h
  have hsource : (Tree.leaf .source (quote.char :: (body ++ [quote.char]))).isTrivia = false := rfl
  obtain ⟨htake, hdrop⟩ := takeWhile_append_cons hsource x y
  refine ⟨x.takeWhile Tree.isTrivia, x.dropWhile Tree.isTrivia, y, ?_,
    silent_trivia fun t ht => List.mem_takeWhile_imp ht, ?_, hy, ?_⟩
  · rw [Grammar.wrap, htake, hdrop]
  · rwa [List.takeWhile_append_dropWhile]
  · rw [← Tree.textOf_append, List.takeWhile_append_dropWhile, ht]

section Source

variable {x y z : List Tree}

/-- There are no mentions below a statement with a source. -/
theorem mentionsAt_source (hx : Silent x) (hz : Silent (x ++ z)) (hy : Silent y) (source s : Text)
    (offset id : Nat) : mentionsAt source (offset + Text.byteSize (Tree.textOf x))
      (id + Tree.countOf x + 1) (z ++ .leaf .source s :: y) = some [] := by
  have hfront := hz.mentions source offset (id + 1)
  rw [hx.mentionsAt_append, Nat.add_right_comm] at hfront
  have hback : ∀ offset id, mentionsAt source offset id ([.leaf .source s] ++ y) = some [] := by
    intro offset id
    rw [mentionsAt_append, mentionsAt_leaf, hy.mentions]
    rfl
  rw [mentionsAt_append, hfront]
  exact congrArg (Option.map _) (hback _ _)

/-- The source of a statement is found in its field. -/
theorem importSource?_concreteOf (hz : ∀ t ∈ z, t.kind ≠ .source) (front : Text) (id : Nat)
    (s : Text) : ∃ c, Concrete.importSource? (Tree.concreteOf (Text.byteSize front) id
        (z ++ .leaf .source s :: y)) = some c ∧
      c.label.span = ⟨Text.byteSize (front ++ Tree.textOf z),
        Text.byteSize (front ++ Tree.textOf z) + Text.byteSize s⟩ := by
  have hnone : Concrete.inField? "source" (Tree.concreteOf (Text.byteSize front) id z) = none := by
    refine List.find?_eq_none.mpr fun c hc => ?_
    obtain ⟨t, ht, _, _, _, hc, -⟩ := Tree.exists_of_mem_concreteOf [] hc
    intro hfield
    obtain ⟨s, rfl⟩ := Tree.leaf_of_field_source hc (by simpa using hfield)
    exact hz _ ht rfl
  rw [Tree.concreteOf_append, Concrete.importSource?, Concrete.inField?, List.find?_append]
  rw [Concrete.inField?] at hnone
  rw [hnone, ← Text.byteSize_append]
  exact ⟨_, rfl, rfl⟩

end Source

/-- A statement or call below which there are no mentions. -/
theorem mentionsAt_node {kind : Kind} {nodes : List Concrete} {offset id : Nat} {source : Text}
    {mention : Mention} {span : Span}
    (hc : Tree.concreteOf offset id a =
      [.node ⟨id, kind.ofNode, true, kind.nodeField?, span⟩ nodes])
    (hk : kind.ofNode ∈ formKinds) (hb : mentionsOf? source nodes = some [])
    (hown : Concrete.own? source kind.ofNode nodes = some [mention]) :
    mentionsAt source offset id a = some [mention] := by
  have hmentions : mentions? source (.node ⟨id, kind.ofNode, true, kind.nodeField?, span⟩ nodes) =
      some [mention] := (Concrete.mentions?_of_mem_formKinds hk hb).trans hown
  simp [mentionsAt, hc, mentionsOf?, hmentions]

/-- What a node spans is read as a literal. -/
theorem literal?_of_span {label : Concrete.Label} {front body : Text} {quote : Quote} (back : Text)
    (h : label.span = ⟨Text.byteSize front,
      Text.byteSize front + Text.byteSize (quote.char :: (body ++ [quote.char]))⟩) :
    label.literal? (front ++ (quote.char :: (body ++ [quote.char]) ++ back)) =
      some (.quotedAt (Text.byteSize front) quote body) := by
  rw [Concrete.Label.literal?, Concrete.Label.text, h, Text.slice?_append]
  exact Literal.ofToken?_quoted quote body _

/-- The source of an import is its literal. -/
theorem Shows.importStatement {before body : Text} {quote : Quote}
    (h : Shows (.source before quote body) a) :
    Shows (.literal .imported before quote body) (Grammar.wrap .importStatement a) := by
  intro front back id
  obtain ⟨x, z, y, hw, hx, hz, hy, rfl⟩ := exists_wrap_source .importStatement h
  have hz' : ∀ t ∈ z, t.kind ≠ .source := fun t ht => hz.source t (List.mem_append_right _ ht)
  obtain ⟨c, hc, hspan⟩ := importSource?_concreteOf (y := y) hz' (front ++ Tree.textOf x)
    (id + Tree.countOf x + 1) (quote.char :: (body ++ [quote.char]))
  have hliteral := literal?_of_span (Tree.textOf y ++ back) hspan
  have hplace : front ++ Tree.textOf x ++ Tree.textOf z ++
      (quote.char :: (body ++ [quote.char]) ++ (Tree.textOf y ++ back)) =
      front ++ (Tree.textOf (Grammar.wrap .importStatement a) ++ back) := by
    rw [hw]
    simp [Tree.textOf, Tree.text]
  rw [hplace, List.append_assoc front, Text.byteSize_append front, hw] at hliteral
  rw [hw, hx.mentionsAt_append]
  rw [Text.byteSize_append] at hc
  exact mentionsAt_node rfl (by decide) (mentionsAt_source hx hz hy _ _ _ _)
    (Concrete.own?_importStatement hc hliteral)

/-- An export is one, whatever its source. -/
theorem Shows.exportStatement {before body : Text} {quote : Quote}
    (h : Shows (.source before quote body) a) :
    Shows .exported (Grammar.wrap .exportStatement a) := by
  obtain ⟨x, z, y, hw, hx, hz, hy, -⟩ := exists_wrap_source .exportStatement h
  intro source offset id
  rw [hw, hx.mentionsAt_append]
  exact mentionsAt_node rfl (by decide) (mentionsAt_source hx hz hy source _ offset id) rfl

/-! Calls of `require` -/

def IsSpaces (x : List Tree) : Prop := ∀ t ∈ x, ∃ s, t = .leaf .space s

theorem IsSpaces.concreteOf {x : List Tree} (h : IsSpaces x) (offset id : Nat) :
    Tree.concreteOf offset id x = [] := by
  induction x generalizing offset id with
  | nil => rfl
  | cons t x ih =>
    obtain ⟨s, rfl⟩ := h t List.mem_cons_self
    simp [Tree.concreteOf, Tree.concrete, ih fun t ht => h t (List.mem_cons_of_mem _ ht)]

theorem wrap_spaces {x : List Tree} (h : IsSpaces x) (kind leafKind : Kind) (s : Text)
    (hk : (Tree.leaf leafKind s).isTrivia = false) (y : List Tree) :
    wrap kind (x ++ .leaf leafKind s :: y) = x ++ [.node kind (.leaf leafKind s :: y)] := by
  have hx : x.takeWhile Tree.isTrivia = x ∧ x.dropWhile Tree.isTrivia = [] := by
    have hall : ∀ t ∈ x, t.isTrivia = true := by
      intro t ht
      obtain ⟨s, rfl⟩ := h t ht
      rfl
    exact ⟨List.takeWhile_eq_self_iff.mpr hall, List.dropWhile_eq_nil_iff.mpr hall⟩
  obtain ⟨htake, hdrop⟩ := takeWhile_append_cons hk x y
  rw [wrap, htake, hdrop, hx.1, hx.2, List.nil_append]

end Grammar

end ImportAlias
