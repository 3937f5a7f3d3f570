import ImportAlias.Module.Parse
import ImportAlias.Proofs.Grammar.Quotes
import ImportAlias.Proofs.Module.Changes

/-! The concrete trees that the grammar gives: their spans are nested and in order, and the strings
that count are string tokens. -/
namespace ImportAlias.Grammar

open Concrete (Laid Quoted Label)

/-- A kind in angle brackets is none of the others. -/
theorem bracketed_ne {name kind : String} (h : kind.toList.head? ≠ some '<') :
    "<" ++ name ++ ">" ≠ kind := by
  rintro rfl
  simp at h

namespace Tree

/-! Single nodes -/

theorem span_of_mem_concrete {offset id : Nat} {t : Tree} {c : Concrete}
    (h : c ∈ t.concrete offset id) : c.label.span = ⟨offset, offset + t.byteSize⟩ := by
  cases t with
  | leaf kind s => cases kind <;> simp_all [concrete, byteSize, text]
  | node kind trees => simp_all [concrete, byteSize, text]

theorem leaf_of_field_source {offset id : Nat} {t : Tree} {c : Concrete}
    (h : c ∈ t.concrete offset id) (hf : c.label.field = some "source") :
    ∃ s, t = leaf .source s := by
  cases t with
  | leaf kind s => cases kind <;> simp_all [concrete, Kind.leafField?]
  | node kind trees => cases kind <;> simp_all [concrete, Kind.nodeField?]

theorem leaf_of_kind_string {offset id : Nat} {t : Tree} {c : Concrete}
    (h : c ∈ t.concrete offset id) (hn : c.label.named = true) (hk : c.label.kind = "string") :
    ∃ s, t = leaf .string s ∨ t = leaf .source s := by
  have hother : ∀ name, "<" ++ name ++ ">" ≠ "string" := fun name => bracketed_ne (by decide)
  cases t with
  | leaf kind s => cases kind <;> simp_all [concrete, Kind.ofLeaf]
  | node kind trees => cases kind <;> simp_all [concrete, Kind.ofNode]

/-- Trees in a row give the nodes of each, at its place in the text. -/
theorem exists_of_mem_concreteOf {before : Text} (after : Text) {id : Nat} {trees : List Tree}
    {c : Concrete} (h : c ∈ concreteOf (Text.byteSize before) id trees) : ∃ t ∈ trees, ∃ x y i,
      c ∈ t.concrete (Text.byteSize x) i ∧
        before ++ (textOf trees ++ after) = x ++ (t.text ++ y) := by
  induction trees generalizing before id with
  | nil => simp [concreteOf] at h
  | cons t rest ih =>
    rcases List.mem_append.mp h with h | h
    · exact ⟨t, List.mem_cons_self, before, textOf rest ++ after, id, h, by simp [textOf]⟩
    · rw [byteSize, ← Text.byteSize_append] at h
      obtain ⟨u, hu, x, y, i, hc, hs⟩ := ih h
      exact ⟨u, List.mem_cons_of_mem _ hu, x, y, i, hc, by simpa [textOf] using hs⟩

/-- Naming what is called changes no more than a field. -/
theorem exists_of_mem_withCallee {nodes : List Concrete} {c : Concrete}
    (h : c ∈ withCallee nodes) : ∃ d ∈ nodes, c.children = d.children ∧
      c.label.kind = d.label.kind ∧ c.label.named = d.label.named ∧ c.label.span = d.label.span ∧
      (c.label.field = d.label.field ∨ c.label.field = some "function") := by
  cases nodes with
  | nil => simp [withCallee] at h
  | cons d rest =>
    obtain ⟨label, nodes⟩ := d
    rcases List.mem_cons.mp h with rfl | h
    · exact ⟨_, List.mem_cons_self, rfl, rfl, rfl, rfl, .inr rfl⟩
    · exact ⟨c, List.mem_cons_of_mem _ h, rfl, rfl, rfl, rfl, .inl rfl⟩

/-! Spans -/

theorem laid_of_children {c d : Concrete} (h : d.Laid) (hc : c.children = d.children)
    (hs : c.label.span = d.label.span) : c.Laid := by
  obtain ⟨label, nodes⟩ := c
  obtain rfl : nodes = d.children := hc
  exact .node (fun e he => hs ▸ h.within e he) h.ordered h.child

theorem laid_withCallee {label : Label} {nodes : List Concrete}
    (h : (Concrete.node label nodes).Laid) : (Concrete.node label (withCallee nodes)).Laid := by
  refine .node (fun c hc => ?_) ?_ (fun c hc => ?_)
  · obtain ⟨d, hd, -, -, -, hspan, -⟩ := exists_of_mem_withCallee hc
    exact hspan ▸ h.within d hd
  · have ho := h.ordered
    cases nodes with
    | nil => exact .nil
    | cons d rest =>
      obtain ⟨l, nodes⟩ := d
      exact List.pairwise_cons.mpr (List.pairwise_cons.mp ho)
  · obtain ⟨d, hd, hchildren, -, -, hspan, -⟩ := exists_of_mem_withCallee hc
    exact laid_of_children (h.child d hd) hchildren hspan

mutual

theorem laid_of_mem_concrete : ∀ (t : Tree) (offset id : Nat), ∀ c ∈ t.concrete offset id, c.Laid
  | leaf kind s, offset, id => by
    intro c hc
    cases kind <;> simp only [concrete, List.not_mem_nil, List.mem_singleton] at hc <;> subst hc <;>
      exact .node (by simp) .nil (by simp)
  | node kind trees, offset, id => by
    intro c hc
    obtain rfl := List.mem_singleton.mp hc
    have hbelow := fun label hl => laid_concreteOf trees label offset (id + 1) hl
    split
    · exact laid_withCallee (hbelow _ rfl)
    · exact hbelow _ rfl

/-- Nodes in a row, below one that spans them all. -/
theorem laid_concreteOf : ∀ (trees : List Tree) (label : Label) (offset id : Nat),
    label.span = ⟨offset, offset + Text.byteSize (textOf trees)⟩ →
    (Concrete.node label (concreteOf offset id trees)).Laid
  | [], label, offset, id, hl => .node (by simp [concreteOf]) .nil (by simp [concreteOf])
  | t :: rest, label, offset, id, hl => by
    have hsize : Text.byteSize (textOf (t :: rest)) = t.byteSize + Text.byteSize (textOf rest) := by
      simp [textOf, byteSize]
    have ht := laid_of_mem_concrete t offset id
    have hrest := laid_concreteOf rest ⟨0, "", true, none, _⟩ (offset + t.byteSize)
      (id + t.count) rfl
    refine .node (fun c hc => ?_) ?_ (fun c hc => ?_)
    · rw [hl, hsize]
      rcases List.mem_append.mp hc with hc | hc
      · rw [span_of_mem_concrete hc]
        exact ⟨Nat.le_refl _, by simp⟩
      · obtain ⟨hstart, hstop⟩ := hrest.within c hc
        simp only [Concrete.label_node] at hstart hstop
        exact ⟨by simp only; omega, by simp only; omega⟩
    · refine List.pairwise_append.mpr ⟨?_, hrest.ordered, fun c hc d hd => ?_⟩
      · cases t with
        | leaf kind s => cases kind <;> simp [concrete]
        | node kind trees => simp [concrete]
      · rw [span_of_mem_concrete hc]
        exact (hrest.within d hd).1
    · rcases List.mem_append.mp hc with hc | hc
      · exact ht c hc
      · exact hrest.child c hc

end

/-! Strings -/

theorem text_of_mem_concrete {x y : Text} {id : Nat} {t : Tree} {c : Concrete}
    (h : c ∈ t.concrete (Text.byteSize x) id) : c.label.text (x ++ (t.text ++ y)) = t.text := by
  rw [Label.text, span_of_mem_concrete h, byteSize, Text.slice?_append]
  rfl

theorem quoted_of_children {source : Text} {c d : Concrete} (h : d.Quoted source)
    (hc : c.children = d.children) (hk : c.label.kind = d.label.kind) : c.Quoted source := by
  obtain ⟨label, nodes⟩ := c
  obtain ⟨label', nodes'⟩ := d
  obtain rfl : nodes = nodes' := hc
  cases h with
  | node sources strings below => exact .node sources (fun h => strings (hk ▸ h)) below

theorem quoted_withCallee {source : Text} {label : Label} {nodes : List Concrete}
    (h : (Concrete.node label nodes).Quoted source) :
    (Concrete.node label (withCallee nodes)).Quoted source := by
  cases h with
  | node sources strings below =>
    refine .node (fun c hc hf => ?_) (fun hl c hc hn hk => ?_) (fun c hc => ?_)
    · obtain ⟨d, hd, -, -, -, hspan, hfield⟩ := exists_of_mem_withCallee hc
      rw [Label.text, hspan]
      exact sources d hd (by simp_all)
    · obtain ⟨d, hd, -, hkind, hnamed, hspan, -⟩ := exists_of_mem_withCallee hc
      rw [Label.text, hspan]
      exact strings hl d hd (hnamed ▸ hn) (hkind ▸ hk)
    · obtain ⟨d, hd, hchildren, hkind, -⟩ := exists_of_mem_withCallee hc
      exact quoted_of_children (below d hd) hchildren hkind

theorem arguments_of_ofNode {kind : Kind}
    (h : kind.ofNode ∈ ["arguments", "import_require_clause"]) : kind = .arguments := by
  have hother : ∀ name, "<" ++ name ++ ">" ≠ "arguments" ∧
      "<" ++ name ++ ">" ≠ "import_require_clause" :=
    fun name => ⟨bracketed_ne (by decide), bracketed_ne (by decide)⟩
  cases kind <;> simp_all [Kind.ofNode]

/-- Wherever a tree stands, the strings in its nodes end at their second quote. -/
def QuotedAnywhere (t : Tree) : Prop :=
  ∀ (x y : Text) (id : Nat), ∀ c ∈ t.concrete (Text.byteSize x) id, c.Quoted (x ++ (t.text ++ y))

theorem quoted_concreteOf {trees : List Tree} (hs : SoundAll trees)
    (hb : ∀ t ∈ trees, t.QuotedAnywhere) (x y : Text) (id : Nat) {label : Label}
    (hl : label.kind ∈ ["arguments", "import_require_clause"] → StringsIn trees) :
    (Concrete.node label (concreteOf (Text.byteSize x) id trees)).Quoted
      (x ++ (textOf trees ++ y)) := by
  have hsource : ∀ {s}, leaf .source s ∈ trees → IsString s :=
    fun h => soundAll_iff.mp hs _ h rfl
  refine .node (fun c hc hf => ?_) (fun hk c hc hn hstring => ?_) (fun c hc => ?_) <;>
    obtain ⟨t, ht, x', y', i, hc, hplace⟩ := exists_of_mem_concreteOf y hc <;>
    rw [hplace]
  · obtain ⟨s, rfl⟩ := leaf_of_field_source hc hf
    rw [text_of_mem_concrete hc]
    exact hsource ht
  · rw [text_of_mem_concrete hc]
    obtain ⟨s, rfl | rfl⟩ := leaf_of_kind_string hc hn hstring
    · exact hl hk s ht
    · exact hsource ht
  · exact hb t ht x' y' i c hc

mutual

theorem quotedAnywhere : ∀ t : Tree, t.Sound → t.QuotedAnywhere
  | leaf kind s, _ => by
    intro x y id c hc
    cases kind <;> simp only [concrete, List.not_mem_nil, List.mem_singleton] at hc <;> subst hc <;>
      exact .node (by simp) (by simp) (by simp)
  | node kind trees, hs => by
    intro x y id c hc
    obtain rfl := List.mem_singleton.mp hc
    have hstrings : kind.ofNode ∈ ["arguments", "import_require_clause"] → StringsIn trees :=
      fun hk => hs.1 (arguments_of_ofNode hk ▸ rfl)
    have hbelow := quotedAnywhere_of trees hs.2
    split
    · exact quoted_withCallee (quoted_concreteOf hs.2 hbelow x y (id + 1) hstrings)
    · exact quoted_concreteOf hs.2 hbelow x y (id + 1) hstrings

theorem quotedAnywhere_of : ∀ trees : List Tree, SoundAll trees → ∀ t ∈ trees, t.QuotedAnywhere
  | [], _ => by simp
  | t :: rest, hs =>
    List.forall_mem_cons.mpr ⟨quotedAnywhere t hs.1, quotedAnywhere_of rest hs.2⟩

end

end Tree

/-! Readings -/

theorem laid_read (d : Dialect) (source : Text) : (d.read source).root.Laid := by
  unfold Dialect.read
  split
  · rename_i trees h
    exact Tree.laid_concreteOf trees _ 0 1 (by simp [textOf_parse? h])
  · exact .node (by simp) .nil (by simp)

theorem quoted_root (d : Dialect) (source : Text) : (d.read source).root.Quoted source := by
  unfold Dialect.read
  split
  · rename_i trees h
    have hs := soundAll_parse? h
    have hplace : source = [] ++ (Tree.textOf trees ++ []) := by simp [textOf_parse? h]
    rw [hplace]
    exact Tree.quoted_concreteOf hs (Tree.quotedAnywhere_of trees hs) [] [] 1 (by simp)
  · exact .node (by simp) (by simp) (by simp)

end ImportAlias.Grammar
