import ImportAlias.Module.Lower
import ImportAlias.Proofs.Module.Literals
import Mathlib.Data.List.Pairwise

/-! What lowering makes of a concrete tree. Where spans are nested and the children of a node stand
one behind another, no literal is lowered twice. -/
namespace ImportAlias

namespace Concrete

open Node (literalsOf mem_literalsOf)

variable {source : Text} {except : Option Nat} {label : Label} {nodes : List Concrete}

/-! Lookups -/

theorem inField?_eq_some {field : String} {c : Concrete} (h : inField? field nodes = some c) :
    c ∈ nodes ∧ c.label.field = some field :=
  ⟨List.mem_of_find?_eq_some h, by simpa using List.find?_some h⟩

theorem ofKind?_eq_some {kind : String} {c : Concrete} (h : ofKind? kind nodes = some c) :
    c ∈ nodes ∧ c.label.named = true ∧ c.label.kind = kind :=
  ⟨List.mem_of_find?_eq_some h, by simpa using List.find?_some h⟩

theorem importSource?_cases {c : Concrete} (h : importSource? nodes = some c) :
    inField? "source" nodes = some c ∨
      ∃ clause, ofKind? "import_require_clause" nodes = some clause ∧
        (inField? "source" clause.children = some c ∨
          ofKind? "string" clause.children = some c) := by
  rcases Option.or_eq_some_iff.mp h with h | ⟨-, h⟩
  · exact .inl h
  · obtain ⟨clause, hclause, h⟩ := Option.bind_eq_some_iff.mp h
    exact .inr ⟨clause, hclause, (Option.or_eq_some_iff.mp h).imp_right And.right⟩

/-- The node that names the module of an import is a child, or a child of a `require` clause. -/
theorem mem_of_importSource? {c : Concrete} (h : importSource? nodes = some c) :
    c ∈ nodes ∨ ∃ clause ∈ nodes, clause.label.kind = "import_require_clause" ∧
      c ∈ clause.children := by
  rcases importSource?_cases h with h | ⟨clause, hclause, h⟩
  · exact .inl (inField?_eq_some h).1
  · obtain ⟨hmem, -, hkind⟩ := ofKind?_eq_some hclause
    refine .inr ⟨clause, hmem, hkind, ?_⟩
    rcases h with h | h
    · exact (inField?_eq_some h).1
    · exact (ofKind?_eq_some h).1

/-- What is read as a literal stands in the source between its quotes. -/
theorem Label.sits_of_literal? {l : Literal} (h : label.literal? source = some l) :
    l.Sits source ∧ l.span = label.span := by
  obtain ⟨hvalue, htoken, hspan⟩ := Literal.of_ofToken? h
  refine ⟨⟨hvalue, ?_⟩, hspan⟩
  unfold Label.text at htoken
  cases hslice : Text.slice? source label.span.start label.span.stop with
  | none => simp [hslice, Literal.token] at htoken
  | some t =>
    obtain rfl : t = l.token := by simpa [hslice] using htoken
    obtain ⟨front, back, hsource, hstart, hstop⟩ := Text.exists_of_slice? hslice
    refine ⟨front, back, hsource, ?_⟩
    rw [hspan, ← hstop, ← hstart]

/-! Equations -/

theorem lowerAll_eq_flatMap (nodes : List Concrete) : lowerAll source except nodes =
    (nodes.filter fun c => c.label.named).flatMap fun c => (lower source except c).toList := by
  induction nodes with
  | nil => rfl
  | cons c rest ih => cases hc : c.label.named <;> simp [lowerAll, hc, ih]

theorem lowerCallee_eq (nodes : List Concrete) : lowerCallee source nodes =
    (inField? "function" nodes).bind (lower source none) := by
  induction nodes with
  | nil => rfl
  | cons c rest ih =>
    rw [lowerCallee, ih, inField?, inField?, List.find?_cons]
    cases c.label.field == some "function" <;> rfl

theorem lowerArguments_eq (nodes : List Concrete) : lowerArguments source nodes =
    ((inField? "arguments" nodes).filter fun a => a.label.kind == "arguments").map
      fun a => lowerAll source none a.children := by
  induction nodes with
  | nil => rfl
  | cons c rest ih =>
    obtain ⟨label, below⟩ := c
    rw [lowerArguments, ih, inField?, inField?, List.find?_cons]
    cases hf : label.field == some "arguments" with
    | false => simp [hf]
    | true => cases hk : label.kind == "arguments" <;> simp [hf, hk, Option.filter_some]

/-! The forms of lowered nodes -/

/-- What a node may be lowered to. -/
inductive Lowers (source : Text) (except : Option Nat) (label : Label) (nodes : List Concrete) :
    Node → Prop
  | importDecl {c : Concrete} {l : Literal} (typeOnly : Bool)
      (kind : label.kind = "import_statement") (named : importSource? nodes = some c)
      (literal : c.label.literal? source = some l) : Lowers source except label nodes
        (.importDecl l typeOnly (lowerAll source (some c.label.id) nodes) label.span)
  | exportDecl (kind : label.kind = "export_statement") : Lowers source except label nodes
      (.exportDecl none (lowerAll source none nodes) label.span)
  | reexport {c : Concrete} {l : Literal} (kind : label.kind = "export_statement")
      (named : inField? "source" nodes = some c) (literal : c.label.literal? source = some l) :
      Lowers source except label nodes
        (.exportDecl (some l) (lowerAll source (some c.label.id) nodes) label.span)
  | call {callee arguments : Concrete} {n : Node} (kind : label.kind = "call_expression")
      (function : inField? "function" nodes = some callee)
      (lowered : lower source none callee = some n)
      (given : inField? "arguments" nodes = some arguments)
      (isList : arguments.label.kind = "arguments") : Lowers source except label nodes
        (.call n (lowerAll source none arguments.children) label.span)
  | identifier (kind : label.kind = "identifier") : Lowers source except label nodes
      (.identifier (label.text source) label.span)
  | string {l : Literal} (kind : label.kind = "string") (literal : label.literal? source = some l) :
      Lowers source except label nodes (.string l)
  | other : Lowers source except label nodes
      (.other label.kind (lowerAll source except nodes) label.span)

theorem lowers_asImport? {n : Node} (kind : label.kind = "import_statement")
    (h : asImport? source label nodes (fun id => lowerAll source id nodes) = some n) :
    Lowers source except label nodes n := by
  obtain ⟨c, hnamed, h⟩ := Option.bind_eq_some_iff.mp h
  obtain ⟨l, hliteral, h⟩ := Option.bind_eq_some_iff.mp h
  obtain rfl := Option.some.inj h
  exact .importDecl _ kind hnamed hliteral

theorem lowers_asExport? {n : Node} (kind : label.kind = "export_statement")
    (h : asExport? source label nodes (fun id => lowerAll source id nodes) = some n) :
    Lowers source except label nodes n := by
  unfold asExport? at h
  split at h
  · obtain rfl := Option.some.inj h
    exact .exportDecl kind
  · rename_i c hnamed
    obtain ⟨l, hliteral, h⟩ := Option.bind_eq_some_iff.mp h
    obtain rfl := Option.some.inj h
    exact .reexport kind hnamed hliteral

theorem lowers_call {n : Node} (kind : label.kind = "call_expression")
    (h : (do
      let arguments ← lowerArguments source nodes
      let callee ← lowerCallee source nodes
      return Node.call callee arguments label.span) = some n) :
    Lowers source except label nodes n := by
  rw [lowerArguments_eq, lowerCallee_eq] at h
  obtain ⟨arguments, harguments, h⟩ := Option.bind_eq_some_iff.mp h
  obtain ⟨callee, hcallee, h⟩ := Option.bind_eq_some_iff.mp h
  obtain ⟨a, ha, rfl⟩ := Option.map_eq_some_iff.mp harguments
  obtain ⟨f, hf, hlowered⟩ := Option.bind_eq_some_iff.mp hcallee
  obtain rfl := Option.some.inj h
  obtain ⟨hgiven, hkind⟩ := Option.filter_eq_some_iff.mp ha
  exact .call kind hf hlowered hgiven (by simpa using hkind)

/-- A node is lowered to one of these forms, unless it is the one to leave out. -/
theorem lowers_of_lower {n : Node} (h : lower source except (node label nodes) = some n) :
    except ≠ some label.id ∧ Lowers source except label nodes n := by
  have hgetD : ∀ {x : Option Node}, x.getD (.other label.kind (lowerAll source except nodes)
      label.span) = n → (x = some n → Lowers source except label nodes n) →
      Lowers source except label nodes n := by
    rintro (_ | m) hx hn
    · exact hx ▸ .other
    · exact hn (congrArg some hx)
  unfold lower at h
  split_ifs at h with he
  refine ⟨he, hgetD (Option.some.inj h) fun h => ?_⟩
  split at h
  · exact lowers_asImport? ‹_› h
  · exact lowers_asExport? ‹_› h
  · exact lowers_call ‹_› h
  · obtain rfl := Option.some.inj h
    exact .identifier ‹_›
  · obtain ⟨l, hl, rfl⟩ := Option.map_eq_some_iff.mp h
    exact .string ‹_› hl
  · simp at h

theorem mem_literalsOf_lowerAll {l : Literal} (h : l ∈ literalsOf (lowerAll source except nodes)) :
    ∃ c ∈ nodes, ∃ n, lower source except c = some n ∧ l ∈ n.literals := by
  rw [lowerAll_eq_flatMap] at h
  obtain ⟨n, hn, hl⟩ := mem_literalsOf.mp h
  obtain ⟨c, hc, hn⟩ := List.mem_flatMap.mp hn
  exact ⟨c, (List.mem_filter.mp hc).1, n, by simpa using hn, hl⟩

mutual

private theorem below_induction {P : Concrete → Prop}
    (h : ∀ label nodes, (∀ c ∈ nodes, P c) → P (node label nodes)) : ∀ c, P c
  | node label nodes => h label nodes (below_induction_of h nodes)

private theorem below_induction_of {P : Concrete → Prop}
    (h : ∀ label nodes, (∀ c ∈ nodes, P c) → P (node label nodes)) :
    ∀ nodes : List Concrete, ∀ c ∈ nodes, P c
  | [] => by simp
  | c :: rest => List.forall_mem_cons.mpr ⟨below_induction h c, below_induction_of h rest⟩

end

/-- Lowering a node goes down to its children, and in calls and `require` clauses to theirs. -/
theorem lower_induction {P : Concrete → Prop} (h : ∀ label nodes,
    (∀ c ∈ nodes, P c) → (∀ c ∈ nodes, ∀ d ∈ c.children, P d) → P (node label nodes))
    (c : Concrete) : P c := by
  have hall : P c ∧ ∀ d ∈ c.children, P d := by
    induction c using below_induction with
    | h label nodes ih =>
      exact ⟨h label nodes (fun c hc => (ih c hc).1) fun c hc => (ih c hc).2,
        fun c hc => (ih c hc).1⟩
  exact hall.1

/-! Literals at their places -/

/-- Whatever the tree, its literals stand in the source between their quotes. -/
theorem sits_of_lower {c : Concrete} {n : Node} (h : lower source except c = some n) :
    ∀ l ∈ n.literals, l.Sits source := by
  induction c using lower_induction generalizing except n with
  | h label nodes ih ih' =>
    have hall : ∀ {except} {nodes : List Concrete}, (∀ c ∈ nodes, ∀ {except n},
        lower source except c = some n → ∀ l ∈ n.literals, l.Sits source) →
        ∀ l ∈ literalsOf (lowerAll source except nodes), l.Sits source := by
      intro except nodes hb l hl
      obtain ⟨c, hc, n, hn, hl⟩ := mem_literalsOf_lowerAll hl
      exact hb c hc hn l hl
    intro l hl
    cases (lowers_of_lower h).2 with
    | importDecl typeOnly kind named literal =>
      rcases List.mem_cons.mp (by simpa using hl) with rfl | hl
      · exact (Label.sits_of_literal? literal).1
      · exact hall ih l hl
    | exportDecl kind => exact hall ih l (by simpa using hl)
    | reexport kind named literal =>
      rcases List.mem_cons.mp (by simpa using hl) with rfl | hl
      · exact (Label.sits_of_literal? literal).1
      · exact hall ih l hl
    | call kind function lowered given isList =>
      rcases List.mem_append.mp (by simpa using hl) with hl | hl
      · exact ih _ (inField?_eq_some function).1 lowered l hl
      · exact hall (ih' _ (inField?_eq_some given).1) l hl
    | identifier kind => simp at hl
    | string kind literal =>
      obtain rfl : l = _ := by simpa using hl
      exact (Label.sits_of_literal? literal).1
    | other => exact hall ih l (by simpa using hl)

/-! No literal twice -/

/-- Spans are nested, and the children of a node stand one behind another. -/
inductive Laid : Concrete → Prop
  | node {label : Label} {nodes : List Concrete}
      (within : ∀ c ∈ nodes, label.span.Contains c.label.span)
      (ordered : nodes.Pairwise fun a b => a.label.span.Precedes b.label.span)
      (below : ∀ c ∈ nodes, Laid c) : Laid (node label nodes)

theorem Laid.within {c : Concrete} (h : c.Laid) :
    ∀ d ∈ c.children, c.label.span.Contains d.label.span := by
  cases h
  assumption

theorem Laid.ordered {c : Concrete} (h : c.Laid) :
    c.children.Pairwise fun a b => a.label.span.Precedes b.label.span := by
  cases h
  assumption

theorem Laid.child {c : Concrete} (h : c.Laid) : ∀ d ∈ c.children, d.Laid := by
  cases h
  assumption

/-- Different children of a node stand apart. -/
theorem Laid.apart {c a b : Concrete} (h : c.Laid) (ha : a ∈ c.children) (hb : b ∈ c.children)
    (hne : a ≠ b) : a.label.span.Apart b.label.span := by
  have hsymm : Std.Symm fun a b : Concrete => a.label.span.Apart b.label.span :=
    ⟨fun _ _ h => h.symm⟩
  have hapart : c.children.Pairwise fun a b => a.label.span.Apart b.label.span :=
    h.ordered.imp .inl
  exact hapart.forall ha hb hne

/-- Literals within a range, no two of them at the same place. -/
structure Settled (span : Span) (ls : List Literal) : Prop where
  within : ∀ l ∈ ls, span.Contains l.span
  apart : ls.Pairwise fun a b => a.span.Apart b.span

theorem Settled.cons {span : Span} {l : Literal} {ls : List Literal} (h : Settled span ls)
    (hl : span.Contains l.span) (ha : ∀ b ∈ ls, l.span.Apart b.span) : Settled span (l :: ls) :=
  ⟨List.forall_mem_cons.mpr ⟨hl, h.within⟩, List.pairwise_cons.mpr ⟨ha, h.apart⟩⟩

theorem Settled.append {span a b : Span} {ls ks : List Literal} (h : Settled a ls)
    (h' : Settled b ks) (ha : span.Contains a) (hb : span.Contains b) (hapart : a.Apart b) :
    Settled span (ls ++ ks) := by
  refine ⟨fun l hl => ?_, List.pairwise_append.mpr ⟨h.apart, h'.apart, fun l hl k hk => ?_⟩⟩
  · rcases List.mem_append.mp hl with hl | hl
    · exact ha.trans (h.within l hl)
    · exact hb.trans (h'.within l hl)
  · exact hapart.mono (h.within l hl) (h'.within k hk)

/-- Wherever the node is lowered, its literals are settled in its span. -/
def Settles (source : Text) (c : Concrete) : Prop :=
  ∀ {except n}, lower source except c = some n → Settled c.label.span n.literals

variable {c d : Concrete} (hlaid : c.Laid) (hb : ∀ d ∈ c.children, d.Settles source)

include hlaid hb

theorem Laid.settled_lowerAll (except : Option Nat) :
    Settled c.label.span (literalsOf (lowerAll source except c.children)) := by
  refine ⟨fun l hl => ?_, ?_⟩
  · obtain ⟨d, hd, n, hn, hl⟩ := mem_literalsOf_lowerAll hl
    exact (hlaid.within d hd).trans ((hb d hd hn).within l hl)
  · rw [lowerAll_eq_flatMap, literalsOf, List.flatMap_assoc]
    refine List.pairwise_flatMap.mpr ⟨fun d hd => ?_, ?_⟩
    · cases hn : lower source except d with
      | none => simp
      | some n => simpa using (hb d (List.mem_filter.mp hd).1 hn).apart
    · refine (hlaid.ordered.sublist List.filter_sublist).imp_of_mem
        fun {a b} ha hb' hab l hl k hk => ?_
      obtain ⟨m, hm, hl⟩ := mem_literalsOf.mp hl
      obtain ⟨n, hn, hk⟩ := mem_literalsOf.mp hk
      have hwa := (hb a (List.mem_filter.mp ha).1 (by simpa using hm)).within l hl
      have hwb := (hb b (List.mem_filter.mp hb').1 (by simpa using hn)).within k hk
      exact Span.Apart.mono (.inl hab) hwa hwb

/-- A child that is left out stands apart from the literals of the others. -/
theorem Laid.apart_lowerAll (hd : d ∈ c.children) :
    ∀ l ∈ literalsOf (lowerAll source (some d.label.id) c.children), d.label.span.Apart l.span := by
  intro l hl
  obtain ⟨e, he, n, hn, hl⟩ := mem_literalsOf_lowerAll hl
  have hne : d ≠ e := by
    rintro rfl
    obtain ⟨label, nodes⟩ := d
    exact (lowers_of_lower hn).1 rfl
  exact (hlaid.apart hd he hne).mono ⟨Nat.le_refl _, Nat.le_refl _⟩ ((hb e he hn).within l hl)

omit hlaid hb in
/-- Of a `require` clause, only the children have forms of their own. -/
theorem lower_clause {n : Node} (hk : c.label.kind = "import_require_clause")
    (h : lower source except c = some n) :
    n = .other c.label.kind (lowerAll source except c.children) c.label.span := by
  obtain ⟨label, nodes⟩ := c
  rw [label_node] at hk
  cases (lowers_of_lower h).2 with
  | other => rfl
  | _ => simp_all

/-- The node that names the module of an import is left out, so it stands apart from the literals
below the import. -/
theorem Laid.apart_importSource (hb' : ∀ d ∈ c.children, ∀ e ∈ d.children, e.Settles source)
    (h : importSource? c.children = some d) : c.label.span.Contains d.label.span ∧
      ∀ l ∈ literalsOf (lowerAll source (some d.label.id) c.children),
        d.label.span.Apart l.span := by
  rcases mem_of_importSource? h with hd | ⟨clause, hclause, hkind, hd⟩
  · exact ⟨hlaid.within d hd, hlaid.apart_lowerAll hb hd⟩
  · have hin := hlaid.child clause hclause
    refine ⟨(hlaid.within clause hclause).trans (hin.within d hd), fun l hl => ?_⟩
    obtain ⟨e, he, n, hn, hl⟩ := mem_literalsOf_lowerAll hl
    by_cases hne : clause = e
    · subst hne
      obtain rfl := lower_clause hkind hn
      exact hin.apart_lowerAll (hb' clause hclause) hd l (by simpa using hl)
    · exact (hlaid.apart hclause he hne).mono (hin.within d hd) ((hb e he hn).within l hl)

omit hlaid hb in
/-- In a tree whose spans are nested and in order, no literal is lowered twice. -/
theorem Laid.settles (h : c.Laid) : c.Settles source := by
  induction c using lower_induction with
  | h label nodes ih ih' =>
    have hb : ∀ d ∈ nodes, d.Settles source := fun d hd => ih d hd (h.child d hd)
    have hb' : ∀ d ∈ nodes, ∀ e ∈ d.children, e.Settles source := fun d hd e he =>
      ih' d hd e he ((h.child d hd).child e he)
    have hall : ∀ except, Settled label.span (literalsOf (lowerAll source except nodes)) :=
      h.settled_lowerAll hb
    intro except n hn
    cases (lowers_of_lower hn).2 with
    | importDecl typeOnly kind named literal =>
      obtain ⟨hwithin, hapart⟩ := h.apart_importSource hb hb' named
      obtain ⟨-, hspan⟩ := Label.sits_of_literal? literal
      rw [Node.literals_importDecl]
      exact (hall _).cons (hspan ▸ hwithin) (hspan ▸ hapart)
    | exportDecl kind => simpa using hall none
    | reexport kind named literal =>
      have hmem := (inField?_eq_some named).1
      obtain ⟨-, hspan⟩ := Label.sits_of_literal? literal
      rw [Node.literals_exportDecl]
      exact (hall _).cons (hspan ▸ h.within _ hmem) (hspan ▸ h.apart_lowerAll hb hmem)
    | @call callee arguments n kind function lowered given isList =>
      obtain ⟨hf, hfield⟩ := inField?_eq_some function
      obtain ⟨ha, hfield'⟩ := inField?_eq_some given
      have hne : callee ≠ arguments := by
        rintro rfl
        simp [hfield'] at hfield
      rw [Node.literals_call]
      exact (hb _ hf lowered).append ((h.child _ ha).settled_lowerAll (hb' _ ha) none)
        (h.within _ hf) (h.within _ ha) (h.apart hf ha hne)
    | identifier kind => exact ⟨by simp, by simp⟩
    | string kind literal =>
      obtain ⟨-, hspan⟩ := Label.sits_of_literal? literal
      exact ⟨by simp [hspan, Span.Contains], by simp⟩
    | other => simpa using hall except

end Concrete

namespace Module

variable {source : Text} {r : Reading}

theorem lower_root (parser : String) (source : Text) (r : Reading) :
    r.root.lower source none = some (ofReading parser source r).root := by
  obtain ⟨⟨label, nodes⟩, hasErrors⟩ := r
  rw [ofReading, Concrete.lower, if_neg (by simp)]
  rfl

theorem sits_ofReading (parser : String) (source : Text) (r : Reading) :
    ∀ l ∈ (ofReading parser source r).root.literals, l.Sits source :=
  Concrete.sits_of_lower (lower_root parser source r)

theorem apart_ofReading (h : r.root.Laid) (parser : String) :
    (ofReading parser source r).root.literals.Pairwise fun a b => a.span.Apart b.span :=
  (h.settles (lower_root parser source r)).apart

/-- A module is printed as the text that it was read from. -/
theorem render?_ofReading (parser : String) (source : Text) (r : Reading) :
    (ofReading parser source r).render? = some source := by
  have hmodified : (ofReading parser source r).root.literals.filter Literal.isModified = [] :=
    Node.filter_isModified fun l hl => (sits_ofReading parser source r l hl).value_eq
  have hnone : (ofReading parser source r).replacements = [] := by simp [replacements, hmodified]
  rw [render?, hnone, splice, Text.dropBytes?]
  rfl

end Module

end ImportAlias
