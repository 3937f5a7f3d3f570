import ImportAlias.Proofs.Module.Lowering

/-! The imports, exports and calls of `require` that a concrete tree shows. They tell which literals
an alias may replace, whatever else the tree is made of. -/
namespace ImportAlias

/-- An import or a call of `require` with its literal, or an export. -/
inductive Mention where
  | imported (l : Literal)
  | required (l : Literal)
  | exported
  deriving DecidableEq

def Mention.literal? : Mention → Option Literal
  | imported l | required l => some l
  | exported => none

namespace Concrete

open Node (candidatesOf)

/-- The literal of a call, if `require` is called and a string is the first argument. -/
def requireLiteral? (source : Text) (nodes : List Concrete) : Option Literal := do
  let callee ← inField? "function" nodes
  let arguments ← inField? "arguments" nodes
  let first ← arguments.children.find? fun c => c.label.named
  if callee.label.kind = "identifier" ∧ callee.label.text source = "require".toList ∧
      arguments.label.named = true ∧ arguments.label.kind = "arguments" ∧
      first.label.kind = "string" then
    first.label.literal? source
  else none

/-- The mention at a node of a kind that lowering has a form for. -/
def own? (source : Text) (kind : String) (nodes : List Concrete) : Option (List Mention) :=
  match kind with
  | "import_statement" => do
    let named ← importSource? nodes
    let literal ← named.label.literal? source
    return [.imported literal]
  | "export_statement" => some [.exported]
  | "call_expression" => (requireLiteral? source nodes).map fun literal => [.required literal]
  | _ => some []

def formKinds : List String :=
  ["import_statement", "export_statement", "call_expression", "identifier", "string"]

mutual

/-- The mentions of a tree, one behind another. A tree has none if there is a mention in another
one, or a statement or call that is no mention. -/
def mentions? (source : Text) : Concrete → Option (List Mention)
  | node label nodes => do
    let below ← mentionsOf? source nodes
    if label.kind ∈ formKinds then
      if below = [] then own? source label.kind nodes else none
    else return below

def mentionsOf? (source : Text) : List Concrete → Option (List Mention)
  | [] => some []
  | c :: rest =>
    if c.label.named then do
      let first ← mentions? source c
      let others ← mentionsOf? source rest
      return first ++ others
    else mentionsOf? source rest

end

variable {source : Text} {except : Option Nat} {label : Label} {nodes : List Concrete}
  {mentions : List Mention}

theorem mentions?_cases (h : mentions? source (node label nodes) = some mentions) :
    (label.kind ∈ formKinds ∧ mentionsOf? source nodes = some [] ∧
      own? source label.kind nodes = some mentions) ∨
    (label.kind ∉ formKinds ∧ mentionsOf? source nodes = some mentions) := by
  rw [mentions?] at h
  obtain ⟨below, hbelow, h⟩ := Option.bind_eq_some_iff.mp h
  split_ifs at h with hk hb
  · exact .inl ⟨hk, hb ▸ hbelow, h⟩
  · obtain rfl := Option.some.inj h
    exact .inr ⟨hk, hbelow⟩

theorem mentions?_of_mem_formKinds (hk : label.kind ∈ formKinds)
    (hb : mentionsOf? source nodes = some []) :
    mentions? source (node label nodes) = own? source label.kind nodes := by
  simp [mentions?, hb, hk]

theorem own?_importStatement {c : Concrete} {l : Literal} (hc : importSource? nodes = some c)
    (hl : c.label.literal? source = some l) :
    own? source "import_statement" nodes = some [.imported l] := by
  simp [own?, hc, hl]

theorem own?_call {l : Literal} (h : requireLiteral? source nodes = some l) :
    own? source "call_expression" nodes = some [.required l] :=
  congrArg (Option.map fun literal => [Mention.required literal]) h

theorem mentionsOf?_cons_cases {c : Concrete} {rest : List Concrete}
    (h : mentionsOf? source (c :: rest) = some mentions) (hc : c.label.named = true) :
    ∃ first others, mentions? source c = some first ∧ mentionsOf? source rest = some others ∧
      mentions = first ++ others := by
  rw [mentionsOf?, if_pos hc] at h
  obtain ⟨first, hfirst, h⟩ := Option.bind_eq_some_iff.mp h
  obtain ⟨others, hothers, h⟩ := Option.bind_eq_some_iff.mp h
  exact ⟨first, others, hfirst, hothers, (Option.some.inj h).symm⟩

/-- Nodes without mentions: there is none in any of them. -/
theorem mentions?_of_mem (h : mentionsOf? source nodes = some []) :
    ∀ c ∈ nodes, c.label.named = true → mentions? source c = some [] := by
  induction nodes with
  | nil => simp
  | cons c rest ih =>
    cases hc : c.label.named with
    | false =>
      rw [mentionsOf?, if_neg (by simp [hc])] at h
      simpa [hc] using ih h
    | true =>
      obtain ⟨first, others, hfirst, hothers, hnil⟩ := mentionsOf?_cons_cases h hc
      obtain ⟨rfl, rfl⟩ := List.append_eq_nil_iff.mp hnil.symm
      exact List.forall_mem_cons.mpr ⟨fun _ => hfirst, ih hothers⟩

theorem requireLiteral?_eq_some {l : Literal} : requireLiteral? source nodes = some l ↔
    ∃ callee arguments first, inField? "function" nodes = some callee ∧
      inField? "arguments" nodes = some arguments ∧
      (arguments.children.find? fun c => c.label.named) = some first ∧
      callee.label.kind = "identifier" ∧ callee.label.text source = "require".toList ∧
      arguments.label.named = true ∧ arguments.label.kind = "arguments" ∧
      first.label.kind = "string" ∧ first.label.literal? source = some l := by
  constructor
  · intro h
    obtain ⟨callee, hcallee, h⟩ := Option.bind_eq_some_iff.mp h
    obtain ⟨arguments, harguments, h⟩ := Option.bind_eq_some_iff.mp h
    obtain ⟨first, hfirst, h⟩ := Option.bind_eq_some_iff.mp h
    split_ifs at h with hall
    obtain ⟨hkind, htext, hnamed, hlist, hstring⟩ := hall
    exact ⟨callee, arguments, first, hcallee, harguments, hfirst, hkind, htext, hnamed, hlist,
      hstring, h⟩
  · rintro ⟨callee, arguments, first, hcallee, harguments, hfirst, hkind, htext, hnamed, hlist,
      hstring, h⟩
    refine Option.bind_eq_some_iff.mpr ⟨callee, hcallee, Option.bind_eq_some_iff.mpr
      ⟨arguments, harguments, Option.bind_eq_some_iff.mpr ⟨first, hfirst, ?_⟩⟩⟩
    exact (if_pos ⟨hkind, htext, hnamed, hlist, hstring⟩).trans h

/-! Mentions and lowering -/

theorem lower_string {c : Concrete} {l : Literal} (hk : c.label.kind = "string")
    (hl : c.label.literal? source = some l) : lower source none c = some (.string l) := by
  obtain ⟨label, nodes⟩ := c
  simp_all [lower]

theorem lower_identifier (source : Text) {c : Concrete} (hk : c.label.kind = "identifier") :
    lower source none c = some (.identifier (c.label.text source) c.label.span) := by
  obtain ⟨label, nodes⟩ := c
  simp_all [lower]

/-- The first argument is the first named node. -/
theorem firstLiteral?_lowerAll {first : Concrete} {l : Literal}
    (h : (nodes.find? fun c => c.label.named) = some first) (hk : first.label.kind = "string")
    (hl : first.label.literal? source = some l) :
    Node.firstLiteral? (lowerAll source none nodes) = some l := by
  induction nodes with
  | nil => simp at h
  | cons c rest ih =>
    rw [List.find?_cons] at h
    cases hc : c.label.named with
    | false => rw [lowerAll, if_neg (by simp [hc]), ih (by simpa [hc] using h)]
    | true =>
      obtain rfl : c = first := by simpa [hc] using h
      rw [lowerAll, if_pos hc, lower_string hk hl]
      rfl

/-- An import is lowered to its literal and the rest. -/
theorem lower_importStatement {c : Concrete} {l : Literal} (hk : label.kind = "import_statement")
    (hnamed : importSource? nodes = some c) (hl : c.label.literal? source = some l)
    (he : except ≠ some label.id) : ∃ typeOnly children,
      lower source except (node label nodes) =
        some (.importDecl l typeOnly children label.span) := by
  simp [lower, hk, he, asImport?, hnamed, hl]

theorem lower_call {callee arguments : Concrete} {n : Node} (hk : label.kind = "call_expression")
    (hcallee : inField? "function" nodes = some callee) (hn : lower source none callee = some n)
    (harguments : inField? "arguments" nodes = some arguments)
    (hlist : arguments.label.kind = "arguments") (he : except ≠ some label.id) :
    lower source except (node label nodes) =
      some (.call n (lowerAll source none arguments.children) label.span) := by
  simp [lower, hk, he, lowerCallee_eq, lowerArguments_eq, hcallee, hn, harguments, hlist,
    Option.filter_some]

/-- The literals of the mentions are the candidates of what a node is lowered to. If a node is left
out below it, there must not be any mentions. -/
def Agrees (source : Text) (c : Concrete) : Prop :=
  ∀ {mentions except n}, mentions? source c = some mentions → except = none ∨ mentions = [] →
    lower source except c = some n → n.candidates = mentions.filterMap Mention.literal?

theorem candidatesOf_lowerAll (hb : ∀ c ∈ nodes, c.Agrees source)
    (h : mentionsOf? source nodes = some mentions) (he : except = none ∨ mentions = []) :
    candidatesOf (lowerAll source except nodes) = mentions.filterMap Mention.literal? := by
  induction nodes generalizing mentions with
  | nil =>
    obtain rfl := Option.some.inj h
    rfl
  | cons c rest ih =>
    obtain ⟨hagrees, hrest⟩ := List.forall_mem_cons.mp hb
    cases hc : c.label.named with
    | false =>
      rw [mentionsOf?, if_neg (by simp [hc])] at h
      rw [lowerAll, if_neg (by simp [hc])]
      exact ih hrest h he
    | true =>
      obtain ⟨first, others, hfirst, hothers, rfl⟩ := mentionsOf?_cons_cases h hc
      have he' : (except = none ∨ first = []) ∧ (except = none ∨ others = []) := by
        simpa [or_and_left] using he
      rw [lowerAll, if_pos hc, List.filterMap_append, ← ih hrest hothers he'.2]
      cases hn : lower source except c with
      | none =>
        rcases he'.1 with rfl | rfl
        · obtain ⟨label, below⟩ := c
          simp [lower] at hn
        · rfl
      | some n =>
        rw [← hagrees hfirst he'.1 hn]
        rfl

/-- A call of `require`: its literal is the one candidate. -/
theorem candidates_require {l : Literal} {n : Node} (hb : ∀ c ∈ nodes, c.Agrees source)
    (hk : label.kind = "call_expression") (hmentions : mentionsOf? source nodes = some [])
    (h : requireLiteral? source nodes = some l)
    (hn : lower source except (node label nodes) = some n) : n.candidates = [l] := by
  obtain ⟨callee, arguments, first, hcallee, hgiven, hfirst, hkind, htext, hnamed, hlist, hstring,
    hl⟩ := requireLiteral?_eq_some.mp h
  have harguments : arguments ∈ nodes := (inField?_eq_some hgiven).1
  have hlower := lower_call hk hcallee (lower_identifier source hkind) hgiven hlist
    (lowers_of_lower hn).1
  obtain rfl := Option.some.inj (hn.symm.trans hlower)
  have hbelow : candidatesOf (lowerAll source none arguments.children) = [] := by
    obtain ⟨label, below⟩ := arguments
    have hother : lower source none (node label below) =
        some (.other label.kind (lowerAll source none below) label.span) := by
      simp_all [lower]
    exact hb _ harguments (mentions?_of_mem hmentions _ harguments hnamed) (.inl rfl) hother
  rw [Node.candidates, hbelow, firstLiteral?_lowerAll hfirst hstring hl]
  simp [Node.candidates, Node.isRequire, htext]

/-- The candidates of a lowered tree are the literals of its mentions. -/
theorem agrees (c : Concrete) : c.Agrees source := by
  induction c using lower_induction with
  | h label nodes ih =>
    intro mentions except n hmentions he hn
    obtain ⟨hid, hlowers⟩ := lowers_of_lower hn
    rcases mentions?_cases hmentions with ⟨hk, hbelow, hown⟩ | ⟨hk, hbelow⟩
    · have hempty : ∀ e, candidatesOf (lowerAll source e nodes) = [] :=
        fun e => candidatesOf_lowerAll ih hbelow (.inr rfl)
      simp only [formKinds, List.mem_cons, List.not_mem_nil, or_false] at hk
      rcases hk with hk | hk | hk | hk | hk <;> rw [hk] at hown
      · obtain ⟨named, hnamed, hown⟩ := Option.bind_eq_some_iff.mp hown
        obtain ⟨l, hl, hown⟩ := Option.bind_eq_some_iff.mp hown
        obtain rfl := Option.some.inj hown
        obtain ⟨typeOnly, children, hlower⟩ := lower_importStatement hk hnamed hl hid
        obtain rfl := Option.some.inj (hn.symm.trans hlower)
        rfl
      · obtain rfl := Option.some.inj hown
        cases hlowers with
        | exportDecl kind => exact hempty none
        | reexport kind named literal => exact hempty _
        | other => exact hempty except
        | _ => simp_all
      · obtain ⟨l, hl, rfl⟩ := Option.map_eq_some_iff.mp hown
        exact candidates_require ih hk hbelow hl hn
      · obtain rfl := Option.some.inj hown
        cases hlowers with
        | identifier kind => rfl
        | other => exact hempty except
        | _ => simp_all
      · obtain rfl := Option.some.inj hown
        cases hlowers with
        | string kind literal => rfl
        | other => exact hempty except
        | _ => simp_all
    · cases hlowers with
      | other => exact candidatesOf_lowerAll ih hbelow he
      | _ => simp_all [formKinds]

end Concrete

namespace Module

theorem candidates_ofReading {source : Text} {r : Reading} {mentions : List Mention}
    (h : r.root.mentions? source = some mentions) (parser : String) :
    (ofReading parser source r).root.candidates = mentions.filterMap Mention.literal? :=
  Concrete.agrees r.root h (.inl rfl) (lower_root parser source r)

end Module

end ImportAlias
