import ImportAlias.Proofs.Edit
import ImportAlias.Proofs.Module.Literals
import Mathlib.Data.List.Forall2

/-! What aliasing does to a tree, address by address: it changes the values of the specifiers, and
its edits list the changed ones in the order of their addresses. -/
namespace ImportAlias

/-- The way down from a node: which part to enter at each step. -/
abbrev Address := List Nat

/-- The order in which a tree is read: a node before its parts, and these from left to right. -/
def Address.Before (p q : Address) : Prop := List.Lex (fun i j : Nat => i < j) p q

namespace Node

/-- The nodes directly below a node. The callee of a call comes before its arguments. -/
def parts : Node → List Node
  | importDecl _ _ children _ => children
  | exportDecl _ children _ => children
  | call callee arguments _ => callee :: arguments
  | identifier _ _ => []
  | string _ => []
  | other _ children _ => children

/-- The literal that a node holds itself: the source of a statement, or a string. -/
def held? : Node → Option Literal
  | importDecl source _ _ _ => some source
  | exportDecl source _ _ => source
  | string l => some l
  | _ => none

def isImport : Node → Bool
  | importDecl _ _ _ _ => true
  | _ => false

def at? (n : Node) : Address → Option Node
  | [] => some n
  | i :: p => n.parts[i]?.bind fun part => at? part p

def heldAt? (n : Node) (p : Address) : Option Literal := (n.at? p).bind held?

/-- What the node at the address holds is a specifier that an alias may replace: the source of an
import, or the first argument of a call of `require`. -/
inductive Specifies (root : Node) : Address → Prop where
  | source {p : Address} {source : Literal} {typeOnly : Bool} {children : List Node} {span : Span} :
      root.at? p = some (importDecl source typeOnly children span) → Specifies root p
  | argument {p : Address} {callee : Node} {l : Literal} {rest : List Node} {span : Span} :
      root.at? p = some (call callee (string l :: rest) span) → callee.isRequire = true →
        Specifies root (p ++ [1])

/-- The address leads to something below a node of a kind. -/
def Below (P : Node → Prop) (root : Node) (p : Address) : Prop :=
  ∃ q i r n, p = q ++ i :: r ∧ root.at? q = some n ∧ P n

/-- The address leads to something below the children of an import. -/
def InsideImport (root : Node) (p : Address) : Prop := Below (isImport · = true) root p

mutual

/-- The tree without the values of its literals, and with other names: its shape, and all else that
it holds. -/
def blank (name : Text → Text) : Node → Node
  | importDecl source typeOnly children span =>
    importDecl (blankLiteral source) typeOnly (blankAll name children) span
  | exportDecl source children span =>
    exportDecl (source.map blankLiteral) (blankAll name children) span
  | call callee arguments span => call (blank name callee) (blankAll name arguments) span
  | identifier s span => identifier (name s) span
  | string l => string (blankLiteral l)
  | other kind children span => other kind (blankAll name children) span
where
  blankLiteral (l : Literal) : Literal := { l with value := [] }

def blankAll (name : Text → Text) : List Node → List Node
  | [] => []
  | n :: rest => blank name n :: blankAll name rest

end

theorem blankAll_eq_map (name : Text → Text) (ns : List Node) :
    blankAll name ns = ns.map (blank name) := by
  induction ns with
  | nil => rfl
  | cons n ns ih => rw [blankAll, ih, List.map_cons]

variable {choose : Specifier → Option Text} {root n : Node} {p : Address} {i : Nat}

/-! One step down -/

@[simp] theorem at?_cons : root.at? (i :: p) = root.parts[i]?.bind fun part => part.at? p := rfl

theorem heldAt?_cons : root.heldAt? (i :: p) = root.parts[i]?.bind fun part => part.heldAt? p := by
  cases h : root.parts[i]? <;> simp [heldAt?, h]

/-- A call of `require` with a literal, which is its part after the callee. -/
def requires? : Node → Option Literal
  | call callee arguments _ => if callee.isRequire then firstLiteral? arguments else none
  | _ => none

theorem requires?_eq_some {l : Literal} : n.requires? = some l ↔
    ∃ callee rest span, n = call callee (string l :: rest) span ∧ callee.isRequire = true := by
  constructor
  · intro h
    cases n with
    | call callee arguments span =>
      simp only [requires?] at h
      split_ifs at h with hr
      obtain ⟨rest, rfl⟩ := exists_of_firstLiteral? h
      exact ⟨callee, rest, span, rfl, hr⟩
    | _ => simp [requires?] at h
  · rintro ⟨callee, rest, span, rfl, hr⟩
    simp [requires?, hr, firstLiteral?]

theorem specifies_nil : Specifies root [] ↔ root.isImport = true := by
  constructor
  · intro h
    generalize hp : ([] : Address) = p at h
    cases h with
    | source h =>
      subst hp
      obtain rfl := Option.some.inj h
      rfl
    | argument => simp at hp
  · intro h
    cases root with
    | importDecl source typeOnly children span => exact .source rfl
    | _ => simp [isImport] at h

/-- A specifier below a node is one of a part, or the first argument of the node. -/
theorem specifies_cons : Specifies root (i :: p) ↔
    (∃ part, root.parts[i]? = some part ∧ Specifies part p) ∨
      i = 1 ∧ p = [] ∧ root.requires?.isSome = true := by
  constructor
  · intro h
    generalize hq : i :: p = q at h
    cases h with
    | source h =>
      subst hq
      obtain ⟨part, hpart, hat⟩ := Option.bind_eq_some_iff.mp h
      exact .inl ⟨part, hpart, .source hat⟩
    | @argument q callee l rest span h hr =>
      cases q with
      | nil =>
        obtain ⟨rfl, rfl⟩ := List.cons.inj hq
        obtain rfl := Option.some.inj h
        exact .inr ⟨rfl, rfl, by simp [requires?, hr, firstLiteral?]⟩
      | cons j q =>
        obtain ⟨rfl, rfl⟩ := List.cons.inj hq
        obtain ⟨part, hpart, hat⟩ := Option.bind_eq_some_iff.mp h
        exact .inl ⟨part, hpart, .argument hat hr⟩
  · rintro (⟨part, hpart, h⟩ | ⟨rfl, rfl, h⟩)
    · cases h with
      | source h => exact .source (by simpa [hpart] using h)
      | @argument q callee l rest span h hr =>
        have hat : root.at? (i :: q) = some (call callee (string l :: rest) span) := by
          simpa [hpart] using h
        exact .argument hat hr
    · obtain ⟨l, hl⟩ := Option.isSome_iff_exists.mp h
      obtain ⟨callee, rest, span, rfl, hr⟩ := requires?_eq_some.mp hl
      exact Specifies.argument (p := []) rfl hr

theorem below_nil {P : Node → Prop} : ¬ Below P root [] := by
  rintro ⟨q, i, r, n, h, -⟩
  simp at h

theorem below_cons {P : Node → Prop} : Below P root (i :: p) ↔
    P root ∨ ∃ part, root.parts[i]? = some part ∧ Below P part p := by
  constructor
  · rintro ⟨q, j, r, n, h, hat, hn⟩
    cases q with
    | nil =>
      obtain rfl := Option.some.inj hat
      exact .inl hn
    | cons k q =>
      obtain ⟨rfl, rfl⟩ := List.cons.inj h
      obtain ⟨part, hpart, hat⟩ := Option.bind_eq_some_iff.mp hat
      exact .inr ⟨part, hpart, q, j, r, n, rfl, hat, hn⟩
  · rintro (h | ⟨part, hpart, q, j, r, n, rfl, hat, hn⟩)
    · exact ⟨[], i, p, root, rfl, rfl, h⟩
    · exact ⟨i :: q, j, r, n, rfl, by simpa [hpart] using hat, hn⟩

theorem insideImport_nil : ¬ InsideImport root [] := below_nil

theorem insideImport_cons : InsideImport root (i :: p) ↔
    root.isImport = true ∨ ∃ part, root.parts[i]? = some part ∧ InsideImport part p := below_cons

/-! What aliasing changes -/

theorem aliasedAll_eq_map (ns : List Node) : aliasedAll choose ns = ns.map (aliased choose) := by
  induction ns with
  | nil => rfl
  | cons n ns ih => rw [aliasedAll, ih, List.map_cons]

theorem parts_aliased_of_isImport (h : n.isImport = true) : (n.aliased choose).parts = n.parts := by
  cases n <;> simp_all [isImport, aliased, parts]

theorem parts_aliased (h : n.isImport = false) (hr : n.requires? = none) :
    (n.aliased choose).parts = n.parts.map (aliased choose) := by
  cases n with
  | importDecl => simp [isImport] at h
  | call callee arguments span =>
    have hfirst : (if callee.isRequire then aliasFirst choose (aliasedAll choose arguments)
        else aliasedAll choose arguments) = aliasedAll choose arguments := by
      split_ifs with hc
      · refine aliasFirst_of_none ?_
        rw [firstLiteral?_aliasedAll]
        simpa [requires?, hc] using hr
      · rfl
    simp only [aliased, parts, hfirst]
    rw [aliasedAll_eq_map, List.map_cons]
  | _ => simp [aliased, parts, aliasedAll_eq_map]

/-- In a call of `require` with a literal, that literal is aliased. -/
theorem parts_aliased_of_requires? (choose : Specifier → Option Text) {l : Literal}
    (h : n.requires? = some l) :
    ∃ callee rest, n.parts = callee :: string l :: rest ∧ (n.aliased choose).parts =
      callee.aliased choose :: string (l.aliased choose) :: rest.map (aliased choose) := by
  obtain ⟨callee, rest, span, rfl, hr⟩ := requires?_eq_some.mp h
  exact ⟨callee, rest, rfl, by simp [aliased, parts, hr, aliasedAll, aliasFirst, aliasedAll_eq_map]⟩

theorem heldAt?_string {l : Literal} : (string l).heldAt? (i :: p) = none := by
  simp [heldAt?, parts]

/-- A literal that is a specifier outside imports is aliased, and every other one is kept. -/
theorem heldAt?_aliased (choose : Specifier → Option Text) (root : Node) (p : Address) {l : Literal}
    (hl : root.heldAt? p = some l) :
    (Specifies root p ∧ ¬ InsideImport root p →
      (root.aliased choose).heldAt? p = some (l.aliased choose)) ∧
    (¬ (Specifies root p ∧ ¬ InsideImport root p) →
      (root.aliased choose).heldAt? p = some l) := by
  induction p generalizing root with
  | nil =>
    rw [specifies_nil]
    cases root with
    | importDecl source typeOnly children span =>
      obtain rfl : source = l := Option.some.inj hl
      exact ⟨fun _ => rfl, fun h => absurd ⟨rfl, insideImport_nil⟩ h⟩
    | _ => exact ⟨fun h => by simp [isImport] at h, fun _ => hl⟩
  | cons i p ih =>
    rw [heldAt?_cons] at hl ⊢
    obtain ⟨part, hpart, hheld⟩ := Option.bind_eq_some_iff.mp hl
    rw [specifies_cons, insideImport_cons]
    cases hi : root.isImport with
    | true =>
      rw [parts_aliased_of_isImport hi, hpart]
      exact ⟨fun h => by simp at h, fun _ => hheld⟩
    | false =>
      have ih' := ih part hheld
      cases hr : root.requires? with
      | none =>
        rw [parts_aliased hi hr, List.getElem?_map, hpart]
        simpa [hpart] using ih'
      | some k =>
        obtain ⟨callee, rest, hparts, haliased⟩ := parts_aliased_of_requires? choose hr
        rw [hparts] at hpart
        rw [haliased]
        match i, hpart with
        | 0, hpart =>
          obtain rfl := Option.some.inj hpart
          simpa [hparts] using ih'
        | 1, hpart =>
          obtain rfl : string k = part := Option.some.inj hpart
          cases p with
          | nil =>
            obtain rfl : k = l := Option.some.inj hheld
            simp [hparts, insideImport_nil, heldAt?, at?, held?]
          | cons j p => simp [heldAt?_string] at hheld
        | i + 2, hpart =>
          have hpart' : rest[i]? = some part := hpart
          simpa [hparts, hpart'] using ih'

/-! Places of the candidates -/

mutual

/-- The literals that an alias may replace, with their addresses. -/
def slots : Node → List (Address × Literal)
  | importDecl source _ _ _ => [([], source)]
  | exportDecl _ children _ => slotsFrom 0 children
  | call callee arguments _ =>
    (if callee.isRequire then ((firstLiteral? arguments).toList.map fun l => ([1], l)) else []) ++
      ((slots callee).map (fun s => (0 :: s.1, s.2)) ++ slotsFrom 1 arguments)
  | identifier _ _ => []
  | string _ => []
  | other _ children _ => slotsFrom 0 children

def slotsFrom (i : Nat) : List Node → List (Address × Literal)
  | [] => []
  | n :: rest => (slots n).map (fun s => (i :: s.1, s.2)) ++ slotsFrom (i + 1) rest

end

mutual

theorem slots_literals : ∀ n : Node, n.slots.map Prod.snd = n.candidates
  | importDecl source typeOnly children span => rfl
  | exportDecl source children span => slotsFrom_literals 0 children
  | call callee arguments span => by
    have hcallee := slots_literals callee
    have harguments := slotsFrom_literals 1 arguments
    simp only [slots, candidates, List.map_append, List.map_map, ← hcallee, ← harguments]
    congr 1
    split_ifs
    · cases firstLiteral? arguments <;> rfl
    · rfl
  | identifier name span => rfl
  | string l => rfl
  | other kind children span => slotsFrom_literals 0 children

theorem slotsFrom_literals (i : Nat) : ∀ ns : List Node,
    (slotsFrom i ns).map Prod.snd = candidatesOf ns
  | [] => rfl
  | n :: ns => by
    have hn := slots_literals n
    simp only [slotsFrom, candidatesOf, List.map_append, List.map_map, ← hn,
      slotsFrom_literals (i + 1) ns]
    rfl

end

/-- What is listed of nodes, each with the index of its node before its address. The nodes are
counted from `i`. -/
def numbered {α : Type} (list : Node → List (Address × α)) (i : Nat) :
    List Node → List (Address × α)
  | [] => []
  | n :: rest => (list n).map (fun s => (i :: s.1, s.2)) ++ numbered list (i + 1) rest

theorem mem_numbered {α : Type} {list : Node → List (Address × α)} {i : Nat} {ns : List Node}
    {s : Address × α} : s ∈ numbered list i ns ↔
      ∃ j n p, ns[j]? = some n ∧ (p, s.2) ∈ list n ∧ s.1 = (i + j) :: p := by
  induction ns generalizing i with
  | nil => simp [numbered]
  | cons n ns ih =>
    simp only [numbered, List.mem_append, List.mem_map, ih]
    constructor
    · rintro (⟨⟨p, l⟩, hmem, rfl⟩ | ⟨j, k, p, hk, hmem, hs⟩)
      · exact ⟨0, n, p, rfl, hmem, rfl⟩
      · exact ⟨j + 1, k, p, hk, hmem, by rw [hs]; congr 1; omega⟩
    · rintro ⟨j, k, p, hk, hmem, hs⟩
      cases j with
      | zero =>
        obtain rfl := Option.some.inj hk
        exact .inl ⟨(p, s.2), hmem, Prod.ext hs.symm rfl⟩
      | succ j => exact .inr ⟨j, k, p, hk, hmem, by rw [hs]; congr 1; omega⟩

theorem le_of_mem_numbered {α : Type} {list : Node → List (Address × α)} {ns : List Node}
    {s : Address × α} (h : s ∈ numbered list i ns) : ∃ j q, i ≤ j ∧ s.1 = j :: q := by
  obtain ⟨j, n, q, -, -, hs⟩ := mem_numbered.mp h
  exact ⟨i + j, q, Nat.le_add_right i j, hs⟩

/-- Lists in the order of the addresses stay so when they are numbered. -/
theorem pairwise_numbered_cons {α : Type} {list : Node → List (Address × α)} {ns : List Node}
    (hn : (list n).Pairwise fun s t => Address.Before s.1 t.1)
    (hns : (numbered list (i + 1) ns).Pairwise fun s t => Address.Before s.1 t.1) :
    (numbered list i (n :: ns)).Pairwise fun s t => Address.Before s.1 t.1 := by
  have hmap : ((list n).map fun s => (i :: s.1, s.2)).Pairwise
      fun s t : Address × α => Address.Before s.1 t.1 :=
    List.pairwise_map.mpr (hn.imp fun h => List.Lex.cons h)
  refine List.pairwise_append.mpr ⟨hmap, hns, fun s hs t ht => ?_⟩
  obtain ⟨u, -, rfl⟩ := List.mem_map.mp hs
  obtain ⟨j, q, hj, hq⟩ := le_of_mem_numbered ht
  rw [hq]
  exact List.Lex.rel (by omega)

theorem slotsFrom_eq_numbered (i : Nat) (ns : List Node) :
    slotsFrom i ns = numbered slots i ns := by
  induction ns generalizing i with
  | nil => rfl
  | cons n ns ih => rw [slotsFrom, numbered, ih]

theorem mem_slotsFrom {i : Nat} {ns : List Node} {s : Address × Literal} :
    s ∈ slotsFrom i ns ↔
      ∃ j n p, ns[j]? = some n ∧ (p, s.2) ∈ n.slots ∧ s.1 = (i + j) :: p := by
  rw [slotsFrom_eq_numbered, mem_numbered]

/-- The slots of a node below it are those of its parts, and the first argument of `require`. -/
theorem mem_slots_cons {l : Literal} (h : n.isImport = false) : (i :: p, l) ∈ n.slots ↔
    (∃ part, n.parts[i]? = some part ∧ (p, l) ∈ part.slots) ∨
      i = 1 ∧ p = [] ∧ n.requires? = some l := by
  cases n with
  | importDecl => simp [isImport] at h
  | call callee arguments span =>
    simp only [slots, parts, requires?, List.mem_append, List.mem_map, mem_slotsFrom]
    constructor
    · rintro (hown | ⟨⟨q, k⟩, hmem, hq⟩ | ⟨j, part, q, hj, hmem, hq⟩)
      · split_ifs at hown with hr
        · obtain ⟨k, hk, hq⟩ := List.mem_map.mp hown
          obtain ⟨hi, rfl⟩ := Prod.mk.inj hq
          obtain ⟨rfl, rfl⟩ := List.cons.inj hi
          exact .inr ⟨rfl, rfl, by simpa [hr] using hk⟩
        · simp at hown
      · obtain ⟨hi, rfl⟩ := Prod.mk.inj hq
        obtain ⟨rfl, rfl⟩ := List.cons.inj hi
        exact .inl ⟨callee, rfl, hmem⟩
      · obtain ⟨rfl, rfl⟩ := List.cons.inj hq
        exact .inl ⟨part, by rw [Nat.add_comm]; exact hj, hmem⟩
    · rintro (⟨part, hpart, hmem⟩ | ⟨rfl, rfl, hr⟩)
      · cases i with
        | zero =>
          obtain rfl := Option.some.inj hpart
          exact .inr (.inl ⟨(p, l), hmem, rfl⟩)
        | succ i => exact .inr (.inr ⟨i, part, p, hpart, hmem, by rw [Nat.add_comm]⟩)
      · split_ifs at hr with hc
        exact .inl (by simp [hc, hr])
  | _ => simp [slots, parts, requires?, mem_slotsFrom, eq_comm]

/-- The slots are the specifiers outside imports. -/
theorem mem_slots {l : Literal} (root : Node) (p : Address) : (p, l) ∈ root.slots ↔
    root.heldAt? p = some l ∧ Specifies root p ∧ ¬ InsideImport root p := by
  induction p generalizing root with
  | nil =>
    rw [specifies_nil]
    cases root with
    | importDecl source typeOnly children span =>
      simp [slots, isImport, insideImport_nil, heldAt?, at?, held?, eq_comm]
    | _ => simp [slots, isImport, mem_slotsFrom]
  | cons i p ih =>
    rw [heldAt?_cons, specifies_cons, insideImport_cons]
    cases hi : root.isImport with
    | true => cases root <;> simp_all [isImport, slots]
    | false =>
      rw [mem_slots_cons hi]
      cases hpart : root.parts[i]? with
      | none =>
        have hr : ¬ (i = 1 ∧ p = [] ∧ root.requires? = some l) := by
          rintro ⟨rfl, rfl, hr⟩
          obtain ⟨callee, rest, span, rfl, -⟩ := requires?_eq_some.mp hr
          simp [parts] at hpart
        simp [hr]
      | some part =>
        simp only [Option.some.injEq, exists_eq_left', Option.bind_some, ih part,
          Bool.false_eq_true, false_or]
        constructor
        · rintro (⟨hheld, hs, hin⟩ | ⟨rfl, rfl, hr⟩)
          · exact ⟨hheld, .inl hs, hin⟩
          · obtain ⟨callee, rest, span, rfl, -⟩ := requires?_eq_some.mp hr
            obtain rfl : string l = part := by simpa [parts] using hpart
            exact ⟨rfl, .inr ⟨rfl, rfl, by simp [hr]⟩, insideImport_nil⟩
        · rintro ⟨hheld, hs | ⟨rfl, rfl, hr⟩, hin⟩
          · exact .inl ⟨hheld, hs, hin⟩
          · obtain ⟨k, hk⟩ := Option.isSome_iff_exists.mp hr
            obtain ⟨callee, rest, span, rfl, -⟩ := requires?_eq_some.mp hk
            obtain rfl : string k = part := by simpa [parts] using hpart
            obtain rfl : k = l := by simpa [heldAt?, at?, held?] using hheld
            exact .inr ⟨rfl, rfl, hk⟩

theorem slots_of_isRequire (h : n.isRequire = true) : n.slots = [] := by
  cases n <;> simp_all [isRequire, slots]

theorem le_of_mem_slotsFrom {ns : List Node} {s : Address × Literal} (h : s ∈ slotsFrom i ns) :
    ∃ j q, i ≤ j ∧ s.1 = j :: q := by
  rw [slotsFrom_eq_numbered] at h
  exact le_of_mem_numbered h

mutual

/-- The slots are met in the order of their addresses. -/
theorem slots_ordered : ∀ n : Node, n.slots.Pairwise fun s t => Address.Before s.1 t.1
  | importDecl source typeOnly children span => List.pairwise_singleton _ _
  | exportDecl source children span => slotsFrom_ordered 0 children
  | call callee arguments span => by
    have hcallee : ((slots callee).map fun s => (0 :: s.1, s.2)).Pairwise
        fun s t : Address × Literal => Address.Before s.1 t.1 :=
      List.pairwise_map.mpr ((slots_ordered callee).imp fun h => List.Lex.cons h)
    have harguments := slotsFrom_ordered 1 arguments
    simp only [slots]
    cases hr : callee.isRequire with
    | false =>
      refine List.pairwise_append.mpr ⟨.nil, List.pairwise_append.mpr ⟨hcallee, harguments, ?_⟩,
        by simp⟩
      intro s hs t ht
      obtain ⟨u, -, rfl⟩ := List.mem_map.mp hs
      obtain ⟨j, q, hj, hq⟩ := le_of_mem_slotsFrom ht
      rw [hq]
      exact List.Lex.rel (by omega)
    | true =>
      rw [slots_of_isRequire hr, List.map_nil, List.nil_append, if_pos rfl]
      cases hf : firstLiteral? arguments with
      | none => simpa using harguments
      | some l =>
        obtain ⟨rest, rfl⟩ := exists_of_firstLiteral? hf
        refine List.pairwise_cons.mpr ⟨fun t ht => ?_, harguments⟩
        have ht' : t ∈ slotsFrom 2 rest := by simpa [slotsFrom, slots] using ht
        obtain ⟨j, q, hj, hq⟩ := le_of_mem_slotsFrom ht'
        rw [hq]
        exact List.Lex.rel (by omega)
  | identifier name span => .nil
  | string l => .nil
  | other kind children span => slotsFrom_ordered 0 children

theorem slotsFrom_ordered (i : Nat) : ∀ ns : List Node,
    (slotsFrom i ns).Pairwise fun s t => Address.Before s.1 t.1
  | [] => .nil
  | n :: ns => by
    have hns := slotsFrom_ordered (i + 1) ns
    rw [slotsFrom_eq_numbered] at hns ⊢
    exact pairwise_numbered_cons (slots_ordered n) hns

end

/-! What aliasing keeps -/

section

variable (name : Text → Text)

theorem blankLiteral_aliased (l : Literal) :
    blank.blankLiteral (l.aliased choose) = blank.blankLiteral l := rfl

theorem blankAll_aliasFirst (ns : List Node) :
    blankAll name (aliasFirst choose ns) = blankAll name ns := by
  unfold aliasFirst
  split <;> simp [blankAll, blank, blankLiteral_aliased]

mutual

/-- Aliasing changes values only. -/
theorem blank_aliased : ∀ n : Node, (n.aliased choose).blank name = n.blank name
  | importDecl source typeOnly children span => by simp [aliased, blank, blankLiteral_aliased]
  | exportDecl source children span => by simp [aliased, blank, blankAll_aliasedAll children]
  | call callee arguments span => by
    have harguments := blankAll_aliasedAll arguments
    simp only [aliased, blank, blank_aliased callee]
    split_ifs
    · rw [blankAll_aliasFirst, harguments]
    · rw [harguments]
  | identifier s span => rfl
  | string l => rfl
  | other kind children span => by simp [aliased, blank, blankAll_aliasedAll children]

theorem blankAll_aliasedAll : ∀ ns : List Node,
    blankAll name (aliasedAll choose ns) = blankAll name ns
  | [] => rfl
  | n :: ns => by simp [aliasedAll, blankAll, blank_aliased n, blankAll_aliasedAll ns]

end

theorem parts_blank (n : Node) : (n.blank name).parts = n.parts.map (blank name) := by
  cases n <;> simp [blank, parts, blankAll_eq_map]

theorem heldAt?_blank (root : Node) (p : Address) :
    (root.blank name).heldAt? p = (root.heldAt? p).map blank.blankLiteral := by
  induction p generalizing root with
  | nil => cases root <;> simp [heldAt?, at?, blank, held?]
  | cons i p ih =>
    rw [heldAt?_cons, heldAt?_cons, parts_blank, List.getElem?_map]
    cases root.parts[i]? with
    | none => rfl
    | some part => exact ih part

end

theorem heldAt?_aliased_of_none (h : root.heldAt? p = none) :
    (root.aliased choose).heldAt? p = none := by
  have hblank := heldAt?_blank id (root.aliased choose) p
  rw [blank_aliased, heldAt?_blank, h] at hblank
  exact Option.map_eq_none_iff.mp hblank.symm

end Node

/-! Lines -/

namespace Text

def bytes (t : Text) : List UInt8 := t.flatMap String.utf8EncodeChar

def newlineByte : UInt8 := 10

theorem bytes_cons (c : Char) (t : Text) : bytes (c :: t) = String.utf8EncodeChar c ++ bytes t :=
  List.flatMap_cons

theorem length_bytes (t : Text) : t.bytes.length = byteSize t := by
  induction t with
  | nil => rfl
  | cons c t ih => rw [bytes_cons, List.length_append, String.length_utf8EncodeChar, ih, byteSize]

/-- Only a line break is encoded with its byte. -/
theorem eq_of_newlineByte_mem {c : Char} (h : newlineByte ∈ String.utf8EncodeChar c) :
    c = '\n' := by
  have hn : ∀ k : Nat, newlineByte = UInt8.ofNat k → k % 256 = 10 := by
    intro k hk
    have := congrArg UInt8.toNat hk
    simpa [newlineByte] using this.symm
  have hv : c.val.toNat = 10 := by
    unfold String.utf8EncodeChar at h
    simp only at h
    split_ifs at h <;> simp only [List.mem_cons, List.not_mem_nil, or_false] at h
    · have := hn _ h
      omega
    · rcases h with h | h <;> have := hn _ h <;> omega
    · rcases h with h | h | h <;> have := hn _ h <;> omega
    · rcases h with h | h | h | h <;> have := hn _ h <;> omega
  exact Char.ext (UInt32.toNat_inj.mp hv)

/-- The start of an encoded character has a line break in it only if the character is one. -/
theorem count_take_utf8EncodeChar (c : Char) {k : Nat} (hk : 0 < k) :
    ((String.utf8EncodeChar c).take k).count newlineByte = if c = '\n' then 1 else 0 := by
  split_ifs with hc
  · obtain ⟨k, rfl⟩ : ∃ j, k = j + 1 := ⟨k - 1, by omega⟩
    rw [hc]
    simp [newlineByte, String.utf8EncodeChar]
  · exact List.count_eq_zero.mpr fun hmem => hc (eq_of_newlineByte_mem (List.mem_of_mem_take hmem))

end Text

/-- The line of an offset counts the line breaks among the bytes before it. -/
theorem lineAt_eq_count (source : Text) (offset : Nat) : lineAt source offset =
    1 + (source.bytes.take (min offset (Text.byteSize source))).count Text.newlineByte := by
  induction source generalizing offset with
  | nil => cases offset <;> rfl
  | cons c t ih =>
    cases offset with
    | zero => simp [lineAt]
    | succ n =>
      have hc := c.utf8Size_pos
      have hmin : min (n + 1) (c.utf8Size + Text.byteSize t) - c.utf8Size =
          min (n + 1 - c.utf8Size) (Text.byteSize t) := by omega
      rw [lineAt, ih, Text.bytes_cons, List.take_append, List.count_append,
        String.length_utf8EncodeChar, Text.byteSize, hmin,
        Text.count_take_utf8EncodeChar c (by omega)]
      omega

namespace Module

variable {choose : Specifier → Option Text}

def changedAt (choose : Specifier → Option Text) (m : Module) : List Address :=
  (m.root.slots.filter fun s => (choose s.2.value).isSome).map Prod.fst

theorem pairwise_changedAt (m : Module) : (m.changedAt choose).Pairwise Address.Before :=
  List.pairwise_map.mpr ((Node.slots_ordered m.root).sublist List.filter_sublist)

theorem heldAt?_of_mem_slots (choose : Specifier → Option Text) {m : Module}
    {s : Address × Literal} (h : s ∈ m.root.slots) :
    m.root.heldAt? s.1 = some s.2 ∧
      (m.aliased choose).root.heldAt? s.1 = some (s.2.aliased choose) := by
  obtain ⟨hheld, hs⟩ := (Node.mem_slots m.root s.1).mp h
  exact ⟨hheld, (Node.heldAt?_aliased choose m.root s.1 hheld).1 hs⟩

/-- There is one edit for each changed literal. -/
theorem edits_changedAt (m : Module) : List.Forall₂
    (fun e p => ∃ l l', m.root.heldAt? p = some l ∧ (m.aliased choose).root.heldAt? p = some l' ∧
      e.specifier = l.value ∧ e.replacement = l'.value ∧ e.line = lineAt m.source l.span.start)
    (m.edits choose) (m.changedAt choose) := by
  unfold edits changedAt
  rw [← Node.slots_literals, List.filterMap_map, List.forall₂_map_right_iff]
  have hheld := fun s (hs : s ∈ m.root.slots) => heldAt?_of_mem_slots choose hs
  generalize m.root.slots = slots at hheld
  induction slots with
  | nil => exact .nil
  | cons s slots ih =>
    have ih' := ih fun t ht => hheld t (by simp [ht])
    obtain ⟨hl, hl'⟩ := hheld s (by simp)
    rw [List.filterMap_cons, List.filter_cons]
    cases ha : choose s.2.value with
    | none => simpa [ha] using ih'
    | some a =>
      simp only [Function.comp_apply, ha, Option.map_some, Option.isSome_some, if_true]
      exact .cons ⟨s.2, _, hl, hl', rfl, by simp [Literal.aliased, ha], rfl⟩ ih'

/-- The literals that get an alias are those that aliasing changes. -/
theorem mem_changedAt (hne : ∀ s, choose s ≠ some s) (m : Module) (p : Address) :
    p ∈ m.changedAt choose ↔ (m.aliased choose).root.heldAt? p ≠ m.root.heldAt? p := by
  constructor
  · intro h
    obtain ⟨s, hs, rfl⟩ := List.mem_map.mp h
    obtain ⟨hmem, hsome⟩ := List.mem_filter.mp hs
    obtain ⟨hl, hl'⟩ := heldAt?_of_mem_slots choose hmem
    obtain ⟨a, ha⟩ := Option.isSome_iff_exists.mp hsome
    rw [hl, hl']
    intro heq
    have hv := congrArg Literal.value (Option.some.inj heq)
    simp only [Literal.aliased, ha, Option.getD_some] at hv
    exact hne _ (ha.trans (congrArg some hv))
  · intro h
    cases hl : m.root.heldAt? p with
    | none => exact absurd ((Node.heldAt?_aliased_of_none hl).trans hl.symm) h
    | some l =>
      obtain ⟨hs, hkept⟩ := Node.heldAt?_aliased choose m.root p hl
      by_cases hspec : m.root.Specifies p ∧ ¬ m.root.InsideImport p
      · have ha : (choose l.value).isSome := by
          by_contra hn
          have hnone : choose l.value = none := by simpa using hn
          have hsame : l.aliased choose = l := by simp [Literal.aliased, hnone]
          have hheld := hs hspec
          rw [hsame] at hheld
          exact h (hheld.trans hl.symm)
        exact List.mem_map.mpr ⟨(p, l), List.mem_filter.mpr
          ⟨(Node.mem_slots m.root p).mpr ⟨hl, hspec⟩, ha⟩, rfl⟩
      · exact absurd ((hkept hspec).trans hl.symm) h

variable {ε : Type}

/-- Aliasing a tree keeps all but values. It gives each specifier outside imports its alias, where
the resolver has one, and keeps every other literal. The edits are the changed literals in the order
of their addresses, each with its line, its old and its new value. In this order the argument of
`require` comes before whatever else stands in the call, since its callee holds nothing. -/
theorem aliased_specifiers (resolve : Resolver ε) (threshold : Nat) (m : Module) :
    let choose := resolve.choose threshold
    let root := m.root
    let root' := (m.aliased choose).root
    root'.blank id = root.blank id ∧
    (∀ p l, root.heldAt? p = some l →
      (root.Specifies p ∧ ¬ root.InsideImport p →
        root'.heldAt? p = some { l with value := (choose l.value).getD l.value }) ∧
      (¬ (root.Specifies p ∧ ¬ root.InsideImport p) → root'.heldAt? p = some l)) ∧
    ∃ changed : List Address,
      changed.Pairwise Address.Before ∧
      (∀ p, p ∈ changed ↔ root'.heldAt? p ≠ root.heldAt? p) ∧
      List.Forall₂ (fun e p => ∃ l l', root.heldAt? p = some l ∧ root'.heldAt? p = some l' ∧
          e.specifier = l.value ∧ e.replacement = l'.value ∧
          e.line = 1 + (m.source.bytes.take (min l.span.start m.source.bytes.length)).count
            Text.newlineByte)
        (m.edits choose) changed := by
  intro choose root root'
  refine ⟨Node.blank_aliased id root, fun p l hl => Node.heldAt?_aliased choose root p hl,
    m.changedAt choose, pairwise_changedAt m, mem_changedAt resolve.choose_ne_some_self m, ?_⟩
  refine (edits_changedAt m).imp fun e p h => ?_
  obtain ⟨l, l', hl, hl', hold, hnew, hline⟩ := h
  refine ⟨l, l', hl, hl', hold, hnew, ?_⟩
  rw [hline, lineAt_eq_count, Text.length_bytes]

end Module

end ImportAlias
