import ImportAlias.Module.Alias
import ImportAlias.Proofs.Edit
import ImportAlias.Proofs.Header.Scan

/-! Aliasing twice is aliasing once, in header texts and in module trees. -/
namespace ImportAlias

variable {choose : Specifier → Option Text}

namespace Header

private theorem candidatesFrom_aliased (hs : ∀ s, choose ((choose s).getD s) = none) (n : Nat)
    (ls : List HeaderLine) :
    ∀ p ∈ candidatesFrom n (ls.map (HeaderLine.aliased choose)), choose p.2 = none := by
  induction ls generalizing n with
  | nil => simp [candidatesFrom]
  | cons l ls ih =>
    cases l with
    | plain t => exact ih (n + 1)
    | slot before s after =>
      intro p hp
      rcases List.mem_cons.mp hp with rfl | hp
      · exact hs s
      · exact ih (n + 1) p hp

theorem edits_aliased (hs : ∀ s, choose ((choose s).getD s) = none) (h : Header) :
    (h.aliased choose).edits choose = [] := by
  apply List.filterMap_eq_nil_iff.mpr
  intro p hp
  simp [candidatesFrom_aliased hs 1 h.lines p hp]

theorem aliased_aliased (hs : ∀ s, choose ((choose s).getD s) = none) (h : Header) :
    (h.aliased choose).aliased choose = h.aliased choose := by
  have hl : HeaderLine.aliased choose ∘ HeaderLine.aliased choose = HeaderLine.aliased choose := by
    funext l
    cases l with
    | plain t => rfl
    | slot before s after => simp [HeaderLine.aliased, hs s]
  simp [Header.aliased, hl]

end Header

namespace Node

theorem isRequire_aliased (n : Node) : (n.aliased choose).isRequire = n.isRequire := by
  cases n <;> rfl

private theorem candidatesOf_aliasFirst (ns : List Node) :
    candidatesOf (aliasFirst choose ns) = candidatesOf ns := by
  unfold aliasFirst
  split <;> simp [candidatesOf, candidates]

private theorem firstLiteral?_aliasFirst (ns : List Node) :
    firstLiteral? (aliasFirst choose ns) = (firstLiteral? ns).map (Literal.aliased choose) := by
  unfold aliasFirst
  split
  · rfl
  · rename_i h
    unfold firstLiteral?
    split <;> simp_all

private theorem aliasFirst_aliasFirst (hs : ∀ s, choose ((choose s).getD s) = none)
    (ns : List Node) : aliasFirst choose (aliasFirst choose ns) = aliasFirst choose ns := by
  cases ns with
  | nil => rfl
  | cons n ns =>
    cases n with
    | string l => simp [aliasFirst, Literal.aliased, hs l.value]
    | _ => rfl

private theorem aliasedAll_aliasFirst (ns : List Node) :
    aliasedAll choose (aliasFirst choose ns) = aliasFirst choose (aliasedAll choose ns) := by
  cases ns with
  | nil => rfl
  | cons n ns => cases n <;> rfl

mutual

/-- What a first round leaves, a second one does not replace. -/
theorem candidates_aliased (hs : ∀ s, choose ((choose s).getD s) = none) :
    ∀ n : Node, ∀ l ∈ (n.aliased choose).candidates, choose l.value = none
  | importDecl source typeOnly children span, l, hl => by
    obtain rfl : l = source.aliased choose := by simpa [aliased, candidates] using hl
    exact hs source.value
  | exportDecl source children span, l, hl => candidatesOf_aliasedAll hs children l hl
  | call callee arguments span, l, hl => by
    have hc := candidates_aliased hs callee l
    have ha := candidatesOf_aliasedAll hs arguments l
    simp only [aliased, candidates, isRequire_aliased, List.mem_append] at hl
    rcases hl with hl | hl | hl
    · cases hr : callee.isRequire with
      | false => simp [hr] at hl
      | true =>
        simp only [hr, if_true, firstLiteral?_aliasFirst, Option.mem_toList,
          Option.map_eq_some_iff] at hl
        obtain ⟨k, -, rfl⟩ := hl
        exact hs k.value
    · exact hc hl
    · refine ha ?_
      split_ifs at hl
      · rwa [candidatesOf_aliasFirst] at hl
      · exact hl
  | identifier name span, l, hl => by simp [aliased, candidates] at hl
  | string k, l, hl => by simp [aliased, candidates] at hl
  | other kind children span, l, hl => candidatesOf_aliasedAll hs children l hl

theorem candidatesOf_aliasedAll (hs : ∀ s, choose ((choose s).getD s) = none) :
    ∀ ns : List Node, ∀ l ∈ candidatesOf (aliasedAll choose ns), choose l.value = none
  | [], l, hl => by simp [aliasedAll, candidatesOf] at hl
  | n :: ns, l, hl => by
    rcases List.mem_append.mp hl with hl | hl
    · exact candidates_aliased hs n l hl
    · exact candidatesOf_aliasedAll hs ns l hl

end

mutual

theorem aliased_twice (hs : ∀ s, choose ((choose s).getD s) = none) :
    ∀ n : Node, (n.aliased choose).aliased choose = n.aliased choose
  | importDecl source typeOnly children span => by
    simp [aliased, Literal.aliased, hs source.value]
  | exportDecl source children span => by simp [aliased, aliasedAll_twice hs children]
  | call callee arguments span => by
    have ha := aliasedAll_twice hs arguments
    simp only [aliased, isRequire_aliased, aliased_twice hs callee]
    split_ifs
    · rw [aliasedAll_aliasFirst, ha, aliasFirst_aliasFirst hs]
    · rw [ha]
  | identifier name span => rfl
  | string k => rfl
  | other kind children span => by simp [aliased, aliasedAll_twice hs children]

theorem aliasedAll_twice (hs : ∀ s, choose ((choose s).getD s) = none) :
    ∀ ns : List Node, aliasedAll choose (aliasedAll choose ns) = aliasedAll choose ns
  | [] => rfl
  | n :: ns => by simp [aliasedAll, aliased_twice hs n, aliasedAll_twice hs ns]

end

end Node

variable {ε : Type}

/-- A second round over a header text or a module tree makes no edits and changes nothing, for every
resolver whose aliases fit between quotes and climb no further than the threshold. -/
theorem aliasing_idempotent (resolve : Resolver ε) (threshold : Nat)
    (h : ∀ s a, resolve s = .ok (some a) → '"' ∉ a ∧ '\x27' ∉ a ∧ '\n' ∉ a ∧
      Specifier.climbDepth a ≤ threshold) :
    (∀ text : Text,
      (aliasHeader resolve threshold (aliasHeader resolve threshold text).text).edits = [] ∧
      (aliasHeader resolve threshold (aliasHeader resolve threshold text).text).text =
        (aliasHeader resolve threshold text).text) ∧
    ∀ m : Module,
      (m.aliased (resolve.choose threshold)).edits (resolve.choose threshold) = [] ∧
      (m.aliased (resolve.choose threshold)).aliased (resolve.choose threshold) =
        m.aliased (resolve.choose threshold) := by
  have hs := Resolver.choose_getD fun s a ha => (h s a ha).2.2.2
  have hf : Header.Fits (resolve.choose threshold) := by
    intro s a ha
    obtain ⟨hd, hq, hn, -⟩ := h s a (Resolver.choose_eq_some.mp ha).2.1
    exact ⟨hd, hq, hn⟩
  constructor
  · intro text
    have hscan := Header.scan_text_aliased hf text
    simp only [aliasHeader]
    rw [hscan]
    exact ⟨Header.edits_aliased hs _, by rw [Header.aliased_aliased hs]⟩
  · intro m
    constructor
    · apply List.filterMap_eq_nil_iff.mpr
      intro l hl
      have hn := Node.candidates_aliased hs m.root l hl
      simp [hn]
    · simp [Module.aliased, Node.aliased_twice hs m.root]

theorem aliasing_idempotent_lib :
    let resolve : Resolver Unit := fun _ => .ok (some "@/lib/a".toList)
    let text := "import a from \"../../../lib/a\";\nconst b = require('../../b');".toList
    (aliasHeader resolve 1 text).edits.length = 2 ∧
      (aliasHeader resolve 1 (aliasHeader resolve 1 text).text).edits = [] ∧
      (aliasHeader resolve 1 (aliasHeader resolve 1 text).text).text =
        (aliasHeader resolve 1 text).text := by
  refine ⟨by decide +kernel, (aliasing_idempotent _ 1 ?_).1 _⟩
  intro s a ha
  obtain rfl : "@/lib/a".toList = a := Option.some.inj (Except.ok.inj ha)
  decide

end ImportAlias
