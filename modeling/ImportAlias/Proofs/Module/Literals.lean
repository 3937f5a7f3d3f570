import ImportAlias.Module.Alias
import ImportAlias.Proofs.Text
import Mathlib.Tactic.SplitIfs

/-! The literals of a module: where they stand in the source, and which of them aliases change. -/
namespace ImportAlias

namespace Span

def Precedes (a b : Span) : Prop := a.stop ≤ b.start

def Apart (a b : Span) : Prop := a.Precedes b ∨ b.Precedes a

def Contains (a b : Span) : Prop := a.start ≤ b.start ∧ b.stop ≤ a.stop

theorem Apart.symm {a b : Span} (h : a.Apart b) : b.Apart a := Or.symm h

theorem Apart.mono {a a' b b' : Span} (h : a.Apart b) (ha : a.Contains a') (hb : b.Contains b') :
    a'.Apart b' := by
  unfold Apart Precedes at h ⊢
  unfold Contains at ha hb
  omega

theorem Contains.trans {a b c : Span} (h : a.Contains b) (h' : b.Contains c) : a.Contains c :=
  ⟨Nat.le_trans h.1 h'.1, Nat.le_trans h'.2 h.2⟩

end Span

namespace Literal

def token (l : Literal) : Text := l.quote.char :: (l.written ++ [l.quote.char])

theorem char_of_ofChar? {c : Char} {q : Quote} (h : Quote.ofChar? c = some q) : q.char = c := by
  unfold Quote.ofChar? at h
  split_ifs at h with h₁ h₂ h₃ <;> obtain rfl := Option.some.inj h <;> simp [*]

theorem of_ofToken? {t : Text} {span : Span} {l : Literal} (h : ofToken? t span = some l) :
    l.value = l.written ∧ t = l.token ∧ l.span = span := by
  unfold ofToken? at h
  split at h
  · rename_i q rest
    split at h
    · rename_i quote last hq hl
      split_ifs at h with he
      obtain rfl := Option.some.inj h
      obtain ⟨raw, rfl⟩ := List.getLast?_eq_some_iff.mp hl
      simp [ofSource, token, char_of_ofChar? hq, he]
    · simp at h
  · simp at h

/-- The literal is in the source as it was written, at its span. -/
structure Sits (source : Text) (l : Literal) : Prop where
  value_eq : l.value = l.written
  placed : ∃ before after, source = before ++ (l.token ++ after) ∧
    l.span = ⟨Text.byteSize before, Text.byteSize before + Text.byteSize l.token⟩

/-- The source has the literal's token at its span. -/
theorem Sits.slice? {source : Text} {l : Literal} (h : l.Sits source) :
    Text.slice? source l.span.start l.span.stop = some l.token := by
  obtain ⟨before, after, rfl, hspan⟩ := h.placed
  rw [hspan]
  exact Text.slice?_append before l.token after

theorem Sits.stop_le {source : Text} {l : Literal} (h : l.Sits source) :
    l.span.stop ≤ Text.byteSize source := by
  obtain ⟨before, after, rfl, hspan⟩ := h.placed
  simp only [hspan, Text.byteSize_append]
  omega

theorem Sits.start_lt_stop {source : Text} {l : Literal} (h : l.Sits source) :
    l.span.start < l.span.stop := by
  obtain ⟨before, after, -, hspan⟩ := h.placed
  have hquote := l.quote.char.utf8Size_pos
  simp only [hspan, token, Text.byteSize]
  omega

end Literal

namespace Node

def literalsOf (ns : List Node) : List Literal := ns.flatMap literals

/-- The literal of an event. -/
def literalAt? : Event → Option Literal
  | .string l => some l
  | _ => none

private theorem literals_eq (n : Node) : n.literals = n.events.filterMap literalAt? := by
  unfold literals
  congr

private theorem filterMap_eventsOf (ns : List Node) :
    (eventsOf ns).filterMap literalAt? = literalsOf ns := by
  rw [eventsOf_eq_flatMap, List.filterMap_flatMap]
  rfl

@[simp] theorem literals_importDecl (source : Literal) (typeOnly : Bool) (children : List Node)
    (span : Span) : (importDecl source typeOnly children span).literals =
      source :: literalsOf children := by
  simp [literals_eq, events, literalAt?, List.filterMap_cons, filterMap_eventsOf]

@[simp] theorem literals_exportDecl (source : Option Literal) (children : List Node) (span : Span) :
    (exportDecl source children span).literals = source.toList ++ literalsOf children := by
  cases source <;> simp [literals_eq, events, literalAt?, List.filterMap_cons, filterMap_eventsOf]

@[simp] theorem literals_call (callee : Node) (arguments : List Node) (span : Span) :
    (call callee arguments span).literals = callee.literals ++ literalsOf arguments := by
  simp [literals_eq, events, literalAt?, List.filterMap_cons, filterMap_eventsOf]

@[simp] theorem literals_identifier (name : Text) (span : Span) :
    (identifier name span).literals = [] := by
  simp [literals_eq, events, literalAt?]

@[simp] theorem literals_string (l : Literal) : (string l).literals = [l] := by
  simp [literals_eq, events, literalAt?]

@[simp] theorem literals_other (kind : String) (children : List Node) (span : Span) :
    (other kind children span).literals = literalsOf children := by
  simp [literals_eq, events, literalAt?, List.filterMap_cons, filterMap_eventsOf]

@[simp] theorem literalsOf_nil : literalsOf [] = [] := rfl

@[simp] theorem literalsOf_cons (n : Node) (ns : List Node) :
    literalsOf (n :: ns) = n.literals ++ literalsOf ns := rfl

theorem mem_literalsOf {ns : List Node} {l : Literal} :
    l ∈ literalsOf ns ↔ ∃ n ∈ ns, l ∈ n.literals := List.mem_flatMap

theorem mem_candidatesOf {ns : List Node} {l : Literal} :
    l ∈ candidatesOf ns ↔ ∃ n ∈ ns, l ∈ n.candidates := by
  rw [candidatesOf_eq_flatMap, List.mem_flatMap]

theorem firstLiteral?_mem {ns : List Node} {l : Literal} (h : firstLiteral? ns = some l) :
    string l ∈ ns := by
  unfold firstLiteral? at h
  split at h
  · obtain rfl := Option.some.inj h
    simp
  · simp at h

variable {choose : Specifier → Option Text}

/-! Changed literals -/

def changedOf (ns : List Node) : List Literal := (literalsOf ns).filter Literal.isModified

theorem filter_isModified {ls : List Literal} (h : ∀ l ∈ ls, l.value = l.written) :
    ls.filter Literal.isModified = [] := by
  rw [List.filter_eq_nil_iff]
  intro l hl
  simp [Literal.isModified, h l hl]

/-- Only a literal is aliased to a literal. -/
theorem firstLiteral?_aliasedAll (ns : List Node) :
    firstLiteral? (aliasedAll choose ns) = firstLiteral? ns := by
  cases ns with
  | nil => rfl
  | cons n ns => cases n <;> rfl

theorem aliasFirst_of_none {ns : List Node} (h : firstLiteral? ns = none) :
    aliasFirst choose ns = ns := by
  cases ns with
  | nil => rfl
  | cons n ns => cases n <;> simp_all [firstLiteral?, aliasFirst]

theorem exists_of_firstLiteral? {ns : List Node} {l : Literal} (h : firstLiteral? ns = some l) :
    ∃ rest, ns = string l :: rest := by
  cases ns with
  | nil => simp [firstLiteral?] at h
  | cons n ns => cases n <;> simp_all [firstLiteral?]

/-- The changed literals of a call: that of its first argument is one of them. -/
theorem changedOf_aliasFirst {args : List Node}
    (h : changedOf (aliasedAll choose args) =
      ((candidatesOf args).map (Literal.aliased choose)).filter Literal.isModified)
    (hl : ∀ l ∈ literalsOf args, l.value = l.written) :
    changedOf (aliasFirst choose (aliasedAll choose args)) =
      (((firstLiteral? args).toList ++ candidatesOf args).map (Literal.aliased choose)).filter
        Literal.isModified := by
  cases hf : firstLiteral? args with
  | none =>
    rw [aliasFirst_of_none (by rw [firstLiteral?_aliasedAll, hf]), h]
    rfl
  | some l =>
    obtain ⟨rest, rfl⟩ := exists_of_firstLiteral? hf
    have hfresh : l.isModified = false := by simp [Literal.isModified, hl l (by simp)]
    have hrest : changedOf (aliasedAll choose rest) =
        ((candidatesOf rest).map (Literal.aliased choose)).filter Literal.isModified := by
      simpa [changedOf, aliasedAll, aliased, candidatesOf, candidates, hfresh] using h
    have hcons : changedOf (string (l.aliased choose) :: aliasedAll choose rest) =
        [l.aliased choose].filter Literal.isModified ++ changedOf (aliasedAll choose rest) := by
      simp only [changedOf, literalsOf_cons, literals_string, List.filter_append]
    have hmap : (((some l).toList ++ candidatesOf (string l :: rest)).map
        (Literal.aliased choose)).filter Literal.isModified =
        [l.aliased choose].filter Literal.isModified ++
          ((candidatesOf rest).map (Literal.aliased choose)).filter Literal.isModified := by
      simp only [candidatesOf, candidates, Option.toList_some, List.nil_append, List.map_append,
        List.map_cons, List.map_nil, List.filter_append]
    rw [hmap, ← hrest, ← hcons]
    rfl

theorem candidates_of_isRequire {n : Node} (h : n.isRequire = true) : n.candidates = [] := by
  cases n <;> simp_all [isRequire, candidates]

mutual

/-- Where all literals are as they were written, aliasing changes candidates only, and in their
order. -/
theorem changed_aliased : ∀ n : Node, (∀ l ∈ n.literals, l.value = l.written) →
    (n.aliased choose).literals.filter Literal.isModified =
      (n.candidates.map (Literal.aliased choose)).filter Literal.isModified
  | importDecl source typeOnly children span, h => by
    have hc : (literalsOf children).filter Literal.isModified = [] :=
      filter_isModified fun l hl => h l (by simp [hl])
    simp only [aliased, literals_importDecl, candidates, List.map_cons, List.map_nil]
    rw [List.filter_cons, List.filter_cons, hc]
    rfl
  | exportDecl source children span, h => by
    have hs : source.toList.filter Literal.isModified = [] :=
      filter_isModified fun l hl => h l (by simp [hl])
    have hc := changedOf_aliasedAll children fun l hl => h l (by simp [hl])
    simp only [aliased, literals_exportDecl, List.filter_append, hs, List.nil_append, candidates]
    exact hc
  | call callee arguments span, h => by
    have hcallee := changed_aliased callee fun l hl => h l (by simp [hl])
    have hargs := changedOf_aliasedAll arguments fun l hl => h l (by simp [hl])
    simp only [aliased, literals_call, List.filter_append, candidates, hcallee, List.map_append]
    cases hr : callee.isRequire with
    | false => simpa [changedOf] using hargs
    | true =>
      have hfirst := changedOf_aliasFirst hargs fun l hl => h l (by simp [hl])
      simpa [candidates_of_isRequire hr, changedOf] using hfirst
  | identifier name span, _ => by simp [aliased, candidates]
  | string l, h => by
    have hl : [l].filter Literal.isModified = [] :=
      filter_isModified fun k hk => h k (by simpa using hk)
    simpa [aliased, candidates] using hl
  | other kind children span, h => by
    have hc := changedOf_aliasedAll children fun l hl => h l (by simp [hl])
    simpa [aliased, candidates, changedOf] using hc

theorem changedOf_aliasedAll : ∀ ns : List Node, (∀ l ∈ literalsOf ns, l.value = l.written) →
    changedOf (aliasedAll choose ns) =
      ((candidatesOf ns).map (Literal.aliased choose)).filter Literal.isModified
  | [], _ => rfl
  | n :: ns, h => by
    have hn := changed_aliased n fun l hl => h l (by simp [hl])
    have hs := changedOf_aliasedAll ns fun l hl => h l (by simp [hl])
    simp only [changedOf] at hs
    simp only [changedOf, aliasedAll, literalsOf_cons, List.filter_append, hn, hs, candidatesOf,
      List.map_append]

end

theorem candidatesOf_sublist {ns : List Node} (h : ∀ n ∈ ns, n.candidates.Sublist n.literals) :
    (candidatesOf ns).Sublist (literalsOf ns) := by
  induction ns with
  | nil => exact .slnil
  | cons n ns ih =>
    rw [candidatesOf, literalsOf_cons]
    exact (h n (by simp)).append (ih fun m hm => h m (by simp [hm]))

/-- The first argument of a call comes before the candidates in the others. -/
theorem sublist_firstLiteral {args : List Node} (h : ∀ n ∈ args, n.candidates.Sublist n.literals) :
    ((firstLiteral? args).toList ++ candidatesOf args).Sublist (literalsOf args) := by
  cases hf : firstLiteral? args with
  | none => exact candidatesOf_sublist h
  | some l =>
    obtain ⟨rest, rfl⟩ := exists_of_firstLiteral? hf
    have hrest : (candidatesOf rest).Sublist (literalsOf rest) :=
      candidatesOf_sublist fun n hn => h n (by simp [hn])
    simpa [candidatesOf, candidates] using hrest

mutual

/-- What an alias may replace are literals of the tree, in their order. -/
theorem candidates_sublist : ∀ n : Node, n.candidates.Sublist n.literals
  | importDecl source typeOnly children span => by simp [candidates]
  | exportDecl source children span => by
    rw [candidates, literals_exportDecl]
    exact (candidatesOf_sublist (candidates_sublist_of_mem children)).trans
      (List.sublist_append_right _ _)
  | call callee arguments span => by
    have hcallee := candidates_sublist callee
    have hargs := candidates_sublist_of_mem arguments
    rw [candidates, literals_call]
    split_ifs with hr
    · rw [candidates_of_isRequire hr, List.nil_append]
      exact (sublist_firstLiteral hargs).trans (List.sublist_append_right _ _)
    · exact hcallee.append (candidatesOf_sublist hargs)
  | identifier name span => by simp [candidates]
  | string l => by simp [candidates]
  | other kind children span => by
    rw [candidates, literals_other]
    exact candidatesOf_sublist (candidates_sublist_of_mem children)

theorem candidates_sublist_of_mem : ∀ ns : List Node, ∀ n ∈ ns, n.candidates.Sublist n.literals
  | [] => by simp
  | n :: ns => List.forall_mem_cons.mpr ⟨candidates_sublist n, candidates_sublist_of_mem ns⟩

end

theorem candidates_subset (n : Node) : n.candidates ⊆ n.literals := (candidates_sublist n).subset

end Node

end ImportAlias
