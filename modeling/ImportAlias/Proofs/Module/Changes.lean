import ImportAlias.Proofs.Lines
import ImportAlias.Proofs.Module.Escaping
import ImportAlias.Proofs.Module.Lowering

/-! What printing a module with aliases does to its source: where the text changes, a line of it is
seen to change. -/
namespace ImportAlias

open Grammar (IsBody IsString)

/-- The literal is in the source as it was written, and its second quote ends it. -/
structure Literal.Stands (source : Text) (l : Literal) : Prop extends l.Sits source where
  body : IsBody l.quote.char l.written

/-- A replacement of a literal that stands in the source by one with another value. -/
def Replaces (source : Text) (p : Span × Text) : Prop :=
  ∃ (l : Literal) (a : Text), l.Stands source ∧ '\n' ∉ a ∧
    p = (l.span, { l with value := a }.source)

/-- The second text departs from the first at a literal: after what they have in common, each goes
on with a literal of its own. -/
structure Departs (before after : Text) : Prop where
  intro ::
  exists_literals : ∃ (P S R : Text) (q : Quote) (raw body : Text),
    before = P ++ q.char :: (raw ++ q.char :: S) ∧ after = P ++ q.char :: (body ++ q.char :: R) ∧
      IsBody q.char raw ∧ IsBody q.char body ∧ '\n' ∉ body ∧ body ≠ raw

theorem Departs.append {b a : Text} (h : Departs b a) (P : Text) : Departs (P ++ b) (P ++ a) := by
  obtain ⟨P', S, R, q, raw, body, rfl, rfl, hraw, hbody, hn, hne⟩ := h.exists_literals
  exact ⟨P ++ P', S, R, q, raw, body, by simp, by simp, hraw, hbody, hn, hne⟩

/-- Such a departure is seen. -/
theorem Departs.between_ne_nil {b a : Text} (h : Departs b a) : LineChange.between b a ≠ [] := by
  obtain ⟨P, S, R, q, raw, body, rfl, rfl, hraw, hbody, hn, hne⟩ := h.exists_literals
  have hq : q.char ≠ '\n' ∧ q.char ≠ '\r' := by cases q <;> decide
  have hs : '\n' ∉ q.char :: body := by simp [hn, hq.1.symm]
  refine LineChange.between_ne_nil P hs hq (by simp) ?_ R
  intro hp
  have hp : body ++ [q.char] <+: raw ++ q.char :: S := by simpa using hp
  exact hne (hraw.eq_of_starts hbody hp)

/-- Splicing literals in gives what was there, or a text that departs from it at a literal. -/
theorem splice_spec {source front rest : Text} (hs : source = front ++ rest)
    {replacements : List (Span × Text)} (hr : ∀ p ∈ replacements, Replaces source p) {out : Text}
    (h : splice source (Text.byteSize front) replacements = some out) :
    out = rest ∨ Departs rest out := by
  induction replacements generalizing front rest out with
  | nil =>
    rw [splice, hs, Text.dropBytes?_append] at h
    exact .inl (Option.some.inj h).symm
  | cons p replacements ih =>
    obtain ⟨l, a, hl, ha, rfl⟩ := hr p (by simp)
    have hr' : ∀ p ∈ replacements, Replaces source p := fun p hp => hr p (by simp [hp])
    rw [splice] at h
    split_ifs at h with hskip
    · exact ih hs hr' h
    · obtain ⟨before, after, hsource, hspan⟩ := hl.placed
      rw [hspan] at h hskip
      have hle : Text.byteSize front ≤ Text.byteSize before := by
        simp only [not_or, not_lt] at hskip
        exact hskip.1
      obtain ⟨kept, rfl, rfl⟩ :=
        Text.exists_append_of_byteSize_le (hs.symm.trans hsource) hle
      have hkept : Text.slice? source (Text.byteSize front) (Text.byteSize (front ++ kept)) =
          some kept := by
        rw [hs, Text.byteSize_append]
        exact Text.slice?_append front kept _
      simp only [hkept, bind, Option.bind_some, ← Text.byteSize_append] at h
      obtain ⟨tail, htail, hout⟩ := Option.bind_eq_some_iff.mp h
      obtain rfl := Option.some.inj hout
      have hs' : source = (front ++ kept ++ l.token) ++ after := by
        rw [hsource]
        simp
      by_cases he : Literal.escape l.quote.char a = l.written
      · have hprint : ∀ span, (⟨a, l.written, l.quote, span⟩ : Literal).source = l.token := by
          intro span
          simp [Literal.source, Literal.token, he]
        rcases ih hs' hr' htail with rfl | hd
        · exact .inl (by simp [hprint])
        · refine .inr ?_
          have := hd.append (kept ++ l.token)
          simpa [hprint] using this
      · refine .inr ⟨kept, after, tail, l.quote, l.written, Literal.escape l.quote.char a, ?_, ?_,
          hl.body, Literal.isBody_escape _ _, Literal.not_mem_escape (by decide) ha, he⟩
        · simp [Literal.token]
        · simp [Literal.source]

namespace Concrete

open Node (candidatesOf)

variable {source : Text}

/-- The strings that an import or a call may take end at their second quote: those in a field
`source`, and those in `require` clauses and among arguments. -/
inductive Quoted (source : Text) : Concrete → Prop
  | node {label : Label} {nodes : List Concrete}
      (sources : ∀ c ∈ nodes, c.label.field = some "source" → IsString (c.label.text source))
      (strings : label.kind ∈ ["arguments", "import_require_clause"] → ∀ c ∈ nodes,
        c.label.named = true → c.label.kind = "string" → IsString (c.label.text source))
      (below : ∀ c ∈ nodes, Quoted source c) : Quoted source (node label nodes)

theorem Quoted.child {c : Concrete} (h : c.Quoted source) : ∀ d ∈ c.children, d.Quoted source := by
  cases h
  assumption

theorem Quoted.isString_of_inField? {c d : Concrete} (h : c.Quoted source)
    (hd : inField? "source" c.children = some d) : IsString (d.label.text source) := by
  obtain ⟨hmem, hfield⟩ := inField?_eq_some hd
  cases h with
  | node sources strings below => exact sources d hmem hfield

theorem Quoted.isString_of_importSource? {c d : Concrete} (h : c.Quoted source)
    (hd : importSource? c.children = some d) : IsString (d.label.text source) := by
  rcases importSource?_cases hd with hd | ⟨clause, hclause, hd⟩
  · exact h.isString_of_inField? hd
  · obtain ⟨hmem, -, hkind⟩ := ofKind?_eq_some hclause
    have hin := h.child clause hmem
    rcases hd with hd | hd
    · exact hin.isString_of_inField? hd
    · obtain ⟨hmem, hnamed, hstring⟩ := ofKind?_eq_some hd
      cases hin with
      | node sources strings below => exact strings (by simp_all) d hmem hnamed hstring

theorem isBody_of_literal? {label : Label} {l : Literal} (h : label.literal? source = some l)
    (hs : IsString (label.text source)) : IsBody l.quote.char l.written := by
  obtain ⟨-, htoken, -⟩ := Literal.of_ofToken? h
  rw [htoken, Literal.token] at hs
  generalize ht : l.quote.char :: (l.written ++ [l.quote.char]) = t at hs
  cases hs with
  | @mk q raw _ hb =>
    obtain ⟨hq, hr⟩ := List.cons.inj ht
    obtain ⟨hw, -⟩ := List.append_inj' hr rfl
    rwa [hq, hw]

theorem mem_candidatesOf_lowerAll {except : Option Nat} {nodes : List Concrete} {l : Literal}
    (h : l ∈ candidatesOf (lowerAll source except nodes)) :
    ∃ c ∈ nodes, ∃ n, lower source except c = some n ∧ l ∈ n.candidates := by
  rw [lowerAll_eq_flatMap] at h
  obtain ⟨n, hn, hl⟩ := Node.mem_candidatesOf.mp h
  obtain ⟨c, hc, hn⟩ := List.mem_flatMap.mp hn
  exact ⟨c, (List.mem_filter.mp hc).1, n, by simpa using hn, hl⟩

/-- A literal among arguments comes from a string there. -/
theorem Quoted.isBody_of_firstLiteral? {c : Concrete} (h : c.Quoted source)
    (hk : c.label.kind = "arguments") {l : Literal}
    (hl : Node.firstLiteral? (lowerAll source none c.children) = some l) :
    IsBody l.quote.char l.written := by
  have hmem := Node.firstLiteral?_mem hl
  rw [lowerAll_eq_flatMap] at hmem
  obtain ⟨d, hd, hn⟩ := List.mem_flatMap.mp hmem
  obtain ⟨hd, hnamed⟩ := List.mem_filter.mp hd
  obtain ⟨label, nodes⟩ := d
  cases (lowers_of_lower (by simpa using hn)).2 with
  | string kind literal =>
    cases h with
    | node sources strings below =>
      exact isBody_of_literal? literal (strings (by simp_all) _ hd hnamed kind)

/-- What an alias may replace ends at its second quote. -/
theorem Quoted.isBody_of_lower {c : Concrete} (h : c.Quoted source) {except : Option Nat} {n : Node}
    (hn : lower source except c = some n) :
    ∀ l ∈ n.candidates, IsBody l.quote.char l.written := by
  induction c using lower_induction generalizing except n with
  | h label nodes ih ih' =>
    have hall : ∀ except, ∀ l ∈ candidatesOf (lowerAll source except nodes),
        IsBody l.quote.char l.written := by
      intro except l hl
      obtain ⟨c, hc, m, hm, hl⟩ := mem_candidatesOf_lowerAll hl
      exact ih c hc (h.child c hc) hm l hl
    intro l hl
    cases (lowers_of_lower hn).2 with
    | importDecl typeOnly kind named literal =>
      obtain rfl : l = _ := by simpa [Node.candidates] using hl
      exact isBody_of_literal? literal (h.isString_of_importSource? named)
    | exportDecl kind => exact hall none l (by simpa [Node.candidates] using hl)
    | reexport kind named literal => exact hall _ l (by simpa [Node.candidates] using hl)
    | call kind function lowered given isList =>
      have hf := (inField?_eq_some function).1
      have ha := (inField?_eq_some given).1
      rw [Node.candidates, List.mem_append, List.mem_append] at hl
      rcases hl with hl | hl | hl
      · split_ifs at hl
        · exact (h.child _ ha).isBody_of_firstLiteral? isList (by simpa using hl)
        · simp at hl
      · exact ih _ hf (h.child _ hf) lowered l hl
      · obtain ⟨d, hd, m, hm, hl⟩ := mem_candidatesOf_lowerAll hl
        exact ih' _ ha d hd ((h.child _ ha).child d hd) hm l hl
    | identifier kind => simp [Node.candidates] at hl
    | string kind literal => simp [Node.candidates] at hl
    | other => exact hall except l (by simpa [Node.candidates] using hl)

end Concrete

namespace Module

variable {choose : Specifier → Option Text} {source : Text} {r : Reading} {parser : String}

theorem exists_mem_edits {m : Module} {l : Literal} {a : Text} (hl : l ∈ m.root.candidates)
    (ha : choose l.value = some a) : ∃ e ∈ m.edits choose, e.replacement = a :=
  ⟨⟨lineAt m.source l.span.start, l.value, a⟩, List.mem_filterMap.mpr ⟨l, hl, by simp [ha]⟩, rfl⟩

/-- The replacements of a module with aliases are of literals that stand in its source. -/
theorem replaces_of_mem (hr : r.root.Quoted source)
    (he : ∀ e ∈ (ofReading parser source r).edits choose, '\n' ∉ e.replacement) {p : Span × Text}
    (hp : p ∈ ((ofReading parser source r).aliased choose).replacements) : Replaces source p := by
  have hsits := sits_ofReading parser source r
  have hvalue : ∀ l ∈ (ofReading parser source r).root.literals, l.value = l.written :=
    fun l hl => (hsits l hl).value_eq
  rw [replacements, List.mem_mergeSort] at hp
  obtain ⟨l', hl', rfl⟩ := List.mem_map.mp hp
  have hchanged : l' ∈ ((ofReading parser source r).root.candidates.map
      (Literal.aliased choose)).filter Literal.isModified := by
    rwa [← Node.changed_aliased _ hvalue]
  obtain ⟨hmem, hmod⟩ := List.mem_filter.mp hchanged
  obtain ⟨l, hl, rfl⟩ := List.mem_map.mp hmem
  have hst : l.Stands source := ⟨hsits l (Node.candidates_subset _ hl),
    hr.isBody_of_lower (lower_root parser source r) l hl⟩
  cases ha : choose l.value with
  | none => simp [Literal.isModified, Literal.aliased, ha, ← hst.value_eq] at hmod
  | some a =>
    obtain ⟨e, hmem, rfl⟩ := exists_mem_edits hl ha
    exact ⟨l, e.replacement, hst, he e hmem, by simp [Literal.aliased, ha]⟩

/-- Where printing a module with aliases changes its source, a line is seen to change. -/
theorem between_aliased_ne_nil {out : Text} (hr : r.root.Quoted source)
    (he : ∀ e ∈ (ofReading parser source r).edits choose, '\n' ∉ e.replacement)
    (h : ((ofReading parser source r).aliased choose).render? = some out) (hne : out ≠ source) :
    LineChange.between source out ≠ [] := by
  have hs : source = [] ++ source := rfl
  rcases splice_spec hs (fun p hp => replaces_of_mem hr he hp) h with hsame | hd
  · exact absurd hsame hne
  · exact hd.between_ne_nil

end Module

end ImportAlias
