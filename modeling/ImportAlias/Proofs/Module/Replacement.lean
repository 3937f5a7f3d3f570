import ImportAlias.Proofs.Grammar.Concrete
import ImportAlias.Proofs.Module.Lowering
import ImportAlias.Proofs.Module.Printing

/-! Printing a module with aliases replaces the spans of the edited literals, and keeps every other
byte of the source. -/
namespace ImportAlias

theorem Literal.Sits.fits {source : Text} {l : Literal} (h : l.Sits source) :
    l.span.Fits source := by
  obtain ⟨before, after, hsource, hspan⟩ := h.placed
  rw [hspan]
  exact ⟨Nat.le_add_right _ _, fun _ => ⟨before, _, hsource, rfl⟩,
    fun _ => ⟨before ++ l.token, after, by simpa using hsource, Text.byteSize_append _ _⟩⟩

namespace Module

open Literal (ByStart reprinted)

variable {m : Module} {choose : Specifier → Option Text}

/-- The literals that get an alias. -/
def edited (choose : Specifier → Option Text) (m : Module) : List Literal :=
  m.root.candidates.filter fun l => (choose l.value).isSome

/-- There is one edit for each edited literal, in the order of the literals. -/
theorem edits_edited (choose : Specifier → Option Text) (m : Module) :
    List.Forall₂ (fun e l => e.line = lineAt m.source l.span.start ∧ e.specifier = l.value ∧
        choose l.value = some e.replacement) (m.edits choose) (m.edited choose) := by
  unfold edits edited
  induction m.root.candidates with
  | nil => exact .nil
  | cons l ls ih =>
    cases ha : choose l.value with
    | none => simpa [List.filterMap_cons, ha] using ih
    | some a =>
      rw [List.filterMap_cons, List.filter_cons]
      simpa [ha] using ih

/-- The literals of a tree that aliasing changes are the edited ones. -/
theorem filter_isModified_aliased {ls : List Literal} (hne : ∀ s, choose s ≠ some s)
    (hl : ∀ l ∈ ls, l.value = l.written) :
    (ls.map (Literal.aliased choose)).filter Literal.isModified =
      (ls.filter fun l => (choose l.value).isSome).map (Literal.aliased choose) := by
  rw [List.filter_map]
  congr 1
  refine List.filter_congr fun l hm => ?_
  have hv := hl l hm
  cases ha : choose l.value with
  | none => simp [Literal.isModified, Literal.aliased, ha, ← hv]
  | some a =>
    have hchanged : a ≠ l.written := by
      rintro rfl
      exact hne l.value (by rw [ha, hv])
    simp [Literal.isModified, Literal.aliased, ha, hchanged]

/-- The literals that aliasing a module changes are the edited ones. -/
theorem modified_aliased (hne : ∀ s, choose s ≠ some s)
    (hv : ∀ l ∈ m.root.literals, l.value = l.written) :
    (m.aliased choose).modified = (m.edited choose).map (Literal.aliased choose) :=
  (Node.changed_aliased m.root hv).trans
    (filter_isModified_aliased hne fun l hl => hv l (Node.candidates_subset _ hl))

theorem edited_sublist (choose : Specifier → Option Text) (m : Module) :
    (m.edited choose).Sublist m.root.literals :=
  List.filter_sublist.trans (Node.candidates_sublist m.root)

/-- Edited literals that stand one behind another by increasing start are all put in. -/
theorem exists_render?_aliased (hne : ∀ s, choose s ≠ some s)
    (hsits : ∀ l ∈ m.root.literals, l.Sits m.source) {sorted : List Literal}
    (hs : ByStart ((m.edited choose).map (Literal.aliased choose)) sorted)
    (ho : sorted.Pairwise fun a b => a.span.Precedes b.span) :
    ∃ out, (m.aliased choose).render? = some out ∧
      Text.replaceRanges? m.source 0 (sorted.map reprinted) = some out := by
  have hmem : ∀ l ∈ sorted, ∃ k : Literal, k.Sits m.source ∧ k.span = l.span := by
    intro l hl
    obtain ⟨k, hk, rfl⟩ := List.mem_map.mp (hs.perm.mem_iff.mp hl)
    exact ⟨k, hsits k ((edited_sublist choose m).subset hk), rfl⟩
  have hall : Literal.taken (Text.byteSize m.source) 0 sorted = sorted := by
    refine Literal.taken_eq_self ho (fun _ _ => Nat.zero_le _) fun l hl => ?_
    obtain ⟨k, hk, hspan⟩ := hmem l hl
    exact hspan ▸ hk.stop_le
  have hfits : ∀ l ∈ sorted, l.span.Fits m.source := by
    intro l hl
    obtain ⟨k, hk, hspan⟩ := hmem l hl
    exact hspan ▸ hk.fits
  obtain ⟨out, hout⟩ := Literal.exists_replaceRanges?_taken (Text.isBoundary_zero m.source) hfits
  rw [← modified_aliased hne fun l hl => (hsits l hl).value_eq] at hs
  have hrender : (m.aliased choose).render? =
      Text.replaceRanges? m.source 0
        ((Literal.taken (Text.byteSize m.source) 0 sorted).map reprinted) :=
    render?_eq_replaceRanges? hs
  rw [hall] at hout hrender
  exact ⟨out, hrender.trans hout, hout⟩

def reprint (l : Literal) (e : Edit) : Span × Text :=
  (l.span, l.quote.char :: (Literal.escape l.quote.char e.replacement ++ [l.quote.char]))

theorem zipWith_reprint {ls : List Literal} {es : List Edit}
    (h : List.Forall₂ (fun e l => choose l.value = some e.replacement) es ls) :
    List.zipWith reprint ls es = (ls.map (Literal.aliased choose)).map reprinted := by
  induction h with
  | nil => rfl
  | cons ha _ ih => simp [reprint, reprinted, Literal.source, Literal.aliased, ha, ih]

/-- Whatever tree a source is read as, be there errors in it or not: every literal of the module
stands between its quotes at its span. If the spans of the tree are nested and in order, no two
literals have a byte in common, and printing the module with aliases replaces the spans of the
edited literals and keeps every other byte. -/
theorem aliased_ofReading_replaces {ε : Type} (resolve : Resolver ε) (threshold : Nat)
    (parser : String) (source : Text) {r : Reading} (h : r.root.Laid) :
    let m := ofReading parser source r
    let choose := resolve.choose threshold
    (∀ l ∈ m.root.literals, l.value = l.written ∧
      Text.slice? source l.span.start l.span.stop =
        some (l.quote.char :: (l.value ++ [l.quote.char]))) ∧
    m.root.literals.Pairwise (fun a b => a.span.Apart b.span) ∧
    (m.edited choose).Sublist m.root.literals ∧
    List.Forall₂ (fun e l => e.line = lineAt source l.span.start ∧ e.specifier = l.value ∧
      choose l.value = some e.replacement) (m.edits choose) (m.edited choose) ∧
    ∃ ranges out, ranges.Perm (List.zipWith reprint (m.edited choose) (m.edits choose)) ∧
      ranges.Pairwise (fun p q => p.1.Precedes q.1) ∧
      (m.aliased choose).render? = some out ∧
      Text.replaceRanges? source 0 ranges = some out := by
  intro m choose
  have hsits : ∀ l ∈ m.root.literals, l.Sits m.source := sits_ofReading parser source r
  have hapart : m.root.literals.Pairwise fun a b => a.span.Apart b.span := apart_ofReading h parser
  have hsub := edited_sublist choose m
  have hforall := edits_edited choose m
  have hzip := zipWith_reprint (hforall.imp fun e l he => he.2.2)
  refine ⟨fun l hl => ?_, hapart, hsub, hforall, ?_⟩
  · have hl := hsits l hl
    refine ⟨hl.value_eq, ?_⟩
    rw [hl.value_eq]
    exact hl.slice?
  · have hs := Literal.byStart_mergeSort ((m.edited choose).map (Literal.aliased choose))
    have ho := hs.pairwise_precedes (List.pairwise_map.mpr (hapart.sublist hsub)) fun l hl => by
      obtain ⟨k, hk, rfl⟩ := List.mem_map.mp hl
      exact (hsits k (hsub.subset hk)).start_lt_stop
    obtain ⟨out, hrender, hout⟩ := exists_render?_aliased resolve.choose_ne_some_self hsits hs ho
    refine ⟨_, out, ?_, List.pairwise_map.mpr ho, hrender, hout⟩
    rw [hzip]
    exact hs.perm.map reprinted

/-- An import whose name is a string, a source inside a call, a re-export, and a call of `require`
inside another call. -/
def sampleSource : Text := (
  "import \x7b \"a b\" as c \x7d from \"../../c\";\n" ++
  "import d = require('../../d');\n" ++
  "export * from '../../e';\n" ++
  "f(require('../../f'));").toList

/-- Every specifier gets one alias, with a quote in it. -/
def sampleChoose : Specifier → Option Text :=
  Resolver.choose (fun _ => .ok (some "@/it's".toList) : Resolver Unit) 1

theorem sampleSource_counts : (parse "typescript" .typeScript sampleSource).hasErrors = false ∧
    (parse "typescript" .typeScript sampleSource).root.literals.length = 5 ∧
    ((parse "typescript" .typeScript sampleSource).edits sampleChoose).length = 3 := by
  decide +kernel

theorem aliased_ofReading_replaces_sample :
    let r := Grammar.Dialect.read .typeScript sampleSource
    let m := ofReading "typescript" sampleSource r
    r.root.Laid ∧ (m.hasErrors = false ∧ m.root.literals.length = 5 ∧
      (m.edits sampleChoose).length = 3) ∧
    m.root.literals.Pairwise (fun a b => a.span.Apart b.span) ∧
    ∃ ranges out, ranges.length = 3 ∧ (m.aliased sampleChoose).render? = some out ∧
      Text.replaceRanges? sampleSource 0 ranges = some out := by
  intro r m
  have hlaid : r.root.Laid := Grammar.laid_read .typeScript sampleSource
  obtain ⟨-, hapart, -, hforall, ranges, out, hperm, -, hrender, hout⟩ :=
    aliased_ofReading_replaces (fun _ => .ok (some "@/it's".toList) : Resolver Unit) 1 "typescript"
      sampleSource hlaid
  have hlength : (m.edits sampleChoose).length = (m.edited sampleChoose).length :=
    hforall.length_eq
  refine ⟨hlaid, sampleSource_counts, hapart, ranges, out, ?_, hrender, hout⟩
  rw [hperm.length_eq, List.length_zipWith]
  exact (Nat.min_eq_right hlength.le).trans sampleSource_counts.2.2

end Module

end ImportAlias
