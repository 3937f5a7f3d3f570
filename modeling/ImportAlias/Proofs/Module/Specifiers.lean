import ImportAlias.Module.Parse
import ImportAlias.Proofs.Module.Visiting

/-! The specifiers of a module. They are collected outside of imports, exports and calls only, so a
statement that stands inside of one of these is left out. -/
namespace ImportAlias

/-- The specifier of an import, or of an export that has a source. -/
def Event.specifier? : Event → Option Text
  | importDecl source _ => some source.value
  | exportDecl source => source.map Literal.value
  | _ => none

namespace Node

def specifier? : Node → Option Text
  | importDecl source _ _ _ => some source.value
  | exportDecl source _ _ => source.map Literal.value
  | _ => none

def specifierAt? (root : Node) (p : Address) : Option Text := (root.at? p).bind specifier?

def isOther : Node → Bool
  | other _ _ _ => true
  | _ => false

/-- The address leads to something inside of an import, an export or a call. -/
def Enclosed (root : Node) (p : Address) : Prop := Below (isOther · = false) root p

theorem filterMap_own (n : Node) : n.own.filterMap Event.specifier? = n.specifier?.toList := by
  cases n with
  | exportDecl source => cases source <;> rfl
  | _ => rfl

theorem specifiers_eq (n : Node) : n.specifiers =
    n.specifier?.toList ++ if n.isOther then n.parts.flatMap specifiers else [] := by
  cases n with
  | exportDecl source => cases source <;> rfl
  | other kind children span =>
    simp [specifiers, specifier?, isOther, parts, specifiersOf_eq_flatMap]
  | _ => rfl

/-- Specifiers are collected on the way through the nodes that enclose nothing. -/
theorem specifiers_eq_filterMap (n : Node) :
    n.specifiers = (n.visited isOther).filterMap fun s => s.2.specifier? := by
  suffices h : n.specifiers =
      ((n.visited isOther).map Prod.snd).flatMap fun k => k.specifier?.toList by
    rw [h, List.flatMap_map, List.filterMap_eq_flatMap_toList]
  induction n using parts_induction with
  | step n ih =>
    rw [specifiers_eq, map_snd_visited, List.flatMap_cons]
    split_ifs
    · rw [List.flatMap_assoc]
      exact congrArg _ (List.flatMap_congr ih)
    · rfl

theorem enumerates_specifiers (n : Node) :
    Enumerates (fun p s => n.specifierAt? p = some s ∧ ¬ n.Enclosed p) n.specifiers := by
  rw [specifiers_eq_filterMap]
  exact enumerates_visited specifier? n

end Node

namespace Module

/-- The specifiers of a module are those of its imports and re-exports that nothing encloses. They
are those of all its imports and re-exports just when none is enclosed. -/
theorem specifiers_complete_iff (m : Module) :
    Enumerates (fun p s => m.root.specifierAt? p = some s)
      (m.root.events.filterMap Event.specifier?) ∧
    Enumerates (fun p s => m.root.specifierAt? p = some s ∧ ¬ m.root.Enclosed p) m.specifiers ∧
    (m.specifiers = m.root.events.filterMap Event.specifier? ↔
      ¬ ∃ p, (m.root.specifierAt? p).isSome ∧ m.root.Enclosed p) := by
  have hall := Node.enumerates_events Node.filterMap_own m.root
  have hopen := Node.enumerates_specifiers m.root
  refine ⟨hall, hopen, ?_, ?_⟩
  · rintro heq ⟨p, hsome, henclosed⟩
    obtain ⟨s, hs⟩ := Option.isSome_iff_exists.mp hsome
    obtain ⟨-, -, hfree⟩ :=
      hopen.found_of_length_eq hall (fun _ _ h => h.1) (congrArg List.length heq) hs
    exact hfree henclosed
  · intro hfree
    refine Enumerates.unique (fun p s t hs ht => ?_) (hopen.congr fun p s => ?_) hall
    · exact Option.some.inj (hs.symm.trans ht)
    · exact and_iff_left_of_imp fun hs henclosed => hfree ⟨p, by simp [hs], henclosed⟩

/-- A module with a re-export in a namespace that is exported. -/
def exportedNamespace : Module :=
  parse "babel-ts" .tsx
    "export namespace N \x7b export \x7b x \x7d from \"../../x\"; \x7d\n".toList

theorem specifiers_exportedNamespace : exportedNamespace.hasErrors = false ∧
    exportedNamespace.specifiers = [] ∧
    exportedNamespace.root.events.filterMap Event.specifier? = ["../../x".toList] := by
  decide +kernel

end Module

end ImportAlias
