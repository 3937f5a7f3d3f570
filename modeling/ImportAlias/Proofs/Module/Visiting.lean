import ImportAlias.Proofs.Module.Addresses
import Mathlib.Data.List.Basic
import Mathlib.Data.List.Forall2
import Mathlib.Data.List.Lex
import Mathlib.Data.List.Sort

/-! Reading a tree: each node is met once, in the order of the addresses. What is listed from the
events of a tree is thereby tied to the places where it stands. -/
namespace ImportAlias

/-- The list holds what is found at addresses: all of it, once, and in the order of reading. -/
def Enumerates {α : Type} (Found : Address → α → Prop) (xs : List α) : Prop :=
  ∃ ps : List Address, ps.Pairwise Address.Before ∧ (∀ p, p ∈ ps ↔ ∃ x, Found p x) ∧
    List.Forall₂ Found ps xs

instance : Std.Asymm Address.Before := List.Lex.asymm fun i j : Nat => i < j

/-- Elements that have an image, beside their images. -/
theorem forall₂_filterMap {α β γ : Type} {R : β → γ → Prop} {key : α → β} {f : α → Option γ}
    {xs : List α} (h : ∀ a ∈ xs, ∀ c, f a = some c → R (key a) c) :
    List.Forall₂ R ((xs.filter fun a => (f a).isSome).map key) (xs.filterMap f) := by
  induction xs with
  | nil => exact .nil
  | cons a xs ih =>
    have ih' := ih fun b hb => h b (List.mem_cons_of_mem a hb)
    cases ha : f a with
    | none =>
      rw [List.filter_cons_of_neg (by simp [ha]), List.filterMap_cons_none ha]
      exact ih'
    | some c =>
      rw [List.filter_cons_of_pos (by simp [ha]), List.filterMap_cons_some ha]
      exact .cons (h a List.mem_cons_self c ha) ih'

section
variable {α : Type} {Found Found' : Address → α → Prop} {xs ys : List α}

theorem Enumerates.congr (h : Enumerates Found xs) (heq : ∀ p x, Found p x ↔ Found' p x) :
    Enumerates Found' xs := by
  have : Found = Found' := by
    ext p x
    exact heq p x
  exact this ▸ h

/-- Where one thing at most is found at an address, only one list enumerates what is found. -/
theorem Enumerates.unique (hone : ∀ p x y, Found p x → Found p y → x = y)
    (hx : Enumerates Found xs) (hy : Enumerates Found ys) : xs = ys := by
  obtain ⟨ps, hps, hmem, hfound⟩ := hx
  obtain ⟨qs, hqs, hmem', hfound'⟩ := hy
  obtain rfl : ps = qs := hps.eq_of_mem_iff hqs fun p => (hmem p).trans (hmem' p).symm
  exact List.right_unique_forall₂' (fun p x y => hone p x y) hfound hfound'

/-- One list enumerates all that another does if it is as long. -/
theorem Enumerates.found_of_length_eq (hx : Enumerates Found xs) (hy : Enumerates Found' ys)
    (hsub : ∀ p x, Found p x → Found' p x) (hlen : xs.length = ys.length) {p : Address} {y : α}
    (h : Found' p y) : ∃ x, Found p x := by
  obtain ⟨ps, hps, hmem, hfound⟩ := hx
  obtain ⟨qs, -, hmem', hfound'⟩ := hy
  have hsubset : ps ⊆ qs := fun q hq => by
    obtain ⟨x, hx⟩ := (hmem q).mp hq
    exact (hmem' q).mpr ⟨x, hsub q x hx⟩
  have hle : qs.length ≤ ps.length := by rw [hfound.length_eq, hfound'.length_eq, hlen]
  have hperm := (List.subperm_of_subset hps.nodup hsubset).perm_of_length_le hle
  exact (hmem p).mp (hperm.mem_iff.mpr ((hmem' p).mpr ⟨y, h⟩))

end

namespace Node

variable {root n : Node} {p : Address}

/-! Nodes and their parts -/

mutual

/-- What holds of a node if it holds of its parts holds of all nodes. -/
theorem parts_induction {P : Node → Prop} (step : ∀ n, (∀ part ∈ n.parts, P part) → P n) :
    ∀ n, P n
  | importDecl _ _ children _ => step _ (forall_of_parts step children)
  | exportDecl _ children _ => step _ (forall_of_parts step children)
  | call callee arguments _ =>
    step _ (List.forall_mem_cons.mpr ⟨parts_induction step callee, forall_of_parts step arguments⟩)
  | identifier _ _ => step _ nofun
  | string _ => step _ nofun
  | other _ children _ => step _ (forall_of_parts step children)

theorem forall_of_parts {P : Node → Prop} (step : ∀ n, (∀ part ∈ n.parts, P part) → P n) :
    ∀ ns : List Node, ∀ n ∈ ns, P n
  | [] => nofun
  | n :: ns => List.forall_mem_cons.mpr ⟨parts_induction step n, forall_of_parts step ns⟩

end

def own : Node → List Event
  | importDecl source typeOnly _ _ => [.importDecl source typeOnly, .string source]
  | exportDecl source _ _ => .exportDecl source :: source.toList.map .string
  | call callee arguments _ => [.call callee arguments]
  | identifier name _ => [.identifier name]
  | string l => [.string l]
  | other kind _ _ => [.other kind]

theorem events_eq (n : Node) : n.events = n.own ++ n.parts.flatMap events := by
  cases n <;> simp [events, own, parts, eventsOf_eq_flatMap]

/-! Visits -/

mutual

/-- The nodes that are met on a way through a tree, with their addresses. Each comes before its
parts, which are met only if the node is entered. -/
def visited (enter : Node → Bool) : Node → List (Address × Node)
  | n@(importDecl _ _ children _) => ([], n) :: if enter n then visitedFrom enter 0 children else []
  | n@(exportDecl _ children _) => ([], n) :: if enter n then visitedFrom enter 0 children else []
  | n@(call callee arguments _) =>
    ([], n) :: if enter n then
      (visited enter callee).map (fun s => (0 :: s.1, s.2)) ++ visitedFrom enter 1 arguments
    else []
  | n@(identifier _ _) => [([], n)]
  | n@(string _) => [([], n)]
  | n@(other _ children _) => ([], n) :: if enter n then visitedFrom enter 0 children else []

def visitedFrom (enter : Node → Bool) (i : Nat) : List Node → List (Address × Node)
  | [] => []
  | n :: rest =>
    (visited enter n).map (fun s => (i :: s.1, s.2)) ++ visitedFrom enter (i + 1) rest

end

variable {enter : Node → Bool}

theorem visitedFrom_eq_numbered (i : Nat) (ns : List Node) :
    visitedFrom enter i ns = numbered (visited enter) i ns := by
  induction ns generalizing i with
  | nil => rfl
  | cons n ns ih => rw [visitedFrom, numbered, ih]

theorem visited_eq (n : Node) :
    n.visited enter = ([], n) :: if enter n then numbered (visited enter) 0 n.parts else [] := by
  cases n <;> simp [visited, parts, visitedFrom_eq_numbered, numbered]

/-- Met is what can be reached without passing a node that is not entered. -/
theorem mem_visited (root : Node) (p : Address) : (p, n) ∈ root.visited enter ↔
    root.at? p = some n ∧ ¬ Below (enter · = false) root p := by
  induction p generalizing root with
  | nil =>
    have hrest : ([], n) ∉ numbered (visited enter) 0 root.parts := fun h => by
      obtain ⟨j, q, -, hq⟩ := le_of_mem_numbered h
      cases hq
    have hself : root.at? [] = some n ↔ n = root := Option.some_inj.trans eq_comm
    rw [visited_eq]
    split_ifs <;> simp [hrest, below_nil, hself]
  | cons i p ih =>
    rw [visited_eq, below_cons, at?_cons]
    cases he : enter root with
    | false => simp
    | true =>
      cases hpart : root.parts[i]? with
      | none => simp [mem_numbered, hpart]
      | some part => simp [mem_numbered, hpart, ih part]

theorem pairwise_numbered {ns : List Node} (i : Nat)
    (h : ∀ n ∈ ns, (n.visited enter).Pairwise fun s t => Address.Before s.1 t.1) :
    (numbered (visited enter) i ns).Pairwise fun s t => Address.Before s.1 t.1 := by
  induction ns generalizing i with
  | nil => exact .nil
  | cons n ns ih =>
    obtain ⟨hn, hns⟩ := List.forall_mem_cons.mp h
    exact pairwise_numbered_cons hn (ih (i + 1) hns)

/-- Nodes are met in the order of their addresses. -/
theorem pairwise_visited (n : Node) :
    (n.visited enter).Pairwise fun s t => Address.Before s.1 t.1 := by
  induction n using parts_induction with
  | step n ih =>
    rw [visited_eq]
    split_ifs
    · refine List.pairwise_cons.mpr ⟨fun s hs => ?_, pairwise_numbered 0 ih⟩
      obtain ⟨j, q, -, hq⟩ := le_of_mem_numbered hs
      rw [hq]
      exact List.Lex.nil
    · exact List.pairwise_singleton _ _

/-- What is listed of the nodes that are met is found where they stand. -/
theorem enumerates_visited {α : Type} (f : Node → Option α) (root : Node) :
    Enumerates (fun p x => (root.at? p).bind f = some x ∧ ¬ Below (enter · = false) root p)
      ((root.visited enter).filterMap fun s => f s.2) := by
  refine ⟨((root.visited enter).filter fun s => (f s.2).isSome).map Prod.fst,
    List.pairwise_map.mpr ((pairwise_visited root).sublist List.filter_sublist), fun p => ?_,
    forall₂_filterMap fun s hs x hx => ?_⟩
  · constructor
    · intro h
      obtain ⟨s, hs, rfl⟩ := List.mem_map.mp h
      obtain ⟨hmem, hsome⟩ := List.mem_filter.mp hs
      obtain ⟨hat, hbelow⟩ := (mem_visited root s.1).mp hmem
      obtain ⟨x, hx⟩ := Option.isSome_iff_exists.mp hsome
      exact ⟨x, by rw [hat]; exact hx, hbelow⟩
    · rintro ⟨x, hx, hbelow⟩
      obtain ⟨n, hat, hn⟩ := Option.bind_eq_some_iff.mp hx
      have hmem := (mem_visited root p).mpr ⟨hat, hbelow⟩
      exact List.mem_map.mpr ⟨(p, n), List.mem_filter.mpr ⟨hmem, by simp [hn]⟩, rfl⟩
  · obtain ⟨hat, hbelow⟩ := (mem_visited root s.1).mp hs
    exact ⟨by rw [hat]; exact hx, hbelow⟩

/-! Events -/

theorem map_snd_numbered {α : Type} (list : Node → List (Address × α)) (i : Nat) (ns : List Node) :
    (numbered list i ns).map Prod.snd = ns.flatMap fun n => (list n).map Prod.snd := by
  induction ns generalizing i with
  | nil => rfl
  | cons n ns ih => simp [numbered, ih]

/-- The nodes that are met, without their addresses. -/
theorem map_snd_visited (n : Node) : (n.visited enter).map Prod.snd =
    n :: if enter n then n.parts.flatMap fun part => (part.visited enter).map Prod.snd else [] := by
  rw [visited_eq]
  split_ifs <;> simp [map_snd_numbered]

/-- The events of a tree are those of its nodes, all of which are met. -/
theorem events_eq_flatMap_own (n : Node) :
    n.events = ((n.visited fun _ => true).map Prod.snd).flatMap own := by
  induction n using parts_induction with
  | step n ih =>
    rw [events_eq, map_snd_visited, if_pos rfl, List.flatMap_cons, List.flatMap_assoc]
    exact congrArg _ (List.flatMap_congr ih)

/-- What is listed of the events is found where the events take place, if a node gives rise to one
at most. -/
theorem enumerates_events {α : Type} {g : Event → Option α} {f : Node → Option α}
    (h : ∀ n : Node, n.own.filterMap g = (f n).toList) (root : Node) :
    Enumerates (fun p x => (root.at? p).bind f = some x) (root.events.filterMap g) := by
  have hlist : root.events.filterMap g =
      (root.visited fun _ => true).filterMap fun s => f s.2 := by
    rw [events_eq_flatMap_own, List.filterMap_flatMap]
    simp only [h, List.flatMap_map]
    exact (List.filterMap_eq_flatMap_toList ..).symm
  rw [hlist]
  refine (enumerates_visited f root).congr fun p x => ?_
  simp [Below]

end Node

end ImportAlias
