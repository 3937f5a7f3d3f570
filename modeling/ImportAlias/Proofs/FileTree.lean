import ImportAlias.FileTree
import ImportAlias.Proofs.Path.Normal
import Mathlib.Data.List.Forall2
import Mathlib.Data.List.Nodup

/-! Proper file trees, the paths of their entries, and what stays the same when the texts of some
files are replaced. -/
namespace ImportAlias

namespace FileTree

/-- Every entry has a name and lies in a directory, and no two are at the same location. -/
structure IsProper (tree : FileTree) : Prop where
  nodup : (tree.entries.map Prod.fst).Nodup
  named : ∀ p ∈ tree.entries, p.1 ≠ [] ∧ ∀ n ∈ p.1, Path.IsName n
  inside : ∀ p ∈ tree.entries, tree.lookup p.1.dropLast = some .directory

instance (tree : FileTree) : Decidable tree.IsProper :=
  decidable_of_iff ((tree.entries.map Prod.fst).Nodup ∧
      (∀ p ∈ tree.entries, p.1 ≠ [] ∧ ∀ n ∈ p.1, Path.IsName n) ∧
      ∀ p ∈ tree.entries, tree.lookup p.1.dropLast = some .directory)
    ⟨fun ⟨a, b, c⟩ => ⟨a, b, c⟩, fun ⟨a, b, c⟩ => ⟨a, b, c⟩⟩

variable {tree : FileTree} {l : Location} {e : Entry}

@[simp] theorem lookup_nil (tree : FileTree) : tree.lookup [] = some .directory := rfl

theorem lookup_of_ne_nil (h : l ≠ []) : tree.lookup l = tree.entries.lookup l := if_neg h

theorem mem_of_lookup (hl : l ≠ []) (h : tree.lookup l = some e) : (l, e) ∈ tree.entries := by
  rw [lookup_of_ne_nil hl, List.lookup_eq_some_iff] at h
  obtain ⟨before, after, he, -⟩ := h
  simp [he]

theorem IsProper.lookup_of_mem (ht : tree.IsProper) (h : (l, e) ∈ tree.entries) :
    tree.lookup l = some e := by
  rw [lookup_of_ne_nil (ht.named _ h).1, List.lookup_eq_some_iff]
  obtain ⟨before, after, he⟩ := List.append_of_mem h
  refine ⟨before, after, he, fun p hp => ?_⟩
  have hn := ht.nodup
  rw [he, List.map_append, List.nodup_append] at hn
  simpa [bne_iff_ne] using (hn.2.2 p.1 (List.mem_map_of_mem hp) l (by simp)).symm

theorem IsProper.names (ht : tree.IsProper) (h : (tree.lookup l).isSome = true) :
    ∀ n ∈ l, Path.IsName n := by
  by_cases hl : l = []
  · simp [hl]
  · obtain ⟨e, he⟩ := Option.isSome_iff_exists.mp h
    exact (ht.named _ (mem_of_lookup hl he)).2

theorem IsProper.parent (ht : tree.IsProper) (hl : l ≠ []) (h : (tree.lookup l).isSome = true) :
    tree.lookup l.dropLast = some .directory := by
  obtain ⟨e, he⟩ := Option.isSome_iff_exists.mp h
  exact ht.inside _ (mem_of_lookup hl he)

/-- What lies above an entry is a directory. -/
theorem IsProper.lookup_above (ht : tree.IsProper) (names : List Text) (hn : names ≠ [])
    (h : (tree.lookup (l ++ names)).isSome = true) : tree.lookup l = some .directory := by
  induction names using List.reverseRecOn with
  | nil => exact absurd rfl hn
  | append_singleton names n ih =>
    have hp := ht.parent (l := l ++ (names ++ [n])) (by simp) h
    rw [← List.append_assoc, List.dropLast_concat] at hp
    cases names with
    | nil => simpa using hp
    | cons m names => exact ih (by simp) (by rw [hp]; rfl)

theorem walk_cons (tree : FileTree) (l : Location) (s : Text) (rest : List Text) :
    tree.walk l (s :: rest) =
      if tree.lookup l ≠ some .directory then .error .notDirectory
      else if Path.isTrivial s then tree.walk l rest
      else if s = ['.', '.'] then tree.walk l.dropLast rest
      else if (tree.lookup (l ++ [s])).isSome then tree.walk (l ++ [s]) rest
      else .error .notFound := rfl

/-- The names of an entry lead to it. -/
theorem IsProper.walk_names (ht : tree.IsProper) (names : List Text)
    (h : (tree.lookup (l ++ names)).isSome = true) : tree.walk l names = .ok (l ++ names) := by
  induction names generalizing l with
  | nil => simp [walk]
  | cons n names ih =>
    have hn : Path.IsName n := ht.names h n (by simp)
    have hd := ht.lookup_above (n :: names) (by simp) h
    have hh : (tree.lookup ((l ++ [n]) ++ names)).isSome = true := by simpa using h
    have hs : (tree.lookup (l ++ [n])).isSome = true := by
      cases names with
      | nil => simpa using hh
      | cons m names => simp [ht.lookup_above (m :: names) (by simp) hh]
    have hi := ih hh
    have htriv : Path.isTrivial n = false := by simp [Path.isTrivial, hn.ne_nil, hn.ne_current]
    rw [walk_cons, if_neg (by simp [hd]), if_neg (by simp [htriv]), if_neg hn.ne_parent,
      if_pos hs, hi]
    simp

/-- The path of an entry leads to it. -/
theorem IsProper.locate_pathOf (ht : tree.IsProper) (h : (tree.lookup l).isSome = true) :
    tree.locate (pathOf l) = .ok l := by
  have hl : tree.locate (pathOf l) = tree.walk [] (Text.splitOn '/' (Text.joinWith '/' l)) := rfl
  rw [hl]
  by_cases hne : l = []
  · subst hne
    rfl
  · rw [Text.splitOn_joinWith hne fun n hn => (ht.names h n hn).no_slash]
    exact ht.walk_names l h

/-- A walk ends at an entry. -/
theorem IsProper.isSome_of_walk (ht : tree.IsProper) {segments : List Text} {l' : Location}
    (hl : (tree.lookup l).isSome = true) (h : tree.walk l segments = .ok l') :
    (tree.lookup l').isSome = true := by
  induction segments generalizing l with
  | nil =>
    obtain rfl : l = l' := by simpa [walk] using h
    exact hl
  | cons s rest ih =>
    rw [walk_cons] at h
    split_ifs at h with hd htriv hup hs
    · exact ih hl h
    · refine ih ?_ h
      by_cases hne : l = []
      · simp [hne]
      · simp [ht.parent hne hl]
    · exact ih hs h

theorem IsProper.isSome_of_locate (ht : tree.IsProper) {p : Path} (h : tree.locate p = .ok l) :
    (tree.lookup l).isSome = true := by
  unfold locate at h
  split at h
  · exact ht.isSome_of_walk (by simp) h
  · simp at h

/-- The path of an entry is its canonical path. -/
theorem IsProper.locate_canonical (ht : tree.IsProper) {p q : Path}
    (h : tree.canonical? p = some q) :
    ∃ l, (tree.lookup l).isSome = true ∧ tree.locate p = .ok l ∧ q = pathOf l := by
  unfold canonical? at h
  split at h
  · rename_i l hl
    exact ⟨l, ht.isSome_of_locate hl, hl, (Option.some.inj h).symm⟩
  · simp at h

theorem components_pathOf (hl : ∀ n ∈ l, Path.IsName n) :
    (pathOf l).components = .root :: l.map .normal := by
  by_cases hne : l = []
  · subst hne
    rfl
  · have hs : Text.splitOn '/' (Text.joinWith '/' l) = l :=
      Text.splitOn_joinWith hne fun n hn => (hl n hn).no_slash
    have hf : l.filterMap Path.Component.ofSegment? = l.map .normal := by
      rw [← List.filterMap_eq_map]
      exact List.filterMap_congr fun n hn => (hl n hn).ofSegment?
    simp only [Path.components, pathOf, hs, hf]

/-- One name further down from a location. -/
theorem join_pathOf (hl : ∀ n ∈ l, Path.IsName n) {n : Text} (hn : Path.IsName n) :
    (pathOf l).join ⟨n⟩ = pathOf (l ++ [n]) := by
  unfold Path.join
  rw [if_neg (by simp [hn.relative])]
  by_cases hne : l = []
  · subst hne
    rfl
  · have hlast : (pathOf l).text.getLast? ≠ some '/' := by
      obtain ⟨ms, m, rfl⟩ := List.eq_nil_or_concat l |>.resolve_left hne
      have hm : Path.IsName m := hl m (by simp)
      obtain ⟨t, -, ht⟩ := Text.exists_joinWith_concat '/' ms
      intro he
      have hmem : '/' ∈ m := by
        obtain ⟨v, c, rfl⟩ := (List.eq_nil_or_concat m).resolve_left hm.ne_nil
        have hp : (pathOf (ms ++ [v ++ [c]])).text = ('/' :: (t ++ v)) ++ [c] := by
          simp [pathOf, ht]
        rw [List.concat_eq_append, List.concat_eq_append, hp, List.getLast?_concat] at he
        simp [Option.some.inj he]
      exact hm.no_slash hmem
    have htext : (pathOf l).text ≠ [] := by simp [pathOf]
    rw [if_neg (by simp [htext, hlast])]
    simp [pathOf, Text.joinWith_concat hne]

theorem foldl_join_pathOf (hl : ∀ n ∈ l, Path.IsName n) {names : List Text}
    (hn : ∀ n ∈ names, Path.IsName n) :
    names.foldl (fun p name => p.join ⟨name⟩) (pathOf l) = pathOf (l ++ names) := by
  induction names generalizing l with
  | nil => simp
  | cons n names ih =>
    have hcons : ∀ m ∈ l ++ [n], Path.IsName m := by
      intro m hm
      rcases List.mem_append.mp hm with hm | hm
      · exact hl m hm
      · exact List.mem_singleton.mp hm ▸ hn n (by simp)
    have hi := ih hcons fun m hm => hn m (by simp [hm])
    rw [List.foldl_cons, join_pathOf hl (hn n (by simp)), hi]
    simp

/-! Writing -/

theorem lookup_cons_of_ne {k : Location} (h : l ≠ k) (e : Entry)
    (entries : List (Location × Entry)) : ((k, e) :: entries).lookup l = entries.lookup l := by
  simp [List.lookup_cons, beq_eq_false_iff_ne.mpr h]

theorem lookup_setEntry (l k : Location) (e : Entry) (entries : List (Location × Entry)) :
    (setEntry l e entries).lookup k = if k = l then some e else entries.lookup k := by
  induction entries with
  | nil =>
    by_cases h : k = l
    · simp [setEntry, h]
    · simp [setEntry, lookup_cons_of_ne h, h]
  | cons p entries ih =>
    obtain ⟨m, old⟩ := p
    by_cases hm : m = l
    · by_cases hk : k = l
      · simp [setEntry, hm, hk]
      · simp [setEntry, hm, hk, lookup_cons_of_ne hk]
    · by_cases hk : k = m
      · simp [setEntry, hm, hk]
      · simp [setEntry, hm, lookup_cons_of_ne hk, ih]

theorem lookup_put (tree : FileTree) (hl : l ≠ []) (e : Entry) (k : Location) :
    (tree.put l e).lookup k = if k = l then some e else tree.lookup k := by
  by_cases hk : k = []
  · subst hk
    simp [Ne.symm hl]
  · rw [lookup_of_ne_nil hk, lookup_of_ne_nil hk]
    exact lookup_setEntry l k e tree.entries

/-- The second entry is the first, or both are texts. -/
def Refilled (a b : Entry) : Prop := a = b ∨ ∃ t u, a = .file (.text t) ∧ b = .file (.text u)

/-- The second tree is the first with other texts in files at locations with a property. -/
def Rewritten (P : Location → Prop) (a b : FileTree) : Prop :=
  List.Forall₂ (fun x y => x.1 = y.1 ∧ (x.2 = y.2 ∨ P x.1 ∧ Refilled x.2 y.2)) a.entries b.entries

variable {P : Location → Prop} {a b c : FileTree}

theorem Rewritten.refl (P : Location → Prop) (a : FileTree) : Rewritten P a a :=
  List.forall₂_same.mpr fun _ _ => ⟨rfl, .inl rfl⟩

theorem Refilled.trans {x y z : Entry} (h : Refilled x y) (h' : Refilled y z) : Refilled x z := by
  rcases h with rfl | ⟨t, u, rfl, rfl⟩
  · exact h'
  · rcases h' with rfl | ⟨t', u', he, rfl⟩
    · exact .inr ⟨t, u, rfl, rfl⟩
    · exact .inr ⟨t, u', rfl, rfl⟩

theorem Rewritten.trans (h : Rewritten P a b) (h' : Rewritten P b c) : Rewritten P a c := by
  obtain ⟨a⟩ := a
  obtain ⟨b⟩ := b
  obtain ⟨c⟩ := c
  simp only [Rewritten] at h h' ⊢
  induction h generalizing c with
  | nil =>
    cases h'
    exact .nil
  | @cons x y xs ys hxy _ ih =>
    cases h' with
    | @cons _ z _ zs hyz hrest =>
      refine .cons ⟨hxy.1.trans hyz.1, ?_⟩ (ih zs hrest)
      rcases hxy.2 with he | ⟨hP, hr⟩
      · rcases hyz.2 with he' | ⟨hP', hr'⟩
        · exact .inl (he.trans he')
        · exact .inr ⟨hxy.1 ▸ hP', he ▸ hr'⟩
      · rcases hyz.2 with he' | ⟨-, hr'⟩
        · exact .inr ⟨hP, he' ▸ hr⟩
        · exact .inr ⟨hP, hr.trans hr'⟩

theorem Rewritten.mono {Q : Location → Prop} (h : Rewritten P a b) (hPQ : ∀ l, P l → Q l) :
    Rewritten Q a b :=
  List.Forall₂.imp (fun _ _ hxy => ⟨hxy.1, hxy.2.imp_right fun ⟨hP, hr⟩ => ⟨hPQ _ hP, hr⟩⟩) h

theorem Rewritten.keys (h : Rewritten P a b) : a.entries.map Prod.fst = b.entries.map Prod.fst := by
  obtain ⟨a⟩ := a
  obtain ⟨b⟩ := b
  simp only [Rewritten] at h
  induction h with
  | nil => rfl
  | cons hxy _ ih => simp [hxy.1, ih]

/-- What is found at a location in both trees. -/
theorem Rewritten.lookup (h : Rewritten P a b) (l : Location) :
    a.lookup l = b.lookup l ∨ P l ∧ ∃ x y, a.lookup l = some x ∧ b.lookup l = some y ∧
      Refilled x y := by
  by_cases hl : l = []
  · exact .inl (by simp [hl])
  rw [lookup_of_ne_nil hl, lookup_of_ne_nil hl]
  obtain ⟨a⟩ := a
  obtain ⟨b⟩ := b
  simp only [Rewritten] at h ⊢
  induction h with
  | nil => exact .inl rfl
  | @cons x y xs ys hxy _ ih =>
    obtain ⟨k, e⟩ := x
    obtain ⟨k', e'⟩ := y
    obtain ⟨rfl, hxy⟩ : k = k' ∧ _ := hxy
    by_cases hk : l = k
    · subst hk
      rcases hxy with rfl | ⟨hP, hr⟩
      · exact .inl (by simp)
      · exact .inr ⟨hP, e, e', by simp, by simp, hr⟩
    · rw [lookup_cons_of_ne hk, lookup_cons_of_ne hk]
      exact ih

theorem Rewritten.isDirectory_iff (h : Rewritten P a b) (l : Location) :
    a.lookup l = some .directory ↔ b.lookup l = some .directory := by
  rcases h.lookup l with he | ⟨-, x, y, hx, hy, hr⟩
  · rw [he]
  · rcases hr with rfl | ⟨t, u, rfl, rfl⟩
    · rw [hx, hy]
    · simp [hx, hy]

theorem Rewritten.isSome_eq (h : Rewritten P a b) (l : Location) :
    (a.lookup l).isSome = (b.lookup l).isSome := by
  rcases h.lookup l with he | ⟨-, x, y, hx, hy, -⟩
  · rw [he]
  · rw [hx, hy]
    rfl

theorem Rewritten.isProper (h : Rewritten P a b) (ha : a.IsProper) : b.IsProper := by
  have hmem : ∀ p ∈ b.entries, ∃ q ∈ a.entries, q.1 = p.1 := by
    intro p hp
    have hk : p.1 ∈ a.entries.map Prod.fst := by
      rw [h.keys]
      exact List.mem_map_of_mem hp
    obtain ⟨q, hq, he⟩ := List.mem_map.mp hk
    exact ⟨q, hq, he⟩
  refine ⟨h.keys ▸ ha.nodup, fun p hp => ?_, fun p hp => ?_⟩
  · obtain ⟨q, hq, he⟩ := hmem p hp
    exact he ▸ ha.named q hq
  · obtain ⟨q, hq, he⟩ := hmem p hp
    exact he ▸ (h.isDirectory_iff _).mp (ha.inside q hq)

theorem Rewritten.walk_eq (h : Rewritten P a b) (l : Location) (segments : List Text) :
    a.walk l segments = b.walk l segments := by
  induction segments generalizing l with
  | nil => rfl
  | cons s rest ih =>
    have hd : (a.lookup l ≠ some .directory) = (b.lookup l ≠ some .directory) := by
      rw [ne_eq, ne_eq, h.isDirectory_iff l]
    simp only [walk_cons, hd, h.isSome_eq, ih]

theorem Rewritten.locate_eq (h : Rewritten P a b) (p : Path) : a.locate p = b.locate p := by
  unfold locate
  split
  · exact h.walk_eq [] _
  · rfl

theorem rewritten_put (hl : l ≠ []) {t : Text} (h : tree.lookup l = some (.file (.text t)))
    (hP : P l) (u : Text) : Rewritten P tree (tree.put l (.file (.text u))) := by
  rw [lookup_of_ne_nil hl] at h
  obtain ⟨entries⟩ := tree
  simp only [Rewritten, put] at h ⊢
  induction entries with
  | nil => simp at h
  | cons p entries ih =>
    obtain ⟨k, e⟩ := p
    by_cases hk : k = l
    · subst hk
      obtain rfl : e = .file (.text t) := by simpa [List.lookup_cons] using h
      rw [setEntry, if_pos rfl]
      exact .cons ⟨rfl, .inr ⟨hP, .inr ⟨t, u, rfl, rfl⟩⟩⟩
        (List.forall₂_same.mpr fun _ _ => ⟨rfl, .inl rfl⟩)
    · rw [setEntry, if_neg hk]
      refine .cons ⟨rfl, .inl rfl⟩ (ih ?_)
      rwa [lookup_cons_of_ne (Ne.symm hk)] at h

end FileTree

end ImportAlias
