import ImportAlias.Path
import ImportAlias.Proofs.Text
import Mathlib.Data.List.Basic
import Mathlib.Data.List.Induction
import Mathlib.Tactic.SplitIfs

/-! The normal form of lexical paths, and what joining and going relative to a base do to it. -/
namespace ImportAlias.Path
open Text (splitOn joinWith)

/-- A text that names an entry of a directory. -/
structure IsName (n : Text) : Prop where
  ne_nil : n ≠ []
  no_slash : '/' ∉ n
  ne_current : n ≠ ['.']
  ne_parent : n ≠ ['.', '.']

instance (n : Text) : Decidable (IsName n) :=
  decidable_of_iff (n ≠ [] ∧ '/' ∉ n ∧ n ≠ ['.'] ∧ n ≠ ['.', '.'])
    ⟨fun ⟨a, b, c, d⟩ => ⟨a, b, c, d⟩, fun ⟨a, b, c, d⟩ => ⟨a, b, c, d⟩⟩

/-- The components that normalisation looks at; a leading `.` is not among them. -/
def steps (p : Path) : List Component :=
  (if p.isAbsolute then [.root] else []) ++ (splitOn '/' p.text).filterMap Component.ofSegment?

/-- A component that can stand after the first one. -/
inductive Stands : Component → Prop where
  | parent : Stands .parent
  | normal {n : Text} (h : IsName n) : Stands (.normal n)

/-- Components in normal form: names below the root, or below a row of parents. -/
inductive NormalForm : List Component → Prop where
  | absolute {names : List Text} (h : ∀ n ∈ names, IsName n) :
      NormalForm (.root :: names.map .normal)
  | relative (k : Nat) {names : List Text} (h : ∀ n ∈ names, IsName n) :
      NormalForm (List.replicate k .parent ++ names.map .normal)

theorem isName_of_length {n : Text} (hn : '/' ∉ n) (h : 2 < n.length) : IsName n := by
  refine ⟨?_, hn, ?_, ?_⟩ <;> rintro rfl <;> simp at h

theorem IsName.segment {n : Text} (h : IsName n) : n ≠ [] ∧ '/' ∉ n := ⟨h.ne_nil, h.no_slash⟩

theorem IsName.head? {n : Text} (h : IsName n) : n.head? ≠ some '/' := by
  intro hn
  exact h.no_slash (List.mem_of_mem_head? hn)

theorem IsName.relative {n : Text} (h : IsName n) : (Path.mk n).isAbsolute = false := by
  simpa [isAbsolute] using h.head?

theorem IsName.ofSegment? {n : Text} (h : IsName n) :
    Component.ofSegment? n = some (.normal n) := by
  simp [Component.ofSegment?, h.ne_nil, h.ne_current, h.ne_parent]

theorem stands_of_ofSegment? {s : Text} {c : Component} (hs : '/' ∉ s)
    (h : Component.ofSegment? s = some c) : Stands c := by
  unfold Component.ofSegment? at h
  split_ifs at h with h₁ h₂
  · cases h
    exact .parent
  · cases h
    obtain ⟨hn, hc⟩ := not_or.mp h₁
    exact .normal ⟨hn, hs, hc, h₂⟩

theorem Stands.steps {c : Component} (h : Stands c) : (Path.mk c.text).steps = [c] := by
  cases h with
  | parent => decide
  | normal h =>
    have hs := Text.splitOn_of_not_mem h.no_slash
    simp [Path.steps, Component.text, h.relative, hs, h.ofSegment?]

theorem Stands.relative {c : Component} (h : Stands c) : (Path.mk c.text).isAbsolute = false := by
  cases h with
  | parent => decide
  | normal h => exact h.relative

theorem Stands.text {c : Component} (h : Stands c) : c.text ≠ [] ∧ '/' ∉ c.text := by
  cases h with
  | parent => decide
  | normal h => exact h.segment

theorem stands_of_mem_segments {t : Text} {c : Component}
    (h : c ∈ (splitOn '/' t).filterMap Component.ofSegment?) : Stands c := by
  obtain ⟨s, hs, hc⟩ := List.mem_filterMap.mp h
  exact stands_of_ofSegment? (Text.not_mem_of_mem_splitOn hs) hc

theorem components_eq_or (p : Path) :
    p.components = p.steps ∨
      (splitOn '/' p.text).head? = some ['.'] ∧ p.components = .current :: p.steps := by
  obtain ⟨t⟩ := p
  unfold components
  split
  · rename_i rest ht
    obtain rfl : t = '/' :: rest := ht
    left
    simp [steps, isAbsolute, splitOn, Component.ofSegment?]
  · rename_i hne
    have ha : (Path.mk t).isAbsolute = false := by
      cases t with
      | nil => rfl
      | cons c t =>
        have hc : c ≠ '/' := fun hc => hne t (by rw [hc])
        simpa [isAbsolute] using hc
    split
    · rename_i rest hs
      right
      simp [steps, ha, hs, Component.ofSegment?]
    · left
      simp [steps, ha]

theorem components_of_head? {p : Path} (h : (splitOn '/' p.text).head? ≠ some ['.']) :
    p.components = p.steps := by
  rcases components_eq_or p with hp | ⟨hp, -⟩
  · exact hp
  · exact absurd hp h

theorem normalComponents_eq (p : Path) :
    p.normalComponents = (p.steps.foldl collapse []).reverse := by
  unfold normalComponents
  rcases components_eq_or p with h | ⟨-, h⟩ <;> rw [h]
  rfl

theorem isAbsolute_join {p q : Path} (hq : q.isAbsolute = false) :
    (p.join q).isAbsolute = p.isAbsolute := by
  obtain ⟨s⟩ := p
  cases s with
  | nil => simpa [join, hq, isAbsolute] using hq
  | cons c s =>
    unfold join
    rw [if_neg (by simp [hq])]
    split_ifs <;> rfl

theorem steps_join {p q : Path} (hq : q.isAbsolute = false) :
    (p.join q).steps = p.steps ++ q.steps := by
  have ha := isAbsolute_join (p := p) hq
  obtain ⟨s⟩ := p
  obtain ⟨t⟩ := q
  suffices hs : (splitOn '/' ((Path.mk s).join ⟨t⟩).text).filterMap Component.ofSegment? =
      (splitOn '/' s).filterMap Component.ofSegment? ++
        (splitOn '/' t).filterMap Component.ofSegment? by
    simp [steps, ha, hq, hs]
  unfold join
  rw [if_neg (by simp [hq])]
  split_ifs with hc
  · rcases hc with rfl | hc
    · simp [splitOn, Component.ofSegment?]
    · obtain ⟨u, rfl⟩ := List.getLast?_eq_some_iff.mp hc
      have hu := Text.splitOn_append '/' u t
      have he := Text.splitOn_append '/' u []
      simp [hu, he, splitOn, Component.ofSegment?]
  · rw [Text.splitOn_append, List.filterMap_append]

theorem normalComponents_join {p q : Path} (hq : q.isAbsolute = false) :
    (p.join q).normalComponents = (q.steps.foldl collapse p.normalComponents.reverse).reverse := by
  rw [normalComponents_eq, steps_join hq, List.foldl_append, normalComponents_eq p,
    List.reverse_reverse]

/-- Normalisation keeps nothing but what it reads. -/
theorem mem_collapse {done : List Component} {c d : Component} (h : d ∈ collapse done c) :
    d ∈ done ∨ d = c := by
  unfold collapse at h
  split at h
  · exact .inl (List.mem_cons_of_mem _ h)
  · exact .inl h
  · exact .inl h
  · exact (List.mem_cons.mp h).symm

theorem mem_foldl_collapse {done cs : List Component} {d : Component}
    (h : d ∈ cs.foldl collapse done) : d ∈ done ∨ d ∈ cs := by
  induction cs generalizing done with
  | nil => exact .inl h
  | cons c cs ih =>
    rcases ih h with h | h
    · exact (mem_collapse h).imp_right fun hc => by simp [hc]
    · exact .inr (List.mem_cons_of_mem _ h)

theorem foldl_collapse_normal (done : List Component) (names : List Text) :
    (names.map Component.normal).foldl collapse done =
      (names.map Component.normal).reverse ++ done := by
  induction names generalizing done with
  | nil => rfl
  | cons n names ih =>
    have hc : collapse done (.normal n) = .normal n :: done := by
      unfold collapse
      split <;> simp_all
    simp [hc, ih]

private theorem foldl_collapse_parent (j k : Nat) :
    (List.replicate k Component.parent).foldl collapse (List.replicate j .parent) =
      List.replicate (k + j) .parent := by
  induction k generalizing j with
  | zero => simp
  | succ k ih =>
    have hc : collapse (List.replicate j .parent) .parent = List.replicate (j + 1) .parent := by
      cases j <;> rfl
    rw [List.replicate_succ, List.foldl_cons, hc, ih]
    congr 1
    omega

theorem NormalForm.foldl_collapse {cs : List Component} (h : NormalForm cs) :
    cs.foldl collapse [] = cs.reverse := by
  cases h with
  | absolute h =>
    rw [List.foldl_cons, foldl_collapse_normal, List.reverse_cons]
    rfl
  | relative k h =>
    have hk := foldl_collapse_parent 0 k
    rw [List.replicate_zero, Nat.add_zero] at hk
    rw [List.foldl_append, hk, foldl_collapse_normal]
    simp

theorem NormalForm.concat {cs : List Component} (h : NormalForm cs) {n : Text} (hn : IsName n) :
    NormalForm (cs ++ [.normal n]) := by
  cases h with
  | absolute h =>
    have hs := NormalForm.absolute
      (List.forall_mem_append.mpr ⟨h, List.forall_mem_singleton.mpr hn⟩)
    simpa using hs
  | relative k h =>
    have hs := NormalForm.relative k
      (List.forall_mem_append.mpr ⟨h, List.forall_mem_singleton.mpr hn⟩)
    simpa using hs

private theorem NormalForm.climb {done : List Component} (h : NormalForm done.reverse) :
    NormalForm (collapse done .parent).reverse := by
  generalize hr : done.reverse = cs at h
  obtain rfl : done = cs.reverse := by rw [← hr, List.reverse_reverse]
  cases h with
  | @absolute names h =>
    cases names using List.reverseRecOn with
    | nil => exact @NormalForm.absolute [] (by simp)
    | append_singleton names n =>
      have hs := NormalForm.absolute (fun m hm => h m (List.mem_append_left _ hm))
      simpa [collapse] using hs
  | @relative k names h =>
    cases names using List.reverseRecOn with
    | nil =>
      have hs := @NormalForm.relative (k + 1) [] (by simp)
      cases k with
      | zero => exact hs
      | succ k => simpa [List.replicate_succ', collapse] using hs
    | append_singleton names n =>
      have hs := NormalForm.relative k (fun m hm => h m (List.mem_append_left _ hm))
      simpa [collapse] using hs

private theorem NormalForm.collapse {done : List Component} (h : NormalForm done.reverse)
    {c : Component} (hc : Stands c) : NormalForm (collapse done c).reverse := by
  cases hc with
  | parent => exact h.climb
  | @normal n hn =>
    have hs := foldl_collapse_normal done [n]
    simp only [List.map_cons, List.map_nil, List.foldl_cons, List.foldl_nil] at hs
    rw [hs]
    simpa using h.concat hn

private theorem NormalForm.run {done : List Component} (h : NormalForm done.reverse)
    {cs : List Component} (hcs : ∀ c ∈ cs, Stands c) :
    NormalForm (cs.foldl Path.collapse done).reverse := by
  induction cs generalizing done with
  | nil => exact h
  | cons c cs ih =>
    obtain ⟨hc, hcs⟩ := List.forall_mem_cons.mp hcs
    exact ih (h.collapse hc) hcs

theorem normalComponents_normalForm (p : Path) : NormalForm p.normalComponents := by
  rw [normalComponents_eq, steps, List.foldl_append]
  refine NormalForm.run ?_ fun c hc => stands_of_mem_segments hc
  split_ifs
  · exact @NormalForm.absolute [] (by simp)
  · exact @NormalForm.relative 0 [] (by simp)

/-- The root is never climbed over. -/
private theorem root_suffix_collapse {done : List Component} (h : [.root] <:+ done)
    (c : Component) : [.root] <:+ Path.collapse done c := by
  unfold Path.collapse
  split
  · exact (List.suffix_cons_iff.mp h).resolve_left (by simp)
  · exact h
  · exact h
  · exact h.trans (List.suffix_cons _ _)

private theorem root_suffix_foldl {done : List Component} (h : [.root] <:+ done)
    (cs : List Component) : [.root] <:+ cs.foldl Path.collapse done := by
  induction cs generalizing done with
  | nil => exact h
  | cons c cs ih => exact ih (root_suffix_collapse h c)

theorem exists_names {p : Path} (h : p.isAbsolute = true) :
    ∃ names : List Text, (∀ n ∈ names, IsName n) ∧
      p.normalComponents = .root :: names.map .normal := by
  have hroot : [.root] <+: p.normalComponents := by
    rw [normalComponents_eq, ← List.reverse_suffix, List.reverse_reverse, steps, if_pos h]
    exact root_suffix_foldl List.suffix_rfl _
  have hf := normalComponents_normalForm p
  generalize p.normalComponents = cs at hroot hf
  cases hf with
  | @absolute names h => exact ⟨names, h, rfl⟩
  | relative k h => simpa using hroot.subset (List.mem_singleton_self _)

private theorem forall_stands_map {names : List Text} (h : ∀ n ∈ names, IsName n) :
    ∀ c ∈ names.map Component.normal, Stands c := by
  intro c hc
  obtain ⟨n, hn, rfl⟩ := List.mem_map.mp hc
  exact .normal (h n hn)

theorem forall_stands_relative (k : Nat) {names : List Text} (h : ∀ n ∈ names, IsName n) :
    ∀ c ∈ List.replicate k Component.parent ++ names.map .normal, Stands c :=
  List.forall_mem_append.mpr
    ⟨fun _ hc => List.eq_of_mem_replicate hc ▸ .parent, forall_stands_map h⟩

theorem NormalForm.stands {cs : List Component} (h : NormalForm cs) :
    ∀ c ∈ cs, c = .root ∨ Stands c := by
  intro c hc
  cases h with
  | absolute h =>
    rcases List.mem_cons.mp hc with rfl | hc
    · exact .inl rfl
    · exact .inr (forall_stands_map h c hc)
  | relative k h => exact .inr (forall_stands_relative k h c hc)

theorem isName_of_mem {p : Path} {n : Text} (h : .normal n ∈ p.normalComponents) : IsName n := by
  rcases (normalComponents_normalForm p).stands _ h with h | h
  · cases h
  · cases h with
    | normal h => exact h

private theorem foldl_join_steps (p : Path) {cs : List Component} (h : ∀ c ∈ cs, Stands c) :
    (cs.foldl (fun p c => p.join ⟨c.text⟩) p).steps = p.steps ++ cs ∧
      (cs.foldl (fun p c => p.join ⟨c.text⟩) p).isAbsolute = p.isAbsolute := by
  induction cs generalizing p with
  | nil => simp
  | cons c cs ih =>
    obtain ⟨hc, hcs⟩ := List.forall_mem_cons.mp h
    obtain ⟨hs, ha⟩ := ih (p.join ⟨c.text⟩) hcs
    rw [steps_join hc.relative, hc.steps, List.append_assoc] at hs
    rw [isAbsolute_join hc.relative] at ha
    exact ⟨hs, ha⟩

theorem ofComponents_concat (cs : List Component) (c : Component) :
    ofComponents (cs ++ [c]) = (ofComponents cs).join ⟨c.text⟩ := by
  simp [ofComponents]

theorem text_ofComponents {cs : List Component} (h : ∀ c ∈ cs, Stands c) :
    (ofComponents cs).text = joinWith '/' (cs.map Component.text) := by
  induction cs using List.reverseRecOn with
  | nil => rfl
  | append_singleton cs c ih =>
    obtain ⟨hcs, hc⟩ := List.forall_mem_append.mp h
    have hr := (hc c (by simp)).relative
    have ht := ih hcs
    rw [ofComponents_concat, List.map_append, List.map_singleton]
    cases cs using List.reverseRecOn with
    | nil => simp [ofComponents, join, hr, joinWith]
    | append_singleton cs d =>
      obtain ⟨hne, hd⟩ := (hcs d (by simp)).text
      have hp : (cs ++ [d]).map Component.text ≠ [] := by simp
      have hl : (ofComponents (cs ++ [d])).text.getLast? = d.text.getLast? := by
        obtain ⟨t, -, hj⟩ := Text.exists_joinWith_concat '/' (cs.map Component.text)
        rw [ht, List.map_append, List.map_singleton, hj, List.getLast?_append_of_ne_nil _ hne]
      have hsep : ¬((ofComponents (cs ++ [d])).text = [] ∨
          (ofComponents (cs ++ [d])).text.getLast? = some '/') := by
        rintro (he | he)
        · rw [he] at hl
          exact hne (List.getLast?_eq_none_iff.mp hl.symm)
        · rw [hl] at he
          exact hd (List.mem_of_getLast? he)
      rw [Text.joinWith_concat hp, ← ht, join, if_neg (by simp [hr]), if_neg hsep]

theorem NormalForm.steps_ofComponents {cs : List Component} (h : NormalForm cs) :
    (ofComponents cs).steps = cs := by
  cases h with
  | absolute h => exact (foldl_join_steps ⟨['/']⟩ (forall_stands_map h)).1
  | relative k h => exact (foldl_join_steps ⟨[]⟩ (forall_stands_relative k h)).1

theorem isAbsolute_ofComponents {names : List Text} (h : ∀ n ∈ names, IsName n) :
    (ofComponents (.root :: names.map .normal)).isAbsolute = true :=
  (foldl_join_steps ⟨['/']⟩ (forall_stands_map h)).2

theorem isAbsolute_ofComponents_relative (k : Nat) {names : List Text} (h : ∀ n ∈ names, IsName n) :
    (ofComponents (List.replicate k .parent ++ names.map .normal)).isAbsolute = false :=
  (foldl_join_steps ⟨[]⟩ (forall_stands_relative k h)).2

theorem NormalForm.components_ofComponents {cs : List Component} (h : NormalForm cs) :
    (ofComponents cs).components = cs := by
  have hs := h.steps_ofComponents
  refine (components_of_head? ?_).trans hs
  cases h with
  | @absolute names h =>
    obtain ⟨t, ht⟩ := List.head?_eq_some_iff.mp (beq_iff_eq.mp (isAbsolute_ofComponents h))
    simp [ht, splitOn]
  | @relative k names h =>
    have hcs := forall_stands_relative k h
    rw [text_ofComponents hcs]
    cases hl : List.replicate k Component.parent ++ names.map .normal with
    | nil => decide
    | cons c cs =>
      rw [hl] at hcs
      have hp : ∀ s ∈ (c :: cs).map Component.text, '/' ∉ s := by
        intro s hs
        obtain ⟨d, hd, rfl⟩ := List.mem_map.mp hs
        exact (hcs d hd).text.2
      rw [Text.splitOn_joinWith (by simp) hp]
      have hc := hcs c (by simp)
      cases hc with
      | parent => simp [Component.text]
      | normal hn => simpa [Component.text] using hn.ne_current

theorem normalComponents_ofComponents {cs : List Component} (h : NormalForm cs) :
    (ofComponents cs).normalComponents = cs := by
  rw [normalComponents_eq, h.steps_ofComponents, h.foldl_collapse, List.reverse_reverse]

@[simp] theorem normalComponents_normalize (p : Path) :
    p.normalize.normalComponents = p.normalComponents :=
  normalComponents_ofComponents (normalComponents_normalForm p)

@[simp] theorem components_normalize (p : Path) : p.normalize.components = p.normalComponents :=
  (normalComponents_normalForm p).components_ofComponents

theorem normalize_eq_iff {p q : Path} :
    p.normalize = q.normalize ↔ p.normalComponents = q.normalComponents := by
  constructor
  · intro h
    rw [← normalComponents_normalize, h, normalComponents_normalize]
  · intro h
    rw [normalize, h, normalize]

@[simp] theorem normalize_normalize (p : Path) : p.normalize.normalize = p.normalize := by
  rw [normalize_eq_iff, normalComponents_normalize]

@[simp] theorem relativeTo_normalize (p base : Path) :
    p.normalize.relativeTo base = p.relativeTo base := by
  rw [relativeTo, relativeTo, normalize_normalize]

theorem slashed_append (s t : Text) :
    (Path.mk (s ++ t)).slashed = (Path.mk s).slashed ++ (Path.mk t).slashed := by
  simp [slashed]

@[simp] theorem length_slashed (p : Path) : p.slashed.length = p.text.length := by
  simp [slashed]

theorem not_mem_slashed (p : Path) : '\\' ∉ p.slashed := by
  intro h
  obtain ⟨c, -, hc⟩ := List.mem_map.mp h
  split_ifs at hc with hb
  · exact absurd hc (by decide)
  · exact hb hc

theorem getLast?_slashed (p : Path) : p.slashed.getLast? = some '/' ↔
    p.text.getLast? = some '/' ∨ p.text.getLast? = some '\\' := by
  rw [slashed, List.getLast?_map, Option.map_eq_some_iff]
  constructor
  · rintro ⟨c, hc, hs⟩
    split_ifs at hs with hb
    · exact .inr (hb ▸ hc)
    · exact .inl (hs ▸ hc)
  · rintro (h | h)
    · exact ⟨_, h, rfl⟩
    · exact ⟨_, h, rfl⟩

theorem slashed_of_not_mem {p : Path} (h : '\\' ∉ p.text) : p.slashed = p.text := by
  have hid : ∀ c ∈ p.text, (if c = '\\' then '/' else c) = c := fun c hc =>
    if_neg (by rintro rfl; exact h hc)
  rw [slashed, List.map_congr_left hid, List.map_id']

theorem isAbsolute_normalize {p : Path} (h : p.isAbsolute = true) :
    p.normalize.isAbsolute = true := by
  obtain ⟨names, hnames, hn⟩ := exists_names h
  rw [normalize, hn]
  exact isAbsolute_ofComponents hnames

theorem dropCommon_append (cs ds : List Component) : dropCommon (cs ++ ds) cs = (ds, []) := by
  induction cs with
  | nil => cases ds <;> rfl
  | cons c cs ih => simp [dropCommon, ih]

theorem relative_joinWith {names : List Text} (hne : names ≠ [])
    (h : ∀ n ∈ names, n ≠ [] ∧ '/' ∉ n) :
    joinWith '/' names ≠ [] ∧ (Path.mk (joinWith '/' names)).isAbsolute = false := by
  obtain ⟨n, ns, rfl⟩ := List.exists_cons_of_ne_nil hne
  obtain ⟨hne, hn⟩ := h n (by simp)
  obtain ⟨c, n, rfl⟩ := List.exists_cons_of_ne_nil hne
  have hc : c ≠ '/' := fun h => hn (by simp [h])
  rw [Text.joinWith_cons]
  simpa [Path.isAbsolute] using hc

/-- A row of parents and the names below it, written out. -/
theorem text_ofComponents_relative (k : Nat) {names : List Text} (h : ∀ n ∈ names, IsName n) :
    (ofComponents (List.replicate k .parent ++ names.map .normal)).text =
      joinWith '/' (List.replicate k ['.', '.'] ++ names) := by
  have ht := text_ofComponents (forall_stands_relative k h)
  simpa [Function.comp_def, Component.text] using ht

private theorem ofComponents_names {names : List Text} (h : ∀ n ∈ names, IsName n) :
    ofComponents (names.map .normal) = ⟨joinWith '/' names⟩ :=
  congrArg Path.mk (text_ofComponents_relative 0 h)

theorem names_of_below {p base : Path} {names : List Text}
    (h : p.normalComponents = base.normalComponents ++ names.map .normal) :
    ∀ n ∈ names, IsName n := by
  intro n hn
  apply isName_of_mem (p := p)
  rw [h]
  simp [hn]

/-- The way from a base to a path below it goes down by the names in between. -/
theorem relativeTo_below {p base : Path} {names : List Text}
    (h : p.normalComponents = base.normalComponents ++ names.map .normal) :
    p.relativeTo base = ofComponents (names.map .normal) := by
  rw [relativeTo, components_normalize, components_normalize, h, dropCommon_append]
  rfl

/-- Names joined by slashes lead down by these names. -/
theorem normalComponents_join_names (p : Path) {names : List Text} (h : ∀ n ∈ names, IsName n) :
    (p.join ⟨joinWith '/' names⟩).normalComponents =
      p.normalComponents ++ names.map .normal := by
  have hs := foldl_join_steps ⟨[]⟩ (forall_stands_map h)
  change (ofComponents (names.map .normal)).steps = names.map .normal ∧
    (ofComponents (names.map .normal)).isAbsolute = false at hs
  rw [ofComponents_names h] at hs
  rw [normalComponents_join hs.2, hs.1, foldl_collapse_normal]
  simp

theorem join_append_of_relative (p : Path) {s : Text} (hne : s ≠ [])
    (hr : (Path.mk s).isAbsolute = false) (t : Text) :
    (p.join ⟨s ++ t⟩).text = (p.join ⟨s⟩).text ++ t := by
  have ha : (Path.mk (s ++ t)).isAbsolute = false := by
    obtain ⟨c, s, rfl⟩ := List.exists_cons_of_ne_nil hne
    exact hr
  simp only [join, ha, hr, Bool.false_eq_true, if_false]
  split_ifs <;> simp

theorem normalize_join_name {p : Path} (hp : p.normalize = p) {n : Text} (hn : IsName n) :
    (p.join ⟨n⟩).normalize = p.join ⟨n⟩ ∧
      (p.join ⟨n⟩).normalComponents = p.normalComponents ++ [.normal n] := by
  have hj : (p.join ⟨n⟩).normalComponents = p.normalComponents ++ [.normal n] :=
    normalComponents_join_names p (List.forall_mem_singleton.mpr hn)
  refine ⟨?_, hj⟩
  rw [normalize, hj, ofComponents_concat]
  change p.normalize.join ⟨n⟩ = _
  rw [hp]

private theorem join_concat (p : Path) {names : List Text} (hne : names ≠ [])
    (h : ∀ n ∈ names, IsName n) {n : Text} (hn : IsName n) :
    p.join ⟨joinWith '/' (names ++ [n])⟩ = (p.join ⟨joinWith '/' names⟩).join ⟨n⟩ := by
  obtain ⟨hjne, hr⟩ := relative_joinWith hne fun m hm => (h m hm).segment
  obtain ⟨ms, m, rfl⟩ := (List.eq_nil_or_concat' names).resolve_left hne
  have hm := h m (by simp)
  obtain ⟨t, -, hj⟩ := Text.exists_joinWith_concat '/' ms
  obtain ⟨u, hu⟩ : ∃ u, (p.join ⟨joinWith '/' (ms ++ [m])⟩).text = u ++ m := by
    simp only [join, hr, Bool.false_eq_true, if_false]
    rw [hj]
    split_ifs
    · exact ⟨p.text ++ t, by simp⟩
    · exact ⟨p.text ++ '/' :: t, by simp⟩
  have hsep : ¬((p.join ⟨joinWith '/' (ms ++ [m])⟩).text = [] ∨
      (p.join ⟨joinWith '/' (ms ++ [m])⟩).text.getLast? = some '/') := by
    rw [hu]
    rintro (he | he)
    · exact hm.ne_nil (List.append_eq_nil_iff.mp he).2
    · rw [List.getLast?_append_of_ne_nil _ hm.ne_nil] at he
      exact hm.no_slash (List.mem_of_getLast? he)
  rw [join.eq_def (p.join _), if_neg (by simp [hn.relative]), if_neg hsep,
    ← join_append_of_relative p hjne hr, Text.joinWith_concat (by simp)]

/-- Names joined to a path in normal form give a path in normal form. -/
theorem normalize_join_names {p : Path} (hp : p.normalize = p) {names : List Text}
    (hne : names ≠ []) (h : ∀ n ∈ names, IsName n) :
    (p.join ⟨joinWith '/' names⟩).normalize = p.join ⟨joinWith '/' names⟩ := by
  induction names using List.reverseRecOn with
  | nil => exact absurd rfl hne
  | append_singleton names n ih =>
    obtain ⟨hns, hn⟩ := List.forall_mem_append.mp h
    have hn := hn n (by simp)
    by_cases hnil : names = []
    · subst hnil
      exact (normalize_join_name hp hn).1
    · rw [join_concat p hnil hns hn]
      exact (normalize_join_name (ih hnil hns) hn).1

end ImportAlias.Path
