import ImportAlias.Proofs.Path.Normal
import Mathlib.Data.List.Induction
import Mathlib.Tactic.SplitIfs

/-! The longest common ancestor of two absolute paths, and the way between them through it. -/
namespace ImportAlias.Path
open Text (joinWith following)

/-- The deepest directory in normal form that lies above, or is, both of two paths. -/
structure IsMeet (a p q : Path) : Prop where
  normal : a.normalize = a
  left : a.normalComponents <+: p.normalComponents
  right : a.normalComponents <+: q.normalComponents
  deepest : ∀ cs, cs <+: p.normalComponents → cs <+: q.normalComponents → cs <+: a.normalComponents

/-- What `dropCommon` drops is the longest list that both start with. -/
theorem dropCommon_spec (as bs : List Component) :
    ∃ cs, as = cs ++ (dropCommon as bs).1 ∧ bs = cs ++ (dropCommon as bs).2 ∧
      ∀ ds, ds <+: as → ds <+: bs → ds <+: cs := by
  fun_induction dropCommon as bs with
  | case1 as a bs ih =>
    obtain ⟨cs, has, hbs, hmax⟩ := ih
    refine ⟨a :: cs, by rw [List.cons_append, ← has], by rw [List.cons_append, ← hbs], ?_⟩
    rintro (_ | ⟨d, ds⟩) ha hb
    · exact List.nil_prefix
    · obtain ⟨hd, ha⟩ := List.cons_prefix_cons.mp ha
      obtain ⟨-, hb⟩ := List.cons_prefix_cons.mp hb
      exact List.cons_prefix_cons.mpr ⟨hd, hmax ds ha hb⟩
  | case2 a as b bs hne =>
    refine ⟨[], rfl, rfl, ?_⟩
    rintro (_ | ⟨d, ds⟩) ha hb
    · exact List.nil_prefix
    · exact absurd ((List.cons_prefix_cons.mp ha).1.symm.trans (List.cons_prefix_cons.mp hb).1) hne
  | case3 as bs h =>
    refine ⟨[], rfl, rfl, fun ds ha hb => ?_⟩
    rcases as with _ | ⟨a, as⟩
    · exact ha
    · rcases bs with _ | ⟨b, bs⟩
      · exact hb
      · exact (h a as b bs rfl rfl).elim

private theorem prefix_absolute {names : List Text} {cs ds : List Component}
    (h : .root :: names.map .normal = cs ++ ds) (hne : cs ≠ []) :
    ∃ above below : List Text, cs = .root :: above.map .normal ∧ ds = below.map .normal := by
  obtain ⟨c, cs, rfl⟩ := List.exists_cons_of_ne_nil hne
  obtain ⟨rfl, hn⟩ := List.cons.inj h
  obtain ⟨above, below, -, rfl, rfl⟩ := List.map_eq_append_iff.mp hn
  exact ⟨above, below, rfl, rfl⟩

/-- From one absolute path to another, climb to their longest common ancestor and go down from
there. -/
theorem relativeTo_spec {p q : Path} (hp : p.isAbsolute = true) (hq : q.isAbsolute = true) :
    ∃ (a : Path) (down up : List Text), a.IsMeet p q ∧
      p.normalComponents = a.normalComponents ++ down.map .normal ∧
      q.normalComponents = a.normalComponents ++ up.map .normal ∧
      p.relativeTo q = ofComponents
        (List.replicate up.length .parent ++ down.map .normal) := by
  obtain ⟨ps, -, hps⟩ := exists_names hp
  obtain ⟨qs, -, hqs⟩ := exists_names hq
  obtain ⟨cs, hcp, hcq, hmax⟩ := dropCommon_spec p.normalComponents q.normalComponents
  have hroot : [.root] <+: cs := hmax _ (by simp [hps]) (by simp [hqs])
  have hne : cs ≠ [] := by
    rintro rfl
    simp at hroot
  obtain ⟨above, down, habove, hdown⟩ := prefix_absolute (hps.symm.trans hcp) hne
  obtain ⟨-, up, -, hup⟩ := prefix_absolute (hqs.symm.trans hcq) hne
  have hnames : ∀ n ∈ above, IsName n := fun n hn =>
    isName_of_mem (p := p) (by rw [hcp, habove]; simp [hn])
  have ha : (ofComponents cs).normalComponents = cs := by
    rw [habove]
    exact normalComponents_ofComponents (.absolute hnames)
  refine ⟨ofComponents cs, down, up, ⟨by rw [normalize, ha], ?_, ?_, ?_⟩, ?_, ?_, ?_⟩
  · rw [ha, hcp]
    exact List.prefix_append _ _
  · rw [ha, hcq]
    exact List.prefix_append _ _
  · rw [ha]
    exact hmax
  · rw [ha, ← hdown, ← hcp]
  · rw [ha, ← hup, ← hcq]
  · rw [relativeTo, components_normalize, components_normalize]
    simp only [hdown, hup, List.map_map]
    congr 2
    exact List.map_const' ..

/-- As many parents as there are names climb over the names. -/
theorem foldl_collapse_climb (done : List Component) (names : List Text) :
    (List.replicate names.length Component.parent).foldl collapse
      ((names.map .normal).reverse ++ done) = done := by
  induction names generalizing done with
  | nil => rfl
  | cons n names ih =>
    have hdone := ih (.normal n :: done)
    rw [List.length_cons, List.replicate_succ', List.foldl_append, List.map_cons,
      List.reverse_cons, List.append_assoc, List.singleton_append, hdone]
    rfl

/-- Climbing from a directory and going down again, both by names. -/
theorem normalComponents_join_climb {q : Path} {above : List Component} {up down : List Text}
    (hq : q.normalComponents = above ++ up.map .normal) (hdown : ∀ n ∈ down, IsName n) :
    (q.join (ofComponents (List.replicate up.length .parent ++
      down.map .normal))).normalComponents = above ++ down.map .normal := by
  rw [normalComponents_join (isAbsolute_ofComponents_relative up.length hdown),
    (NormalForm.relative up.length hdown).steps_ofComponents, List.foldl_append, hq,
    List.reverse_append, foldl_collapse_climb, foldl_collapse_normal]
  simp

/-- The way from one absolute path to another, joined to the first, leads to the second. It climbs
from the first to their longest common ancestor and goes down to the second by names, so it does not
climb just when the first lies above the second or is the same. -/
theorem join_relativeTo {p q : Path} (hp : p.isAbsolute = true) (hq : q.isAbsolute = true) :
    (q.join (p.relativeTo q)).normalize = p.normalize ∧
    (∃ (a : Path) (up down : List Text), a.IsMeet p q ∧
      q.normalize.components = a.components ++ up.map .normal ∧
      p.normalize.components = a.components ++ down.map .normal ∧
      (p.relativeTo q).components = List.replicate up.length .parent ++ down.map .normal) ∧
    (.parent ∉ (p.relativeTo q).components ↔
      q.normalize.components <+: p.normalize.components) := by
  obtain ⟨a, down, up, hmeet, hdown, hup, hrel⟩ := relativeTo_spec hp hq
  have hnames : ∀ n ∈ down, IsName n := names_of_below hdown
  have hcomp : (p.relativeTo q).components =
      List.replicate up.length .parent ++ down.map .normal := by
    rw [hrel]
    exact (NormalForm.relative up.length hnames).components_ofComponents
  have ha : a.components = a.normalComponents := by rw [← components_normalize, hmeet.normal]
  refine ⟨?_, ⟨a, up, down, hmeet, ?_, ?_, hcomp⟩, ?_⟩
  · rw [normalize_eq_iff, hrel, normalComponents_join_climb hup hnames, hdown]
  · rw [components_normalize, ha, hup]
  · rw [components_normalize, ha, hdown]
  · rw [hcomp, components_normalize, components_normalize]
    have hclimb : .parent ∉ List.replicate up.length Component.parent ++ down.map .normal ↔
        up = [] := by
      simp
    rw [hclimb]
    constructor
    · rintro rfl
      rw [hup, List.map_nil, List.append_nil]
      exact hmeet.left
    · intro hpre
      have hle := (hmeet.deepest _ hpre List.prefix_rfl).length_le
      rw [hup, List.length_append, List.length_map] at hle
      exact List.eq_nil_of_length_eq_zero (by omega)

theorem join_relativeTo_cousin :
    let p := of "/p/lib/../other/./a.ts"
    let q := of "/p//src/deep/"
    p.isAbsolute = true ∧ q.isAbsolute = true ∧ p.relativeTo q = of "../../other/a.ts" ∧
      (q.join (p.relativeTo q)).normalize = p.normalize ∧
      ¬q.normalize.components <+: p.normalize.components := by
  intro p q
  have h := join_relativeTo (p := p) (q := q) (by decide) (by decide)
  exact ⟨by decide, by decide, by decide, h.1, fun hpre => absurd (h.2.2.mpr hpre) (by decide)⟩

/-- The path, or a directory above it, is named `n` and is neither the base nor above the base. -/
def LeadsThrough (p base : Path) (n : Text) : Prop :=
  ∃ cs, cs ++ [.normal n] <+: p.normalComponents ∧ ¬cs ++ [.normal n] <+: base.normalComponents

theorem LeadsThrough.mem {p base : Path} {n : Text} (h : p.LeadsThrough base n) :
    .normal n ∈ p.normalComponents := by
  obtain ⟨cs, hp, -⟩ := h
  exact hp.subset (by simp)

/-- What is left of a list after `dropCommon` are the ends of those of its beginnings that the
other list does not start with. -/
theorem mem_dropCommon {as bs : List Component} {c : Component} :
    c ∈ (dropCommon as bs).1 ↔ ∃ cs, cs ++ [c] <+: as ∧ ¬cs ++ [c] <+: bs := by
  obtain ⟨common, has, hbs, hmax⟩ := dropCommon_spec as bs
  generalize (dropCommon as bs).1 = down at has
  constructor
  · intro hc
    obtain ⟨l, r, rfl⟩ := List.append_of_mem hc
    have hp : common ++ l ++ [c] <+: as := ⟨r, by simp [has]⟩
    refine ⟨common ++ l, hp, fun hb => ?_⟩
    have hle := (hmax _ hp hb).length_le
    simp only [List.length_append, List.length_singleton] at hle
    omega
  · rintro ⟨cs, ⟨rest, ha⟩, hb⟩
    rw [has] at ha
    rcases List.append_eq_append_iff.mp ha with ⟨l, hl, -⟩ | ⟨l, hl, hd⟩
    · refine absurd (List.IsPrefix.trans ?_ ⟨_, hbs.symm⟩) hb
      exact ⟨l, hl.symm⟩
    · cases l using List.reverseRecOn with
      | nil =>
        rw [hl, List.append_nil] at hb
        exact absurd ⟨_, hbs.symm⟩ hb
      | append_singleton l d =>
        rw [← List.append_assoc] at hl
        obtain rfl : c = d := by simpa using (List.append_inj' hl rfl).2
        simp [hd]

private theorem mem_text_foldl_join {cs : List Component} (h : ∀ c ∈ cs, Stands c) (p : Path)
    {x : Char} (hx : x ≠ '/') : x ∈ (cs.foldl (fun p c => p.join ⟨c.text⟩) p).text ↔
      x ∈ p.text ∨ ∃ c ∈ cs, x ∈ c.text := by
  induction cs generalizing p with
  | nil => simp
  | cons c cs ih =>
    obtain ⟨hc, hcs⟩ := List.forall_mem_cons.mp h
    have hj : x ∈ (p.join ⟨c.text⟩).text ↔ x ∈ p.text ∨ x ∈ c.text := by
      rw [join, if_neg (by simp [hc.relative])]
      split_ifs <;> simp [hx]
    rw [List.foldl_cons, ih hcs, hj]
    simp [or_assoc]

private theorem mem_text_stands {cs : List Component} (h : ∀ c ∈ cs, Stands c) {x : Char}
    (hx : x ≠ '.') : (∃ c ∈ cs, x ∈ c.text) ↔ ∃ n, .normal n ∈ cs ∧ x ∈ n := by
  constructor
  · rintro ⟨c, hc, hm⟩
    cases h c hc with
    | parent => simp [Component.text, hx] at hm
    | @normal n hn => exact ⟨n, hc, hm⟩
  · rintro ⟨n, hn, hm⟩
    exact ⟨.normal n, hn, hm⟩

/-- What of a normal form holds the root is all of it. -/
private theorem NormalForm.eq_root_cons {cs common down : List Component} (h : NormalForm cs)
    (hcs : cs = common ++ down) (hr : .root ∈ down) :
    ∃ names : List Text, (∀ c ∈ names.map Component.normal, Stands c) ∧
      down = .root :: names.map .normal := by
  cases h with
  | @absolute names hnames =>
    cases common with
    | nil =>
      refine ⟨names, fun c hc => ?_, hcs.symm⟩
      obtain ⟨n, hn, rfl⟩ := List.mem_map.mp hc
      exact .normal (hnames n hn)
    | cons c common =>
      have hm : .root ∈ names.map Component.normal := by
        rw [(List.cons.inj hcs).2]
        exact List.mem_append_right _ hr
      simp at hm
  | relative k hnames =>
    have hm := forall_stands_relative k hnames .root (by rw [hcs]; exact List.mem_append_right _ hr)
    cases hm

/-- Separators and dots aside, the way from a base to a path is made of the names that it leads
through. -/
theorem mem_relativeTo {p base : Path} {x : Char} (hs : x ≠ '/') (hd : x ≠ '.') :
    x ∈ (p.relativeTo base).text ↔ ∃ n, p.LeadsThrough base n ∧ x ∈ n := by
  have hn : ∀ n, p.LeadsThrough base n ↔
      .normal n ∈ (dropCommon p.normalComponents base.normalComponents).1 :=
    fun n => mem_dropCommon.symm
  simp only [hn, relativeTo, components_normalize]
  obtain ⟨common, hp, -, -⟩ := dropCommon_spec p.normalComponents base.normalComponents
  generalize (dropCommon p.normalComponents base.normalComponents).2 = up
  generalize (dropCommon p.normalComponents base.normalComponents).1 = down at hp
  have hup : ∀ c ∈ up.map fun _ => Component.parent, Stands c := by
    intro c hc
    obtain ⟨-, -, rfl⟩ := List.mem_map.mp hc
    exact .parent
  have hf := normalComponents_normalForm p
  by_cases hr : .root ∈ down
  · obtain ⟨names, hnames, rfl⟩ := hf.eq_root_cons hp hr
    have hroot : ∀ q : Path, q.join ⟨Component.root.text⟩ = ⟨['/']⟩ := fun _ => rfl
    rw [ofComponents, List.foldl_append, List.foldl_cons, hroot, mem_text_foldl_join hnames _ hs,
      mem_text_stands hnames hd]
    simp [hs]
  · have hdown : ∀ c ∈ down, Stands c := by
      intro c hc
      rcases hf.stands c (by rw [hp]; exact List.mem_append_right _ hc) with rfl | hst
      · exact absurd hc hr
      · exact hst
    have hall := List.forall_mem_append.mpr ⟨hup, hdown⟩
    rw [ofComponents, mem_text_foldl_join hall _ hs, mem_text_stands hall hd]
    simp

end ImportAlias.Path
