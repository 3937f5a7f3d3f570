import ImportAlias.Specifier
import ImportAlias.Proofs.Path.Ancestor
import ImportAlias.Proofs.Path.Canonical
import Mathlib.Data.List.TakeWhile

/-! How far a specifier climbs. Its depth is counted up to the first segment that names something;
the normal form of its path reads on behind that segment, where it may climb again. -/
namespace ImportAlias
open Text (splitOn joinWith)

namespace Path

/-- The number of parents that the normal form of a path begins with. -/
def climb (p : Path) : Nat := (p.normalize.components.takeWhile (· = .parent)).length

/-- From every directory with `k` names at its end the path leads out of the `k` directories they
name, and down again by names that are the same for every directory. -/
def Leaves (p : Path) (k : Nat) : Prop :=
  ∃ names : List Text, ∀ (d : Path) (above : List Component) (up : List Text), up.length = k →
    d.normalize.components = above ++ up.map .normal →
      (d.join p).normalize.components = above ++ names.map .normal

theorem climb_of_append {p : Path} {k : Nat} {cs : List Component}
    (h : p.normalComponents = List.replicate k .parent ++ cs) :
    p.climb = k + (cs.takeWhile (· = .parent)).length := by
  rw [climb, components_normalize, h, List.takeWhile_append_of_pos, List.length_append,
    List.length_replicate]
  intro c hc
  simp [List.eq_of_mem_replicate hc]

theorem climb_of_not_mem {p : Path} (h : .parent ∉ p.normalComponents) : p.climb = 0 := by
  rw [climb, components_normalize, List.length_eq_zero_iff, List.takeWhile_eq_nil_iff]
  intro hl hp
  exact h (of_decide_eq_true hp ▸ List.getElem_mem hl)

theorem climb_of_isAbsolute {p : Path} (h : p.isAbsolute = true) : p.climb = 0 := by
  obtain ⟨names, -, hn⟩ := exists_names h
  exact climb_of_not_mem (by simp [hn])

/-- A relative path climbs and then goes down by names. -/
theorem exists_names_below_climb {p : Path} (h : p.isAbsolute = false) :
    ∃ names : List Text, (∀ n ∈ names, IsName n) ∧
      p.normalComponents = List.replicate p.climb .parent ++ names.map .normal := by
  have hf := normalComponents_normalForm p
  generalize hc : p.normalComponents = cs at hf
  cases hf with
  | absolute =>
    have ha := root_mem_normalComponents (p := p) (by simp [hc])
    rw [h] at ha
    cases ha
  | @relative k names hnames =>
    have hk : p.climb = k := by
      cases names <;> simp [climb_of_append hc]
    rw [hk]
    exact ⟨names, hnames, rfl⟩

theorem leaves_climb {p : Path} (h : p.isAbsolute = false) : p.Leaves p.climb := by
  obtain ⟨names, hnames, hp⟩ := exists_names_below_climb h
  refine ⟨names, fun d above up hlen hd => ?_⟩
  have hn : p.normalize = ofComponents (List.replicate up.length .parent ++ names.map .normal) := by
    rw [normalize, hp, hlen]
  rw [components_normalize] at hd
  -- The climb is spelled out in the normal form only, so that is what is joined to the directory.
  rw [← normalize_join_right, components_normalize, hn, normalComponents_join_climb hd hnames]

/-- A path leaves one number of directories. With a larger one it would come back down by a name
that all directories have. -/
theorem Leaves.le {p : Path} {j k : Nat} (hj : p.Leaves j) (hk : p.Leaves k) : k ≤ j := by
  obtain ⟨near, hnear⟩ := hj
  obtain ⟨far, hfar⟩ := hk
  by_contra hlt
  obtain ⟨m, rfl⟩ : ∃ m, k = m + 1 + j := ⟨k - j - 1, by omega⟩
  have hhead : ∀ n, IsName n → far.head? = some n := by
    intro n hn
    have hrow : ∀ x ∈ List.replicate (m + 1 + j) n, IsName x := fun x hx =>
      List.eq_of_mem_replicate hx ▸ hn
    obtain ⟨d, hd⟩ : ∃ d : Path,
        d.normalize.components = .root :: (List.replicate (m + 1 + j) n).map .normal :=
      ⟨_, (components_normalize _).trans (normalComponents_ofComponents (.absolute hrow))⟩
    have hstay := hnear d (.root :: (List.replicate (m + 1) n).map .normal) (List.replicate j n)
      List.length_replicate (by rw [hd, List.replicate_add]; simp)
    have hleft := hfar d [.root] (List.replicate (m + 1 + j) n) List.length_replicate hd
    have hdown : far.map Component.normal =
        .normal n :: (List.replicate m n ++ near).map .normal := by
      rw [hstay] at hleft
      simpa [List.replicate_succ] using hleft.symm
    obtain ⟨x, xs, rfl, hx, -⟩ := List.map_eq_cons_iff.mp hdown
    simpa using hx
  have ha := hhead ['a'] (by decide)
  have hb := hhead ['b'] (by decide)
  rw [ha] at hb
  exact absurd hb (by decide)

/-- A relative path leaves as many directories as its normal form has parents. -/
theorem leaves_iff {p : Path} (h : p.isAbsolute = false) {k : Nat} :
    p.Leaves k ↔ k = p.climb := by
  constructor
  · intro hk
    exact Nat.le_antisymm ((leaves_climb h).le hk) (hk.le (leaves_climb h))
  · rintro rfl
    exact leaves_climb h

/-- Parents that nothing precedes are never climbed back over. -/
theorem collapse_append_parents (done : List Component) (k : Nat) (c : Component) :
    collapse (done ++ List.replicate k .parent) c =
      collapse done c ++ List.replicate k .parent := by
  cases done with
  | nil => cases k <;> cases c <;> rfl
  | cons d done => cases d <;> cases c <;> rfl

theorem foldl_collapse_append_parents (cs done : List Component) (k : Nat) :
    cs.foldl collapse (done ++ List.replicate k .parent) =
      cs.foldl collapse done ++ List.replicate k .parent := by
  induction cs generalizing done with
  | nil => rfl
  | cons c cs ih => rw [List.foldl_cons, collapse_append_parents, ih, List.foldl_cons]

end Path

namespace Specifier

/-- The segments from the first one on that is neither `.` nor `..`. -/
def afterClimb (s : Specifier) : List Text :=
  (splitOn '/' s).dropWhile fun seg => seg = ['.'] ∨ seg = ['.', '.']

/-- The path from the directory that the specifier has climbed to. -/
def onward (s : Specifier) : Path := ⟨joinWith '/' (['.'] :: s.afterClimb)⟩

/-- A specifier that starts with no dot has no depth, so depth is counted over the segments of every
specifier. -/
theorem climbDepth_eq (s : Specifier) : s.climbDepth = climbOf (splitOn '/' s) := by
  unfold climbDepth
  split_ifs with h
  · rfl
  · cases s with
    | nil => rfl
    | cons c s =>
      have hc : c ≠ '.' := by simpa using h
      unfold splitOn
      split_ifs
      · rfl
      · cases hs : splitOn '/' s with
        | nil => exact absurd hs (Text.splitOn_ne_nil '/' s)
        | cons u us => simp [Text.consFirst, climbOf, hc]

theorem climbDepth_parent (s : Specifier) : climbDepth ("../".toList ++ s) = 1 + s.climbDepth := by
  have hs : splitOn '/' ("../".toList ++ s) = ['.', '.'] :: splitOn '/' s :=
    Text.splitOn_append '/' ['.', '.'] s
  rw [climbDepth_eq, climbDepth_eq, hs, climbOf, if_pos rfl, Nat.add_comm]

theorem climbDepth_current (s : Specifier) : climbDepth ("./".toList ++ s) = s.climbDepth := by
  have hs : splitOn '/' ("./".toList ++ s) = ['.'] :: splitOn '/' s :=
    Text.splitOn_append '/' ['.'] s
  rw [climbDepth_eq, climbDepth_eq, hs, climbOf, if_neg (by decide), if_pos rfl]

/-- Counting and resolving keep step until the first segment that names something. -/
theorem foldl_collapse_climbOf (segments : List Text) (k : Nat) :
    (segments.filterMap Path.Component.ofSegment?).foldl Path.collapse (List.replicate k .parent) =
      ((segments.dropWhile fun seg => seg = ['.'] ∨ seg = ['.', '.']).filterMap
        Path.Component.ofSegment?).foldl Path.collapse
          (List.replicate (climbOf segments + k) .parent) := by
  -- `k` is the climb so far: each parent segment adds a parent to the row below what is to come.
  fun_induction climbOf segments generalizing k with
  | case1 => simp
  | case2 rest ih =>
    have hpush : Path.collapse (List.replicate k .parent) .parent =
        List.replicate (k + 1) .parent := Path.collapse_append_parents [] k .parent
    simp [Path.Component.ofSegment?, hpush, ih, Nat.add_assoc, Nat.add_comm 1 k]
  | case3 rest hp ih => simp [Path.Component.ofSegment?, ih]
  | case4 seg rest hp hc => simp [hp, hc]

theorem steps_onward (s : Specifier) :
    s.onward.steps = s.afterClimb.filterMap Path.Component.ofSegment? := by
  have ha : s.onward.isAbsolute = false := by
    simp [onward, Path.isAbsolute, Text.joinWith_cons]
  have hseg : ∀ seg ∈ ['.'] :: s.afterClimb, '/' ∉ seg := by
    refine List.forall_mem_cons.mpr ⟨by decide, fun seg hseg => ?_⟩
    exact Text.not_mem_of_mem_splitOn ((List.dropWhile_sublist _).subset hseg)
  have hs := Text.splitOn_joinWith (List.cons_ne_nil _ _) hseg
  rw [Path.steps, ha, onward, hs]
  simp [Path.Component.ofSegment?]

/-- The normal form of a relative specifier is its climb and the normal form of what follows. -/
theorem normalComponents_climb {s : Specifier} (h : (Path.mk s).isAbsolute = false) :
    (Path.mk s).normalComponents =
      List.replicate s.climbDepth .parent ++ s.onward.normalComponents := by
  have hcount := foldl_collapse_climbOf (splitOn '/' s) 0
  have hrow := Path.foldl_collapse_append_parents
    (s.afterClimb.filterMap Path.Component.ofSegment?) [] s.climbDepth
  rw [List.replicate_zero, Nat.add_zero, ← climbDepth_eq] at hcount
  rw [List.nil_append] at hrow
  rw [Path.normalComponents_eq, Path.steps, h, Path.normalComponents_eq, steps_onward]
  simp only [Bool.false_eq_true, if_false, List.nil_append]
  rw [hcount, ← afterClimb, hrow, List.reverse_append, List.reverse_replicate]

theorem climb_eq_add {s : Specifier} (h : (Path.mk s).isAbsolute = false) :
    (Path.mk s).climb = s.climbDepth + s.onward.climb := by
  rw [Path.climb_of_append (normalComponents_climb h), Path.climb, Path.components_normalize]

theorem climbDepth_of_isAbsolute {s : Specifier} (h : (Path.mk s).isAbsolute = true) :
    s.climbDepth = 0 := by
  have hs : s.head? = some '/' := beq_iff_eq.mp h
  simp [climbDepth, hs]

theorem climbDepth_le_climb (s : Specifier) : s.climbDepth ≤ (Path.mk s).climb := by
  cases h : (Path.mk s).isAbsolute with
  | true => simp [climbDepth_of_isAbsolute h]
  | false => simp [climb_eq_add h]

example : climbDepth "../a/../../b".toList = 1 ∧ (Path.of "../a/../../b").climb = 2 := by decide

theorem climb_onward {s : Specifier} (h : ∀ seg ∈ s.afterClimb, seg ≠ ['.', '.']) :
    s.onward.climb = 0 := by
  refine Path.climb_of_not_mem fun hp => ?_
  rw [Path.normalComponents_eq, List.mem_reverse, steps_onward] at hp
  have hm := (Path.mem_foldl_collapse hp).resolve_left (by simp)
  obtain ⟨seg, hseg, hc⟩ := List.mem_filterMap.mp hm
  have hne := h seg hseg
  simp [Path.Component.ofSegment?, hne] at hc

theorem climb_eq_climbDepth {s : Specifier} (h : ∀ seg ∈ s.afterClimb, seg ≠ ['.', '.']) :
    (Path.mk s).climb = s.climbDepth := by
  cases ha : (Path.mk s).isAbsolute with
  | true => rw [Path.climb_of_isAbsolute ha, climbDepth_of_isAbsolute ha]
  | false => rw [climb_eq_add ha, climb_onward h, Nat.add_zero]

/-- A parent in front of a specifier adds one to its depth and `.` adds nothing. The normal form of
the path begins with at least as many parents as the depth says, and with just as many if no parent
stands behind the first segment that is neither `.` nor `..`; neither the first character nor empty
segments matter for that. So a specifier above the threshold leads out of more directories than the
threshold allows, from wherever it starts. -/
theorem climbDepth_spec (s : Specifier) :
    climbDepth ("../".toList ++ s) = 1 + s.climbDepth ∧
    climbDepth ("./".toList ++ s) = s.climbDepth ∧
    s.climbDepth ≤ (Path.mk s).climb ∧
    ((∀ seg ∈ s.afterClimb, seg ≠ ['.', '.']) → (Path.mk s).climb = s.climbDepth) ∧
    ∀ threshold, s.exceeds threshold = true →
      threshold < (Path.mk s).climb ∧ ∀ k, (Path.mk s).Leaves k ↔ k = (Path.mk s).climb := by
  refine ⟨climbDepth_parent s, climbDepth_current s, climbDepth_le_climb s, climb_eq_climbDepth,
    fun threshold hd => ?_⟩
  have hlt : threshold < s.climbDepth := of_decide_eq_true hd
  have hr : (Path.mk s).isAbsolute = false := by
    rw [Bool.eq_false_iff]
    intro ha
    simp [climbDepth_of_isAbsolute ha] at hlt
  exact ⟨hlt.trans_le (climbDepth_le_climb s), fun _ => Path.leaves_iff hr⟩

theorem climbDepth_spec_mixed :
    let s : Specifier := "./.././../lib//...x/".toList
    (∀ seg ∈ s.afterClimb, seg ≠ ['.', '.']) ∧ s.exceeds 1 = true ∧ s.climbDepth = 2 ∧
      (Path.mk s).climb = s.climbDepth ∧
      ∃ names : List Text, ((Path.of "/p/src/a/b").join ⟨s⟩).normalize.components =
        (Path.of "/p/src").components ++ names.map .normal := by
  intro s
  obtain ⟨-, -, -, heq, hleaves⟩ := climbDepth_spec s
  have hplain : ∀ seg ∈ s.afterClimb, seg ≠ ['.', '.'] := by decide
  have hclimb : (Path.mk s).climb = 2 := by decide
  obtain ⟨names, hnames⟩ := ((hleaves 1 (by decide)).2 2).mpr hclimb.symm
  refine ⟨hplain, by decide, by decide, heq hplain, names, ?_⟩
  exact hnames _ _ ["a".toList, "b".toList] rfl (by decide)

end Specifier

end ImportAlias
