import ImportAlias.Proofs.Path.Normal
import Mathlib.Data.List.TakeWhile
import Mathlib.Tactic.SplitIfs

/-! The canonical form of a path: normalisation gives it, leaves it alone, and may be done before
joining as well as after. -/
namespace ImportAlias.Path
open Text (splitOn joinWith)

/-- The text without the slash that an absolute path starts with. -/
def unrooted (p : Path) : Text := if p.isAbsolute then p.text.tail else p.text

/-- What stands between the slashes of a path. The empty path and the root have no segments. -/
def segments (p : Path) : List Text := if p.unrooted = [] then [] else splitOn '/' p.unrooted

/-- A path that is written as short as can be: it has no empty segment and no `.`, and `..` stands
only at the start of a relative path. -/
structure IsCanonical (p : Path) : Prop where
  no_empty : ∀ s ∈ p.segments, s ≠ []
  no_current : ∀ s ∈ p.segments, s ≠ ['.']
  parents_lead : ∀ s ∈ p.segments.dropWhile (· = ['.', '.']), s ≠ ['.', '.']
  parents_relative : p.isAbsolute = true → ∀ s ∈ p.segments, s ≠ ['.', '.']

instance (p : Path) : Decidable p.IsCanonical :=
  decidable_of_iff
    ((∀ s ∈ p.segments, s ≠ []) ∧ (∀ s ∈ p.segments, s ≠ ['.']) ∧
      (∀ s ∈ p.segments.dropWhile (· = ['.', '.']), s ≠ ['.', '.']) ∧
      (p.isAbsolute = true → ∀ s ∈ p.segments, s ≠ ['.', '.']))
    ⟨fun ⟨a, b, c, d⟩ => ⟨a, b, c, d⟩, fun ⟨a, b, c, d⟩ => ⟨a, b, c, d⟩⟩

/-! Segments of written components -/

theorem segments_of_unrooted {p : Path} {ss : List Text} (h : p.unrooted = joinWith '/' ss)
    (hss : ∀ s ∈ ss, s ≠ [] ∧ '/' ∉ s) : p.segments = ss := by
  rw [segments, h]
  cases ss with
  | nil => rfl
  | cons s ss =>
    have hne := (relative_joinWith (List.cons_ne_nil s ss) hss).1
    rw [if_neg hne, Text.splitOn_joinWith (List.cons_ne_nil s ss) fun t ht => (hss t ht).2]

theorem joinWith_segments (p : Path) : joinWith '/' p.segments = p.unrooted := by
  unfold segments
  split_ifs with h
  · rw [h]
    rfl
  · exact Text.joinWith_splitOn '/' _

theorem not_mem_of_mem_segments {p : Path} {s : Text} (h : s ∈ p.segments) : '/' ∉ s := by
  unfold segments at h
  split_ifs at h
  · simp at h
  · exact Text.not_mem_of_mem_splitOn h

/-- Names below the root, written out. -/
theorem text_ofComponents_absolute {names : List Text} (h : ∀ n ∈ names, IsName n) :
    (ofComponents (.root :: names.map .normal)).text = '/' :: joinWith '/' names := by
  by_cases hne : names = []
  · subst hne
    rfl
  · have hr := (relative_joinWith hne fun n hn => (h n hn).segment).2
    have hroot : (Path.mk ['/']).normalComponents = [.root] := by decide
    have hn := normalize_join_names (p := ⟨['/']⟩) (by decide) hne h
    rw [normalize, normalComponents_join_names _ h, hroot] at hn
    change ofComponents (.root :: names.map .normal) = _ at hn
    rw [hn, join, if_neg (by simp [hr]), if_pos (.inr rfl)]
    rfl

theorem segments_absolute {names : List Text} (h : ∀ n ∈ names, IsName n) :
    (ofComponents (.root :: names.map .normal)).segments = names := by
  refine segments_of_unrooted ?_ fun n hn => (h n hn).segment
  rw [unrooted, if_pos (isAbsolute_ofComponents h), text_ofComponents_absolute h, List.tail_cons]

theorem segments_relative (k : Nat) {names : List Text} (h : ∀ n ∈ names, IsName n) :
    (ofComponents (List.replicate k .parent ++ names.map .normal)).segments =
      List.replicate k ['.', '.'] ++ names := by
  refine segments_of_unrooted ?_ (List.forall_mem_append.mpr ⟨?_, fun n hn => (h n hn).segment⟩)
  · rw [unrooted, isAbsolute_ofComponents_relative k h, if_neg (by simp),
      text_ofComponents_relative k h]
  · intro s hs
    rw [List.eq_of_mem_replicate hs]
    decide

/-! What is canonical -/

theorem NormalForm.isCanonical {cs : List Component} (h : NormalForm cs) :
    (ofComponents cs).IsCanonical := by
  cases h with
  | @absolute names h =>
    have hs := segments_absolute h
    constructor <;> rw [hs]
    · exact fun n hn => (h n hn).ne_nil
    · exact fun n hn => (h n hn).ne_current
    · exact fun n hn => (h n ((List.dropWhile_sublist _).subset hn)).ne_parent
    · exact fun _ n hn => (h n hn).ne_parent
  | @relative k names h =>
    have hs := segments_relative k h
    have hrow : ∀ s ∈ List.replicate k ['.', '.'], s = ['.', '.'] := fun s =>
      List.eq_of_mem_replicate
    constructor <;> rw [hs]
    · refine List.forall_mem_append.mpr ⟨fun s hs => ?_, fun n hn => (h n hn).ne_nil⟩
      simp [hrow s hs]
    · refine List.forall_mem_append.mpr ⟨fun s hs => ?_, fun n hn => (h n hn).ne_current⟩
      simp [hrow s hs]
    · rw [List.dropWhile_append_of_pos fun s hs => by simp [hrow s hs]]
      exact fun n hn => (h n ((List.dropWhile_sublist _).subset hn)).ne_parent
    · intro ha
      rw [isAbsolute_ofComponents_relative k h] at ha
      cases ha

/-- Segments with `..` only at their start are a row of `..` and others. -/
private theorem exists_row {ss : List Text}
    (h : ∀ s ∈ ss.dropWhile (· = ['.', '.']), s ≠ ['.', '.']) :
    ∃ (k : Nat) (names : List Text), ss = List.replicate k ['.', '.'] ++ names ∧
      ∀ n ∈ names, n ≠ ['.', '.'] := by
  have hrow : ss.takeWhile (· = ['.', '.']) =
      List.replicate (ss.takeWhile (· = ['.', '.'])).length ['.', '.'] :=
    List.eq_replicate_of_mem fun s hs => by simpa using List.mem_takeWhile_imp hs
  refine ⟨(ss.takeWhile (· = ['.', '.'])).length, ss.dropWhile (· = ['.', '.']), ?_, h⟩
  rw [← hrow, List.takeWhile_append_dropWhile]

/-- A canonical path is made of components in normal form. -/
theorem IsCanonical.exists_normalForm {p : Path} (h : p.IsCanonical) :
    ∃ cs, NormalForm cs ∧ p = ofComponents cs := by
  have hname : ∀ s ∈ p.segments, s ≠ ['.', '.'] → IsName s := fun s hs hp =>
    ⟨h.no_empty s hs, not_mem_of_mem_segments hs, h.no_current s hs, hp⟩
  have htext := joinWith_segments p
  obtain ⟨t⟩ := p
  cases ha : (Path.mk t).isAbsolute with
  | true =>
    have hnames : ∀ s ∈ (Path.mk t).segments, IsName s := fun s hs =>
      hname s hs (h.parents_relative ha s hs)
    have ht : t = (ofComponents (.root :: (Path.mk t).segments.map .normal)).text := by
      obtain ⟨rest, rfl⟩ := List.head?_eq_some_iff.mp (beq_iff_eq.mp ha)
      rw [text_ofComponents_absolute hnames, htext, unrooted, if_pos ha, List.tail_cons]
    exact ⟨_, .absolute hnames, congrArg Path.mk ht⟩
  | false =>
    obtain ⟨k, names, hs, hp⟩ := exists_row h.parents_lead
    have hnames : ∀ n ∈ names, IsName n := fun n hn =>
      hname n (by rw [hs]; exact List.mem_append_right _ hn) (hp n hn)
    have ht : t = (ofComponents (List.replicate k .parent ++ names.map .normal)).text := by
      rw [text_ofComponents_relative k hnames, ← hs, htext, unrooted, if_neg (by simp [ha])]
    exact ⟨_, .relative k hnames, congrArg Path.mk ht⟩

theorem isCanonical_normalize (p : Path) : p.normalize.IsCanonical :=
  (normalComponents_normalForm p).isCanonical

theorem normalize_eq_self_iff {p : Path} : p.normalize = p ↔ p.IsCanonical := by
  constructor
  · intro h
    rw [← h]
    exact isCanonical_normalize p
  · intro h
    obtain ⟨cs, hcs, rfl⟩ := h.exists_normalForm
    rw [normalize, normalComponents_ofComponents hcs]

example : (of "../../lib/a.ts").IsCanonical ∧ ¬(of "lib/../a.ts").IsCanonical ∧
    ¬(of "/..").IsCanonical ∧ ¬(of "a/").IsCanonical := by decide

/-! Roots and joins -/

theorem root_mem_normalComponents {p : Path} (h : .root ∈ p.normalComponents) :
    p.isAbsolute = true := by
  by_contra ha
  rw [normalComponents_eq, List.mem_reverse, steps, if_neg ha, List.nil_append] at h
  rcases mem_foldl_collapse h with h | h
  · simp at h
  · cases stands_of_mem_segments h

theorem isAbsolute_normalize_eq (p : Path) : p.normalize.isAbsolute = p.isAbsolute := by
  cases ha : p.isAbsolute with
  | true => exact isAbsolute_normalize ha
  | false =>
    have hf := normalComponents_normalForm p
    have hroot : .root ∉ p.normalComponents := fun h => by
      simp [root_mem_normalComponents h] at ha
    unfold normalize
    generalize p.normalComponents = cs at hf hroot
    cases hf with
    | absolute => simp at hroot
    | relative k h => exact isAbsolute_ofComponents_relative k h

theorem normalize_join_normalize (a b : Path) :
    (a.normalize.join b).normalize = (a.join b).normalize := by
  cases hb : b.isAbsolute with
  | true => rw [join, if_pos hb, join, if_pos hb]
  | false =>
    rw [normalize_eq_iff, normalComponents_join hb, normalComponents_join hb,
      normalComponents_normalize]

/-- A step of normalisation does to a directory what it does to the way that leads there. -/
private theorem foldl_collapse_collapse (way done : List Component) (c : Component) :
    (collapse way c).reverse.foldl collapse done =
      collapse (way.reverse.foldl collapse done) c := by
  fun_cases collapse way c with
  | case1 n way =>
    simp [collapse]
  | case2 way => simp [collapse]
  | case3 => simp [collapse]
  | case4 => simp

theorem foldl_collapse_reverse (cs way done : List Component) :
    (cs.foldl collapse way).reverse.foldl collapse done =
      cs.foldl collapse (way.reverse.foldl collapse done) := by
  induction cs generalizing way with
  | nil => rfl
  | cons c cs ih => rw [List.foldl_cons, ih, foldl_collapse_collapse, List.foldl_cons]

theorem normalize_join_right (a b : Path) :
    (a.join b.normalize).normalize = (a.join b).normalize := by
  have ha := isAbsolute_normalize_eq b
  cases hb : b.isAbsolute with
  | true =>
    rw [join, if_pos (ha.trans hb), join, if_pos hb, normalize_normalize]
  | false =>
    rw [normalize_eq_iff, normalComponents_join (ha.trans hb), normalComponents_join hb,
      normalize, (normalComponents_normalForm b).steps_ofComponents, normalComponents_eq b,
      foldl_collapse_reverse]
    rfl

/-- The normal form is absolute just when the path is. It is canonical, the canonical paths are just
those that are their own normal form, and a path may be normalised before another is joined to
it. -/
theorem normalize_canonical :
    (∀ p : Path, p.normalize.isAbsolute = p.isAbsolute ∧ p.normalize.IsCanonical ∧
      p.normalize.normalize = p.normalize ∧ (p.normalize = p ↔ p.IsCanonical)) ∧
    ∀ a b : Path, (a.join b).normalize = (a.normalize.join b).normalize :=
  ⟨fun p => ⟨isAbsolute_normalize_eq p, isCanonical_normalize p, normalize_normalize p,
    normalize_eq_self_iff⟩, fun a b => (normalize_join_normalize a b).symm⟩

end ImportAlias.Path
