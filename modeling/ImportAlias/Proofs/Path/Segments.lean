import ImportAlias.Proofs.Path.Normal
import Mathlib.Data.List.Induction
import Mathlib.Tactic.SplitIfs

/-! What segments behind a directory resolve to. Names go down by themselves; with anything else
among them the path gets shorter than it is spelled. -/
namespace ImportAlias.Path
open Text (splitOn joinWith)

def Component.width : Component → Nat
  | .normal n => n.length + 1
  | _ => 0

def width : List Component → Nat
  | [] => 0
  | c :: cs => c.width + width cs

@[simp] theorem width_cons (c : Component) (cs : List Component) :
    width (c :: cs) = c.width + width cs := rfl

@[simp] theorem width_append (cs ds : List Component) :
    width (cs ++ ds) = width cs + width ds := by
  induction cs with
  | nil => simp [width]
  | cons c cs ih => simp [ih, Nat.add_assoc]

@[simp] theorem width_reverse (cs : List Component) : width cs.reverse = width cs := by
  induction cs with
  | nil => rfl
  | cons c cs ih => simp [ih, width, Nat.add_comm]

theorem width_collapse_parent (done : List Component) :
    width (collapse done .parent) ≤ width done := by
  unfold collapse
  split <;> simp [Component.width]

theorem ofSegment?_of_not_isName {s : Text} (hs : '/' ∉ s) (h : ¬IsName s) :
    Component.ofSegment? s = none ∨ Component.ofSegment? s = some .parent := by
  unfold Component.ofSegment?
  split_ifs with h₁ h₂
  · exact .inl rfl
  · exact .inr rfl
  · obtain ⟨hne, hc⟩ := not_or.mp h₁
    exact absurd ⟨hne, hs, hc, h₂⟩ h

/-- Resolving segments adds at most what they are spelled with, and less if one is no name. -/
theorem width_segments {ss : List Text} (h : ∀ s ∈ ss, '/' ∉ s) (done : List Component) :
    let spelled := width done + (Text.following '/' ss).length
    width ((ss.filterMap Component.ofSegment?).foldl collapse done) ≤ spelled ∧
      ((∃ s ∈ ss, ¬IsName s) →
        width ((ss.filterMap Component.ofSegment?).foldl collapse done) < spelled) := by
  induction ss generalizing done with
  | nil => simp
  | cons s ss ih =>
    obtain ⟨hs, hss⟩ := List.forall_mem_cons.mp h
    have hl : (Text.following '/' (s :: ss)).length =
        s.length + 1 + (Text.following '/' ss).length := by
      rw [Text.following, Text.joinWith_cons, List.length_cons, List.length_append]
      omega
    simp only [hl, List.mem_cons, exists_eq_or_imp]
    by_cases hn : IsName s
    · have hc : collapse done (.normal s) = .normal s :: done := by
        simpa using foldl_collapse_normal done [s]
      rw [List.filterMap_cons_some hn.ofSegment?, List.foldl_cons, hc]
      obtain ⟨hle, hlt⟩ := ih hss (.normal s :: done)
      simp only [width_cons, Component.width] at hle hlt
      refine ⟨by omega, fun hex => ?_⟩
      have := hlt (hex.resolve_left (not_not.mpr hn))
      omega
    · rcases ofSegment?_of_not_isName hs hn with ho | ho
      · rw [List.filterMap_cons_none ho]
        have := (ih hss done).1
        omega
      · rw [List.filterMap_cons_some ho, List.foldl_cons]
        have := (ih hss (collapse done .parent)).1
        have := width_collapse_parent done
        omega

def lastSegment (t : Text) : Text := (splitOn '/' t).getLast (Text.splitOn_ne_nil '/' t)

theorem not_mem_lastSegment (t : Text) : '/' ∉ lastSegment t :=
  Text.not_mem_of_mem_splitOn (List.getLast_mem (Text.splitOn_ne_nil '/' t))

theorem exists_lastSegment (t : Text) :
    ∃ d : Text, (d = [] ∨ d.getLast? = some '/') ∧ t = d ++ lastSegment t := by
  obtain ⟨d, hd, hj⟩ := Text.exists_joinWith_concat '/' (splitOn '/' t).dropLast
  refine ⟨d, hd, ?_⟩
  rw [← hj, lastSegment, List.dropLast_append_getLast, Text.joinWith_splitOn]

def opened (p : Path) : Text :=
  if p.text.getLast? = some '/' then p.text else p.text ++ ['/']

theorem getLast?_opened (p : Path) : p.opened.getLast? = some '/' := by
  unfold opened
  split_ifs with h
  · exact h
  · simp

theorem text_join_of_relative {p q : Path} (hp : p.text ≠ []) (hq : q.isAbsolute = false) :
    (p.join q).text = p.opened ++ q.text := by
  simp only [join, hq, Bool.false_eq_true, if_false, hp, false_or, opened]
  split_ifs <;> simp

theorem text_ne_nil {p : Path} (h : p.isAbsolute = true) : p.text ≠ [] := by
  rintro hn
  simp [isAbsolute, hn] at h

private theorem text_ofComponents_concat {names : List Text} (h : ∀ n ∈ names, IsName n)
    {n : Text} (hn : IsName n) :
    (ofComponents (.root :: (names ++ [n]).map .normal)).text =
      (ofComponents (.root :: names.map .normal)).opened ++ n := by
  rw [List.map_append, ← List.cons_append, List.map_singleton, ofComponents_concat]
  exact text_join_of_relative (text_ne_nil (isAbsolute_ofComponents h)) hn.relative

private theorem length_ofComponents {names : List Text} (h : ∀ n ∈ names, IsName n) :
    let p := ofComponents (.root :: names.map .normal)
    p.opened.length = width (names.map .normal) + 1 ∧
      p.text.length ≤ max 1 (width (names.map .normal)) := by
  induction names using List.reverseRecOn with
  | nil => decide
  | append_singleton names n ih =>
    obtain ⟨hns, hn⟩ := List.forall_mem_append.mp h
    have hn := hn n (by simp)
    obtain ⟨ho, -⟩ := ih hns
    have ht := text_ofComponents_concat hns hn
    have hl : (ofComponents (.root :: (names ++ [n]).map .normal)).text.getLast? ≠ some '/' := by
      rw [ht, List.getLast?_append_of_ne_nil _ hn.ne_nil]
      exact fun hl => hn.no_slash (List.mem_of_getLast? hl)
    have hw : width ((names ++ [n]).map .normal) = width (names.map .normal) + (n.length + 1) := by
      simp [width, Component.width]
    dsimp only
    rw [opened, if_neg hl, List.length_append, ht, List.length_append, ho, hw]
    simp only [List.length_singleton]
    omega

theorem length_normalize {p : Path} (h : p.isAbsolute = true) :
    p.normalize.opened.length = width p.normalComponents + 1 ∧
      p.normalize.text.length ≤ max 1 (width p.normalComponents) := by
  obtain ⟨names, hnames, hn⟩ := exists_names h
  have hw : width (.root :: names.map .normal) = width (names.map .normal) := by
    simp [Component.width]
  rw [normalize, hn, hw]
  exact length_ofComponents hnames

theorem steps_append {d : Text} (hd : d.getLast? = some '/') (v : Text) :
    (Path.mk (d ++ v)).steps =
      (Path.mk d).steps ++ (splitOn '/' v).filterMap Component.ofSegment? := by
  obtain ⟨t, rfl⟩ := List.getLast?_eq_some_iff.mp hd
  have ha : (Path.mk (t ++ '/' :: v)).isAbsolute = (Path.mk (t ++ ['/'])).isAbsolute := by
    cases t <;> rfl
  have hv := Text.splitOn_append '/' t v
  have hn := Text.splitOn_append '/' t []
  simp [steps, ha, hv, hn, splitOn, Component.ofSegment?]

/-- Segments behind a directory are resolved from there, unless they start again from the root. -/
theorem normalComponents_join_append (base : Path) {d : Text}
    (hd : d = [] ∨ d.getLast? = some '/') (v : Text) :
    ∃ done, width done ≤ width (base.join ⟨d⟩).normalComponents ∧
      ((Path.mk v).isAbsolute = false → done.reverse = (base.join ⟨d⟩).normalComponents) ∧
      (base.join ⟨d ++ v⟩).normalComponents =
        (((splitOn '/' v).filterMap Component.ofSegment?).foldl collapse done).reverse := by
  rcases hd with rfl | hd
  · have hb : (base.join ⟨[]⟩).normalComponents = base.normalComponents := by
      rw [normalComponents_join rfl]
      simp [steps, isAbsolute, splitOn, Component.ofSegment?]
    rw [hb, List.nil_append]
    cases hv : (Path.mk v).isAbsolute with
    | true =>
      refine ⟨[.root], Nat.zero_le _, by simp, ?_⟩
      rw [join, if_pos hv, normalComponents_eq, steps, if_pos hv]
      rfl
    | false =>
      refine ⟨base.normalComponents.reverse, by simp, by simp, ?_⟩
      rw [normalComponents_join hv, steps, if_neg (by simp [hv]), List.nil_append]
  · refine ⟨(base.join ⟨d⟩).normalComponents.reverse, by simp, by simp, ?_⟩
    have hs := steps_append hd v
    have ha : (Path.mk (d ++ v)).isAbsolute = (Path.mk d).isAbsolute := by
      cases d with
      | nil => simp at hd
      | cons c d => rfl
    cases hda : (Path.mk d).isAbsolute with
    | true =>
      rw [join, if_pos (ha.trans hda), join, if_pos hda, normalComponents_eq, hs,
        List.foldl_append, normalComponents_eq, List.reverse_reverse]
    | false =>
      rw [normalComponents_join (ha.trans hda), normalComponents_join hda, hs, List.foldl_append,
        List.reverse_reverse]

section
variable {base : Path} {d : Text}

theorem isAbsolute_join_left (h : base.isAbsolute = true) (q : Path) :
    (base.join q).isAbsolute = true := by
  cases hq : q.isAbsolute with
  | true => rw [join, if_pos hq, hq]
  | false => rw [isAbsolute_join hq, h]

theorem text_normalize_join_names (hbase : base.isAbsolute = true)
    (hd : d = [] ∨ d.getLast? = some '/') {v : Text} (hv : ∀ s ∈ splitOn '/' v, IsName s) :
    (base.join ⟨d ++ v⟩).normalize.text = (base.join ⟨d⟩).normalize.opened ++ v := by
  have hne := Text.splitOn_ne_nil '/' v
  have hr := (relative_joinWith hne fun s hs => (hv s hs).segment).2
  rw [Text.joinWith_splitOn] at hr
  obtain ⟨done, -, hdone, hc⟩ := normalComponents_join_append base hd v
  have hf : (splitOn '/' v).filterMap Component.ofSegment? = (splitOn '/' v).map .normal :=
    List.filterMap_eq_map_iff_forall_eq_some.mpr fun s hs => (hv s hs).ofSegment?
  rw [hf, foldl_collapse_normal, List.reverse_append, List.reverse_reverse, hdone hr] at hc
  have hn := normalize_normalize (base.join ⟨d⟩)
  have hj : (base.join ⟨d ++ v⟩).normalize = (base.join ⟨d⟩).normalize.join ⟨v⟩ := by
    have hnj := normalize_join_names hn hne hv
    have hcj := normalComponents_join_names (base.join ⟨d⟩).normalize hv
    rw [Text.joinWith_splitOn] at hnj hcj
    rw [← hnj, normalize_eq_iff, hc, hcj, normalComponents_normalize]
  rw [hj]
  exact text_join_of_relative
    (text_ne_nil (isAbsolute_normalize (isAbsolute_join_left hbase _))) hr

theorem length_normalize_join_lt (hbase : base.isAbsolute = true)
    (hd : d = [] ∨ d.getLast? = some '/') {v : Text} (hne : v ≠ [])
    (hv : ∃ s ∈ splitOn '/' v, ¬IsName s) :
    (base.join ⟨d ++ v⟩).normalize.text.length <
      (base.join ⟨d⟩).normalize.opened.length + v.length := by
  obtain ⟨done, hdone, -, hc⟩ := normalComponents_join_append base hd v
  have hlt := (width_segments (fun s hs => Text.not_mem_of_mem_splitOn hs) done).2 hv
  have hle := (length_normalize (isAbsolute_join_left hbase ⟨d ++ v⟩)).2
  have ho := (length_normalize (isAbsolute_join_left hbase ⟨d⟩)).1
  have hpos := List.length_pos_of_ne_nil hne
  rw [hc, width_reverse] at hle
  rw [Text.following_of_ne_nil '/' (Text.splitOn_ne_nil '/' v), Text.joinWith_splitOn,
    List.length_cons] at hlt
  omega

/-- A name at the end of the segments is the name that the path ends with. -/
theorem text_normalize_join_last (hbase : base.isAbsolute = true)
    (hd : d = [] ∨ d.getLast? = some '/') {u z : Text} (hu : u = [] ∨ u.getLast? = some '/')
    (hz : IsName z) : ∃ e, (base.join ⟨d ++ (u ++ z)⟩).normalize.text = e ++ '/' :: z := by
  obtain ⟨done, -, -, hc⟩ := normalComponents_join_append base hd (u ++ z)
  obtain ⟨init, hs⟩ : ∃ init, splitOn '/' (u ++ z) = init ++ [z] := by
    have hsz := Text.splitOn_of_not_mem hz.no_slash
    rcases hu with rfl | hu
    · exact ⟨[], hsz⟩
    · obtain ⟨t, rfl⟩ := List.getLast?_eq_some_iff.mp hu
      exact ⟨splitOn '/' t, by simp [Text.splitOn_append, hsz]⟩
  rw [hs, List.filterMap_append, List.foldl_append, List.filterMap_cons_some hz.ofSegment?] at hc
  have hl := foldl_collapse_normal
    ((init.filterMap Component.ofSegment?).foldl collapse done) [z]
  rw [List.map_singleton] at hl
  rw [List.filterMap_nil, hl, List.reverse_append, List.reverse_reverse] at hc
  obtain ⟨names, hnames, hn⟩ := exists_names (isAbsolute_join_left hbase ⟨d ++ (u ++ z)⟩)
  cases names using List.reverseRecOn with
  | nil =>
    rw [hn] at hc
    simp [List.singleton_eq_append_iff] at hc
  | append_singleton names n =>
    have hlast := hn.symm.trans hc
    rw [List.map_append, ← List.cons_append] at hlast
    obtain rfl : n = z := by simpa using (List.append_inj' hlast rfl).2
    obtain ⟨e, he⟩ := List.getLast?_eq_some_iff.mp
      (getLast?_opened (ofComponents (.root :: names.map .normal)))
    refine ⟨e, ?_⟩
    rw [normalize, hn, text_ofComponents_concat (List.forall_mem_append.mp hnames).1 hz, he]
    simp

end

end ImportAlias.Path
