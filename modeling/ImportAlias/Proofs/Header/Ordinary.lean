import ImportAlias.Proofs.Header.Scan
import ImportAlias.Proofs.Region
import Mathlib.Data.List.Induction
import Mathlib.Data.List.Infix

/-! On ordinary lines, the scanner of a header knows where comments and literals are. -/
namespace ImportAlias

namespace Region

/-- The only character of the text that can end a line comment is a final carriage return. -/
def unbroken : Text → Bool
  | [] => true
  | ['\r'] => true
  | c :: t => !isTerminator c && unbroken t

theorem unbroken_cons {c : Char} {t : Text} (h : unbroken (c :: t) = true) :
    (isTerminator c = false ∨ c = '\r' ∧ t = []) ∧ unbroken t = true := by
  unfold unbroken at h
  split at h
  · rename_i he
    cases he
  · rename_i he
    obtain ⟨rfl, rfl⟩ := List.cons.inj he
    exact ⟨.inr ⟨rfl, rfl⟩, rfl⟩
  · rename_i he
    obtain ⟨rfl, rfl⟩ := List.cons.inj he
    simp only [Bool.and_eq_true, Bool.not_eq_true'] at h
    exact ⟨.inl h.1, h.2⟩

theorem unbroken_append {s t : Text} (h : unbroken (s ++ t) = true) :
    unbroken t = true ∧ (t ≠ [] → ∀ c ∈ s, isTerminator c = false) := by
  induction s with
  | nil => exact ⟨h, fun _ c hc => by cases hc⟩
  | cons d s ih =>
    obtain ⟨hd, hs⟩ := unbroken_cons h
    obtain ⟨ht, hc⟩ := ih hs
    refine ⟨ht, fun hne c hm => ?_⟩
    rcases List.mem_cons.mp hm with rfl | hm
    · refine hd.resolve_right fun ⟨_, hnil⟩ => hne ?_
      exact (List.append_eq_nil_iff.mp hnil).2
    · exact hc hne c hm

theorem step_code_of_quiet {c : Char} (h : Header.isQuiet c) : code.step c = code := by
  simp only [Header.isQuiet, Bool.and_eq_true, bne_iff_ne, ne_eq] at h
  simp [step, opened, h]

theorem run_code_of_quiet {s : Text} (h : Header.Quiet s) (t : Text) :
    code.run (s ++ t) = code.run t := by
  induction s with
  | nil => rfl
  | cons c s ih =>
    obtain ⟨hc, hs⟩ := List.forall_mem_cons.mp h
    rw [List.cons_append, run_cons, step_code_of_quiet hc, ih hs]

/-- A line comment ends with its line. -/
theorem run_lineComment {t : Text} (h : unbroken t = true) :
    lineComment.run (t ++ ['\n']) = code := by
  induction t with
  | nil => rfl
  | cons c t ih =>
    obtain ⟨hc | ⟨rfl, rfl⟩, ht⟩ := unbroken_cons h
    · rw [List.cons_append, run_cons, step, if_neg (by simp [hc]), ih ht]
    · rfl

/-- Without its quote and line breaks, a text keeps a literal open unless it ends with a
backslash. -/
theorem run_literal {q : Char} {s : Text} (hq : q ∉ s) (hb : ∀ c ∈ s, c ≠ '\n' ∧ c ≠ '\r')
    (hl : s.getLast? ≠ some '\\') : (literal q).run s = literal q := by
  have h : (literal q).run s = literal q ∨
      (literal q).run s = escape q ∧ s.getLast? = some '\\' := by
    clear hl
    induction s using List.reverseRecOn with
    | nil => exact .inl rfl
    | append_singleton s c ih =>
      obtain ⟨hq', hc⟩ := not_or.mp (mt List.mem_append.mpr hq)
      obtain ⟨hb', hbc⟩ := List.forall_mem_append.mp hb
      have hc : c ≠ q := fun h => hc (by simp [h])
      have hbc := hbc c (by simp)
      rw [run_append]
      rcases ih hq' hb' with hr | ⟨hr, -⟩
      · by_cases hs : c = '\\'
        · subst hs
          right
          simp [hr, step, within, hc]
        · left
          simp [hr, step, within, hs, hc, hbc]
      · left
        simp [hr, step, hbc]
  exact h.resolve_right fun h => hl h.2

private theorem run_star {c : Char} (hc : c ≠ '/') (t : Text) :
    star.run (c :: t) = blockComment.run (c :: t) := by
  simp [step, hc]

end Region

namespace Header

open Region (code literal unbroken)

/-- The region that a state of the scanner stands for, at the start of a line. -/
def State.region : State → Region
  | .comment => .blockComment
  | _ => .code

theorem run_comments {inside : Bool} {t : Text} {next : State}
    (h : comments? inside t = some next) (hu : unbroken t = true) :
    (if inside then Region.blockComment else .code).run (t ++ ['\n']) = next.region := by
  fun_induction comments? inside t with
  | case1 => cases h; rfl
  | case2 t ih => exact ih h (Region.unbroken_append (s := ['*', '/']) hu).1
  | case3 c t hne ih =>
    have hi := ih h (Region.unbroken_cons hu).2
    by_cases hc : c = '*'
    · subst hc
      cases t with
      | nil => exact hi
      | cons d t =>
        have hd : d ≠ '/' := fun hd => hne t rfl (by rw [hd])
        exact (Region.run_star hd (t ++ ['\n'])).trans hi
    · change (Region.step .blockComment c).run (t ++ ['\n']) = _
      rw [Region.step, if_neg hc]
      exact hi
  | case4 => cases h; rfl
  | case5 t =>
    cases h
    exact Region.run_lineComment (Region.unbroken_append (s := ['/', '/']) hu).1
  | case6 t ih => exact ih h (Region.unbroken_append (s := ['/', '*']) hu).1
  | case7 c t hs hb hc ih =>
    have hi := ih h (Region.unbroken_cons hu).2
    change (code.step c).run (t ++ ['\n']) = _
    rw [Region.step_code_of_quiet (isQuiet_of_isBlank hc)]
    exact hi
  | case8 => cases h

private theorem comments?_of_cut {body l rest : Text}
    (h : Text.cut? ['*', '/'] body = some (l, rest)) :
    comments? true body = comments? false rest := by
  induction body generalizing l with
  | nil => simp [Text.cut?] at h
  | cons c t ih =>
    unfold Text.cut? at h
    split at h
    · rename_i u hu
      cases h
      rw [Text.after?_eq_some.mp hu]
      rfl
    · rename_i hn
      obtain ⟨⟨l', r'⟩, ht, he⟩ := Option.map_eq_some_iff.mp h
      cases he
      have hstep : c = '*' → t.head? ≠ some '/' := by
        rintro rfl hh
        obtain ⟨u, rfl⟩ := List.head?_eq_some_iff.mp hh
        simp [Text.after?] at hn
      rw [comments?_inside_cons hstep, ih ht]

private theorem comments?_of_blank {t : Text} (h : blanks t = []) :
    comments? false t = some .statement := by
  induction t with
  | nil => rfl
  | cons c t ih =>
    by_cases hc : Text.isBlank c
    · rw [comments?_blank_cons hc, ih (by simpa [blanks, hc] using h)]
    · simp [blanks, hc] at h

/-- The rest of a line after a statement ends outside comments and literals. -/
theorem run_isTail {t : Text} (h : isTail t) (hu : unbroken t = true) :
    code.run (t ++ ['\n']) = .code := by
  obtain ⟨a, ha, hqa, -⟩ := skips_blanks (t := t) rfl
  obtain ⟨b, hb, hqb⟩ : ∃ b, blanks t = b ++ (skip? ";" (blanks t)).getD (blanks t) ∧ Quiet b := by
    cases hs : skip? ";" (blanks t) with
    | none => exact ⟨[], rfl, quiet_nil⟩
    | some u => exact ⟨[';'], Text.after?_eq_some.mp hs, by decide⟩
  obtain ⟨c, hc, hqc, -⟩ := skips_blanks (t := (skip? ";" (blanks t)).getD (blanks t)) rfl
  generalize hv : blanks ((skip? ";" (blanks t)).getD (blanks t)) = v at hc
  have ht : t = (a ++ b ++ c) ++ v := by
    rw [ha, hb, hc]
    simp
  have hcom : comments? false v = some .statement := by
    unfold isTail at h
    simp only [hv] at h
    split at h
    · rfl
    · rfl
    · rename_i body
      split at h
      · rename_i l rest hcut
        exact (comments?_of_cut hcut).trans (comments?_of_blank (by simpa using h))
      · cases h
    · cases h
  rw [ht] at hu ⊢
  rw [List.append_assoc _ v, Region.run_code_of_quiet ((hqa.append hqb).append hqc)]
  exact run_comments hcom (Region.unbroken_append hu).1

/-- The brace list of a line, if no quote, slash or backslash stands before it. -/
def listOf? (line : Text) : Option Text :=
  match line.dropWhile isQuiet with
  | '\x7b' :: t => (Text.cutAt? '\x7d' t).map Prod.fst
  | _ => none

/-- Lines as people write them: no odd line breaks, no escaped quotes, no brace list that ends
inside a comment or a literal of its own, and no hashbang but at the start of the line. -/
structure Ordinary (line : Text) : Prop where
  unbroken : unbroken line = true
  unescaped : ¬['\\', '"'] <:+: line ∧ ¬['\\', '\x27'] <:+: line
  closed : ∀ list ∈ listOf? line, code.run (list ++ ['\x7d']) = code
  hashbang : Text.startsWith ['#', '!'] (blanks line) → Text.startsWith ['#', '!'] line

instance (line : Text) : Decidable (Ordinary line) :=
  decidable_of_iff (unbroken line = true ∧
      (¬['\\', '"'] <:+: line ∧ ¬['\\', '\x27'] <:+: line) ∧
      (∀ list ∈ listOf? line, code.run (list ++ ['\x7d']) = code) ∧
      (Text.startsWith ['#', '!'] (blanks line) → Text.startsWith ['#', '!'] line))
    ⟨fun ⟨h₁, h₂, h₃, h₄⟩ => ⟨h₁, h₂, h₃, h₄⟩, fun ⟨h₁, h₂, h₃, h₄⟩ => ⟨h₁, h₂, h₃, h₄⟩⟩

theorem Lead.run_code {lead u : Text} (h : Lead lead) (ho : Ordinary (lead ++ u)) :
    code.run lead = code := by
  cases h with
  | plain ha =>
    have := Region.run_code_of_quiet ha []
    simpa using this
  | @braced a b d ha hb hd =>
    have hlist : listOf? ((a ++ '\x7b' :: (b ++ '\x7d' :: d)) ++ u) = some b := by
      have hcut : Text.cutAt? '\x7d' (b ++ '\x7d' :: (d ++ u)) = some (b, d ++ u) :=
        Text.cutAt?_eq_some.mpr ⟨rfl, hb⟩
      have he : (a ++ '\x7b' :: (b ++ '\x7d' :: d)) ++ u =
          a ++ '\x7b' :: (b ++ '\x7d' :: (d ++ u)) := by simp
      unfold listOf?
      rw [he, dropWhile_quiet ha (by decide)]
      simp [hcut]
    have hc := ho.closed b hlist
    have hd' := Region.run_code_of_quiet hd []
    rw [Region.run_code_of_quiet ha]
    change code.run (b ++ '\x7d' :: d) = code
    rw [show b ++ '\x7d' :: d = (b ++ ['\x7d']) ++ d by simp, Region.run_append, hc]
    simpa using hd'

/-- On an ordinary line, the quotes of a slot are those of a literal, and the line ends in code. -/
theorem IsSlot.regions {line lead tail : Text} {q : Quoted} {c : Char}
    (h : IsSlot line q lead c tail) (hl : Lead lead) (ho : Ordinary line) :
    code.run lead = code ∧ (literal c).run q.body = literal c ∧
      code.run (line ++ ['\n']) = code := by
  have ht := h.text_eq
  subst ht
  have hlead := hl.run_code ho
  have hbody : (literal c).run q.body = literal c := by
    obtain ⟨hrest, -⟩ := Region.unbroken_append ho.unbroken
    have hterm := (Region.unbroken_append (Region.unbroken_cons hrest).2).2 (by simp)
    refine Region.run_literal h.fresh (fun d hd => ?_) fun hl => ?_
    · have hd := hterm d hd
      constructor <;> rintro rfl <;> simp [Region.isTerminator] at hd
    · obtain ⟨s, hs⟩ := List.getLast?_eq_some_iff.mp hl
      have hin : ['\\', c] <:+: lead ++ c :: (q.body ++ c :: tail) :=
        ⟨lead ++ c :: s, tail, by simp [hs]⟩
      rcases h.quote with rfl | rfl
      · exact ho.unescaped.1 hin
      · exact ho.unescaped.2 hin
  refine ⟨hlead, hbody, ?_⟩
  obtain ⟨pre, rest, rfl, hpre, hrest⟩ := h.trails
  have hopen : code.step c = literal c := by
    rcases h.quote with rfl | rfl <;> rfl
  have hclose : (literal c).step c = code := by simp [Region.step, Region.within]
  have hu : unbroken rest = true := by
    have := ho.unbroken
    rw [show lead ++ c :: (q.body ++ c :: (pre ++ rest)) =
      (lead ++ c :: (q.body ++ c :: pre)) ++ rest by simp] at this
    exact (Region.unbroken_append this).1
  calc code.run ((lead ++ c :: (q.body ++ c :: (pre ++ rest))) ++ ['\n'])
      = code.run (lead ++ (c :: (q.body ++ (c :: (pre ++ (rest ++ ['\n'])))))) := by simp
    _ = code.run (pre ++ (rest ++ ['\n'])) := by
      rw [Region.run_append, hlead, Region.run_cons, hopen, Region.run_append, hbody,
        Region.run_cons, hclose]
    _ = code := by rw [Region.run_code_of_quiet hpre, run_isTail hrest hu]

/-- A reader that ends inside a brace list which it has opened. -/
def Opens (f : Text → Option Unit) : Prop :=
  ∀ ⦃t⦄, f t = some () → ∃ a b rest, t = a ++ '\x7b' :: (b ++ rest) ∧ Quiet a ∧ Quiet b ∧
    isListEnd rest = true

theorem Opens.bind {f : Text → Option Unit} {skipped? : Text → Option Text} (hs : Skips skipped?)
    (hf : Opens f) : Opens fun t => (skipped? t).bind f := by
  intro t h
  obtain ⟨u, hu, hq⟩ := Option.bind_eq_some_iff.mp h
  obtain ⟨pre, rfl, hpre, -⟩ := hs hu
  obtain ⟨a, b, rest, rfl, ha, hb⟩ := hf hq
  exact ⟨pre ++ a, b, rest, by simp, hpre.append ha, hb⟩

theorem Opens.optionally {f : Text → Option Unit} {skipped? : Text → Option Text}
    (hs : Skips skipped?) (hf : Opens f) : Opens (Header.optionally skipped? f) := by
  rw [optionally_eq]
  intro t h
  rcases Option.or_eq_some_iff.mp h with h | ⟨-, h⟩
  · exact hf.bind hs h
  · exact hf h

theorem opens_listOpening : Opens listOpening? := by
  intro t h
  obtain ⟨u, hu, hq⟩ := Option.bind_eq_some_iff.mp h
  split_ifs at hq with hend
  obtain ⟨b, hb, hquiet, -⟩ := skips_items false (t := u) rfl
  refine ⟨[], b, items false u, ?_, quiet_nil, hquiet, hend⟩
  rw [List.nil_append, ← hb]
  exact Text.after?_eq_some.mp hu

theorem run_isListEnd {t : Text} (h : isListEnd t = true) (hu : unbroken t = true) :
    code.run (t ++ ['\n']) = code := by
  have hc : comments? false t = some .statement := by
    unfold isListEnd at h
    split at h
    · rfl
    · rfl
    · cases h
  exact run_comments hc hu

theorem Opens.run_code {f : Text → Option Unit} (hf : Opens f) {line : Text}
    (h : (f line).isSome) (hu : unbroken line = true) : code.run (line ++ ['\n']) = code := by
  obtain ⟨⟨⟩, hs⟩ := Option.isSome_iff_exists.mp h
  obtain ⟨a, b, rest, rfl, ha, hb, hend⟩ := hf hs
  have hrest : unbroken rest = true := by
    rw [show a ++ '\x7b' :: (b ++ rest) = (a ++ '\x7b' :: b) ++ rest by simp] at hu
    exact (Region.unbroken_append hu).1
  rw [List.append_assoc, Region.run_code_of_quiet ha, List.cons_append, Region.run_cons,
    List.append_assoc]
  change code.run (b ++ (rest ++ ['\n'])) = code
  rw [Region.run_code_of_quiet hb, run_isListEnd hend hrest]

end Header

end ImportAlias
