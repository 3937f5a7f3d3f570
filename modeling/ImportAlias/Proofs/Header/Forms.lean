import ImportAlias.Header.Basic
import ImportAlias.Proofs.Header.Slot

/-! The slots of the statement forms of a header line. -/
namespace ImportAlias.Header

open Text (isBlank isNameChar after?_eq_some before?_eq_some)

variable {f g : Text → Option Quoted} {skipped? : Text → Option Text}

theorem Finds.or (hf : Finds Lead f) (hg : Finds Lead g) : Finds Lead fun t => (f t).or (g t) := by
  intro t q h
  rcases Option.or_eq_some_iff.mp h with h | ⟨-, h⟩
  · exact hf h
  · exact hg h

theorem Finds.optionally (hs : Skips skipped?) (hf : Finds Lead f) :
    Finds Lead (optionally skipped? f) := by
  rw [optionally_eq]
  exact (hf.bind hs fun _ _ => Lead.append).or hf

theorem trails_of_isTail (t : Text) (h : isTail t) : Trails t :=
  ⟨[], t, rfl, quiet_nil, h⟩

theorem keeps_source : Keeps Quiet source? := by
  have h := ((keeps_quotedBefore trails_of_isTail).blanks fun _ _ => Quiet.append).bind
    (skips_skip (s := "from") (by decide)) fun _ _ => Quiet.append
  exact h

theorem keeps_blanks_source : Keeps Quiet fun t => source? (blanks t) :=
  keeps_source.blanks fun _ _ => Quiet.append

theorem clause?_eq (t : Text) : clause? t =
    if t.head? = some '\x7b' then (braces? t).bind fun t => source? (blanks t)
    else if t.head? = some '*' then
      (skip? "*" t).bind fun t => (some (blanks t)).bind fun t => (keyword? "as" t).bind fun t =>
        (skipName? t).bind fun t => (blanks? t).bind source?
    else (skipName? t).bind fun t => (blanks? t).bind source? := by
  unfold clause?
  split
  · simp [bind]
  · rename_i u
    have hu : skip? "*" ('*' :: u) = some u := after?_eq_some.mpr rfl
    simp [hu, bind]
  · rename_i h₁ h₂
    cases t with
    | nil => simp [bind]
    | cons c t =>
      have hc₁ : c ≠ '\x7b' := fun h => h₁ t (by rw [h])
      have hc₂ : c ≠ '*' := fun h => h₂ t (by rw [h])
      simp [hc₁, hc₂, bind]

theorem keeps_clause : Keeps Lead clause? := by
  have hn : Keeps Quiet fun t => (skipName? t).bind fun t => (blanks? t).bind source? :=
    (keeps_source.bind skips_blanks? fun _ _ => Quiet.append).bind skips_name
      fun _ _ => Quiet.append
  have hs := ((hn.bind (skips_keyword (s := "as") (by decide)) fun _ _ => Quiet.append).bind
    skips_blanks fun _ _ => Quiet.append).bind (skips_skip (s := "*") (by decide))
      fun _ _ => Quiet.append
  have h := keeps_blanks_source.braces.byHead (p := fun c => c = some '\x7b')
    (hs.lead.byHead (p := fun c => c = some '*') hn.lead)
  exact (funext clause?_eq : clause? = _) ▸ h

theorem keeps_importFrom : Keeps Lead importFrom? := by
  have hc := (keeps_clause.optionally skips_defaultName).optionally
    (skips_keyword (s := "type") (by decide))
  have h := (hc.bind (skips_keyword (s := "import") (by decide)) fun _ _ => Lead.append).blanks
    fun _ _ => Lead.append
  exact h

theorem keeps_importOnly : Keeps Lead importOnly? := by
  have hq := (keeps_quotedBefore trails_of_isTail).blanks fun _ _ => Quiet.append
  have h := (hq.bind (skips_skip (s := "import") (by decide)) fun _ _ => Quiet.append).blanks
    fun _ _ => Quiet.append
  exact h.lead

/-- `= require(` up to the quote. -/
def requireOpening? (t : Text) : Option Text :=
  (some (blanks t)).bind fun t => (skip? "=" t).bind fun t => (some (blanks t)).bind fun t =>
    (skip? "require" t).bind fun t => (some (blanks t)).bind fun t => (skip? "(" t).bind fun t =>
      some (blanks t)

theorem skips_requireOpening : Skips requireOpening? :=
  skips_blanks.bind ((skips_skip (by decide)).bind (skips_blanks.bind ((skips_skip (by decide)).bind
    (skips_blanks.bind ((skips_skip (by decide)).bind skips_blanks)))))

/-- The end of a line after the quote of a `require`, past its parenthesis. -/
def endsRequire (ends : Text → Bool) (t : Text) : Bool :=
  ((skip? ")" (blanks t)).map ends).getD false

theorem trails_endsRequire {ends : Text → Bool} (he : ∀ t, ends t → Trails t) (t : Text)
    (h : endsRequire ends t) : Trails t := by
  unfold endsRequire at h
  cases hs : skip? ")" (blanks t) with
  | none => simp [hs] at h
  | some u =>
    obtain ⟨pre, ht, hq, -⟩ := skips_blanks.bind (skips_skip (s := ")") (by decide)) hs
    obtain ⟨mid, rest, rfl, hm, hr⟩ := he u (by simpa [hs] using h)
    exact ⟨pre ++ mid, rest, by simp [ht], hq.append hm, hr⟩

private theorem required?_bind (ends : Text → Bool) (t : Text) :
    ((required? t).bind fun p => if ends p.2 then some p.1 else none) =
      (requireOpening? t).bind (quotedBefore (endsRequire ends)) := by
  have hr : required? t = (requireOpening? t).bind fun t => (quoted? t).bind fun q =>
      (skip? ")" (blanks q.after)).bind fun rest => some (q, rest) := by
    simp [required?, requireOpening?, bind, Option.bind_assoc]
  rw [hr, Option.bind_assoc]
  congr 1
  funext u
  unfold quotedBefore
  rw [Option.bind_assoc]
  congr 1
  funext q
  unfold endsRequire
  cases skip? ")" (blanks q.after) <;> simp

theorem assigned?_eq (t : Text) :
    assigned? t = (requireOpening? t).bind (quotedBefore (endsRequire isTail)) :=
  required?_bind isTail t

theorem keeps_assigned : Keeps Quiet assigned? := by
  have h := (keeps_quotedBefore (trails_endsRequire trails_of_isTail)).bind skips_requireOpening
    fun _ _ => Quiet.append
  exact (funext assigned?_eq : assigned? = _) ▸ h

theorem head?_of_skip {s : String} {t r : Text} (h : skip? s t = some r) (hs : s.toList ≠ []) :
    t.head? = s.toList.head? := by
  rw [after?_eq_some.mp h]
  cases hl : s.toList with
  | nil => exact absurd hl hs
  | cons c s => rfl

theorem head?_of_keyword {s : String} {t r : Text} (h : keyword? s t = some r)
    (hs : s.toList ≠ []) : t.head? = s.toList.head? := by
  obtain ⟨u, hu, -⟩ := Option.bind_eq_some_iff.mp h
  exact head?_of_skip hu hs

/-- `import a = require("…")` without what may export it. -/
def importEqualsFrom? (t : Text) : Option Quoted :=
  (keyword? "import" t).bind (optionally (keyword? "type") fun t => (skipName? t).bind assigned?)

theorem importEquals?_eq (line : Text) : importEquals? line =
    (fun t => if t.head? = some 'e' then (keyword? "export" t).bind importEqualsFrom?
      else importEqualsFrom? t) (blanks line) := by
  have he : importEquals? line =
      importEqualsFrom? ((keyword? "export" (blanks line)).getD (blanks line)) := rfl
  rw [he]
  cases hk : keyword? "export" (blanks line) with
  | some u =>
    have hh := head?_of_keyword hk (by decide)
    simp [hh, hk]
  | none =>
    by_cases hh : (blanks line).head? = some 'e'
    · have hn : keyword? "import" (blanks line) = none := by
        rw [Option.eq_none_iff_forall_ne_some]
        intro r hr
        have := hh.symm.trans (head?_of_keyword hr (by decide))
        simp at this
      simp [hh, hk, importEqualsFrom?, hn]
    · simp [hh]

theorem keeps_importEquals : Keeps Lead importEquals? := by
  have ha := (keeps_assigned.bind skips_name fun _ _ => Quiet.append).lead
  have hf : Keeps Lead importEqualsFrom? :=
    (ha.optionally (skips_keyword (by decide))).bind (skips_keyword (by decide))
      fun _ _ => Lead.append
  have he := hf.bind (skips_keyword (s := "export") (by decide)) fun _ _ => Lead.append
  have h := (he.byHead (p := fun c => c = some 'e') hf).blanks fun _ _ => Lead.append
  exact (funext importEquals?_eq : importEquals? = _) ▸ h

def declares? (t : Text) : Option Text :=
  (keyword? "const" t).or ((keyword? "let" t).or (keyword? "var" t))

private theorem keyword?_eq_none {s s' : String} {t : Text} (h : (keyword? s t).isSome)
    (hs : s.toList ≠ []) (hs' : s'.toList ≠ []) (hne : s.toList.head? ≠ s'.toList.head?) :
    keyword? s' t = none := by
  obtain ⟨r, hr⟩ := Option.isSome_iff_exists.mp h
  rw [Option.eq_none_iff_forall_ne_some]
  intro r' hr'
  exact hne ((head?_of_keyword hr hs).symm.trans (head?_of_keyword hr' hs'))

theorem keyword?_let_eq_none {t : Text} (h : (keyword? "var" t).isSome) : keyword? "let" t = none :=
  keyword?_eq_none h (by decide) (by decide) (by decide)

theorem keyword?_const_eq_none {t : Text} (h : ((keyword? "let" t).or (keyword? "var" t)).isSome) :
    keyword? "const" t = none := by
  rcases (Bool.or_eq_true _ _).mp (by simpa using h) with h | h
  · exact keyword?_eq_none h (by decide) (by decide) (by decide)
  · exact keyword?_eq_none h (by decide) (by decide) (by decide)

theorem skips_declares : Skips declares? :=
  (skips_keyword (by decide)).or ((skips_keyword (by decide)).or (skips_keyword (by decide))
    fun _ => keyword?_let_eq_none) fun _ => keyword?_const_eq_none

theorem binding?_eq (line : Text) : binding? line =
    (declares? (blanks line)).bind fun t =>
      if t.head? = some '\x7b' then braces? t else skipName? t := by
  unfold binding? declares?
  simp only [bind]
  congr 1
  funext t
  split
  · simp
  · rename_i h
    cases t with
    | nil => simp
    | cons c t =>
      have hc : c ≠ '\x7b' := fun hc => h t (by rw [hc])
      simp [hc]

def declared? (ends : Text → Bool) (line : Text) : Option Quoted :=
  (binding? line).bind fun t => (requireOpening? t).bind (quotedBefore (endsRequire ends))

theorem declared?_eq (ends : Text → Bool) : declared? ends = fun line =>
    (declares? (blanks line)).bind fun t =>
      if t.head? = some '\x7b' then
        (braces? t).bind fun t => (requireOpening? t).bind (quotedBefore (endsRequire ends))
      else
        (skipName? t).bind fun t => (requireOpening? t).bind (quotedBefore (endsRequire ends)) := by
  funext line
  unfold declared?
  rw [binding?_eq, Option.bind_assoc]
  congr 1
  funext t
  split_ifs <;> rfl

theorem keeps_declared {ends : Text → Bool} (he : ∀ t, ends t → Trails t) :
    Keeps Lead (declared? ends) := by
  have hq := (keeps_quotedBefore (trails_endsRequire he)).bind skips_requireOpening
    fun _ _ => Quiet.append
  have hn := hq.bind skips_name fun _ _ => Quiet.append
  have hd := ((hq.braces.byHead (p := fun c => c = some '\x7b') hn.lead).bind skips_declares
    fun _ _ => Lead.append).blanks fun _ _ => Lead.append
  rw [declared?_eq]
  exact hd

theorem requireAssignment?_eq : requireAssignment? = declared? isTail := by
  funext line
  simp [requireAssignment?, declared?, (funext assigned?_eq : assigned? = _)]

theorem keeps_requireAssignment : Keeps Lead requireAssignment? :=
  requireAssignment?_eq ▸ keeps_declared trails_of_isTail

theorem keeps_editable : Keeps Lead editable? := by
  have h := keeps_importFrom.or
    (keeps_importOnly.or (keeps_importEquals.or keeps_requireAssignment))
  exact h

theorem keeps_listSource : Keeps Quiet listSource? := by
  have h := (keeps_blanks_source.bind (skips_skip (s := "\x7d") (by decide))
    fun _ _ => Quiet.append).bind (skips_items false) fun _ _ => Quiet.append
  exact h

/-- The letters that a statement with an editable specifier may start with. -/
theorem head?_of_editable {line : Text} {q : Quoted} (h : editable? line = some q) :
    ∃ c ∈ ['i', 'e', 'c', 'l', 'v'], (blanks line).head? = some c := by
  have hi : ∀ t r, keyword? "import" t = some r → t.head? = some 'i' :=
    fun t r hr => head?_of_keyword hr (by decide)
  rcases Option.or_eq_some_iff.mp h with h | ⟨-, h⟩
  · obtain ⟨u, hu, -⟩ := Option.bind_eq_some_iff.mp h
    exact ⟨'i', by simp, hi _ u hu⟩
  rcases Option.or_eq_some_iff.mp h with h | ⟨-, h⟩
  · obtain ⟨u, hu, -⟩ := Option.bind_eq_some_iff.mp h
    exact ⟨'i', by simp, head?_of_skip hu (by decide)⟩
  rcases Option.or_eq_some_iff.mp h with h | ⟨-, h⟩
  · rw [importEquals?_eq] at h
    by_cases he : (blanks line).head? = some 'e'
    · exact ⟨'e', by simp, he⟩
    · simp only [he, if_false] at h
      obtain ⟨u, hu, -⟩ := Option.bind_eq_some_iff.mp h
      exact ⟨'i', by simp, hi _ u hu⟩
  · obtain ⟨u, hu, -⟩ := Option.bind_eq_some_iff.mp h
    rw [binding?_eq] at hu
    obtain ⟨v, hv, -⟩ := Option.bind_eq_some_iff.mp hu
    rcases Option.or_eq_some_iff.mp hv with hv | ⟨-, hv⟩
    · exact ⟨'c', by simp, head?_of_keyword hv (by decide)⟩
    rcases Option.or_eq_some_iff.mp hv with hv | ⟨-, hv⟩
    · exact ⟨'l', by simp, head?_of_keyword hv (by decide)⟩
    · exact ⟨'v', by simp, head?_of_keyword hv (by decide)⟩

/-- Names with dots between them after a parenthesis, to the end of the line. -/
def isMembers : Text → Bool
  | '.' :: rest => ((members? false rest).map isTail).getD false
  | _ => false

private theorem members?_quiet {named : Bool} {t r : Text} (h : members? named t = some r) :
    ∃ pre, t = pre ++ r ∧ Quiet pre := by
  induction t generalizing named with
  | nil =>
    cases named
    · simp [members?] at h
    · obtain rfl : [] = r := by simpa [members?] using h
      exact ⟨[], rfl, quiet_nil⟩
  | cons c t ih =>
    unfold members? at h
    split_ifs at h with hn hd hc
    · obtain ⟨pre, rfl, hq⟩ := ih h
      exact ⟨c :: pre, rfl, by simpa [Quiet, isQuiet_of_isNameChar hn] using hq⟩
    · obtain ⟨pre, rfl, hq⟩ := ih h
      have hdot : isQuiet c := by rw [hc]; decide
      exact ⟨c :: pre, rfl, by simpa [Quiet, hdot] using hq⟩
    · obtain rfl : c :: t = r := Option.some.inj h
      exact ⟨[], rfl, quiet_nil⟩

theorem trails_isMembers (t : Text) (h : isMembers t) : Trails t := by
  unfold isMembers at h
  split at h
  · rename_i rest
    cases hm : members? false rest with
    | none => simp [hm] at h
    | some r =>
      obtain ⟨pre, rfl, hq⟩ := members?_quiet hm
      have hdot : isQuiet '.' := by decide
      exact ⟨'.' :: pre, r, rfl, by simpa [Quiet, hdot] using hq, by simpa [hm] using h⟩
  · simp at h

theorem isRequireMember_eq (line : Text) :
    isRequireMember line = (declared? isMembers line).isSome := by
  have hd : declared? isMembers line =
      ((binding? line).bind required?).bind fun p => if isMembers p.2 then some p.1 else none := by
    rw [Option.bind_assoc]
    unfold declared?
    congr 1
    funext t
    exact (required?_bind isMembers t).symm
  rw [hd]
  unfold isRequireMember
  cases (binding? line).bind required? with
  | none => rfl
  | some p =>
    obtain ⟨q, rest⟩ := p
    cases hm : isMembers rest with
    | true =>
      unfold isMembers at hm
      split at hm
      · simp [isMembers, hm]
      · simp at hm
    | false =>
      unfold isMembers at hm
      split at hm
      · simp [isMembers, hm]
      · split <;> simp_all [isMembers]

private theorem finds_nameThenSource : Finds Quiet nameThenSource? := by
  intro t q h
  obtain ⟨⟨n, rest⟩, hn, hq⟩ := Option.bind_eq_some_iff.mp h
  have ht : t = n ++ rest ∧ Quiet n := by
    unfold name? at hn
    split at hn
    · simp at hn
    · obtain ⟨rfl, rfl⟩ := Prod.mk.inj (Option.some.inj hn)
      refine ⟨(List.takeWhile_append_dropWhile).symm, fun c hc => ?_⟩
      exact isQuiet_of_isNameChar (List.mem_takeWhile_imp hc)
  obtain ⟨rfl, hquiet⟩ := ht
  rcases Option.or_eq_some_iff.mp hq with hq | ⟨-, hq⟩
  · obtain ⟨lead, c, tail, hl, hs⟩ := keeps_blanks_source.finds hq
    exact ⟨n ++ lead, c, tail, hquiet.append hl, hs.append n⟩
  · obtain ⟨front, hf, hq⟩ := Option.bind_eq_some_iff.mp hq
    split_ifs at hq
    obtain ⟨lead, c, tail, hl, hs⟩ := keeps_source.finds hq
    have hn' := before?_eq_some.mp hf
    have hfront : Quiet front := fun c hc => hquiet c (by simp [hn', hc])
    refine ⟨front ++ lead, c, tail, hfront.append hl, ?_⟩
    simpa [hn'] using hs.append front

/-- What a re-export passes on, and then the source. -/
def exported? (t : Text) : Option Quoted :=
  match t with
  | '\x7b' :: _ => (braces? t).bind fun t => source? (blanks t)
  | '*' :: t => ((keyword? "as" (blanks t)).bind nameThenSource?).or (source? (blanks t))
  | _ => none

theorem reexport?_eq (line : Text) : reexport? line =
    (keyword? "export" (blanks line)).bind (optionally (keyword? "type") exported?) := rfl

theorem finds_exported : Finds Lead exported? := by
  have hn : Finds Lead nameThenSource? := by
    intro t q h
    obtain ⟨lead, c, tail, hl, hs⟩ := finds_nameThenSource h
    exact ⟨lead, c, tail, .plain hl, hs⟩
  have ha := (hn.bind (skips_keyword (s := "as") (by decide)) fun _ _ => Lead.append).bind
    skips_blanks fun _ _ => Lead.append
  have hs := (ha.or keeps_blanks_source.lead.finds).bind (skips_skip (s := "*") (by decide))
    fun _ _ => Lead.append
  intro t q h
  unfold exported? at h
  split at h
  · exact keeps_blanks_source.braces.finds h
  · rename_i u
    have hu : skip? "*" ('*' :: u) = some u := after?_eq_some.mpr rfl
    exact hs (by simpa [hu] using h)
  · simp at h

theorem finds_reexport : Finds Lead reexport? := by
  have h := ((finds_exported.optionally (skips_keyword (s := "type") (by decide))).bind
    (skips_keyword (s := "export") (by decide)) fun _ _ => Lead.append).bind skips_blanks
      fun _ _ => Lead.append
  exact h

theorem finds_directive {line : Text} (h : isDirective line) :
    ∃ q lead c tail, Lead lead ∧ IsSlot line q lead c tail := by
  unfold isDirective at h
  cases hq : quoted? (blanks line) with
  | none => simp [hq] at h
  | some q =>
    have ht : isTail q.after := by
      simp only [hq, Bool.and_eq_true] at h
      exact h.2
    have hb : quotedBefore isTail (blanks line) = some q := by simp [quotedBefore, hq, ht]
    have hk := (keeps_quotedBefore trails_of_isTail).blanks fun _ _ => Quiet.append
    exact ⟨q, hk.lead.finds hb⟩

theorem finds_passive {line : Text} (h : isRequireMember line ∨ (reexport? line).isSome) :
    ∃ q lead c tail, Lead lead ∧ IsSlot line q lead c tail := by
  rcases h with h | h
  · rw [isRequireMember_eq] at h
    obtain ⟨q, hq⟩ := Option.isSome_iff_exists.mp h
    exact ⟨q, (keeps_declared trails_isMembers).finds hq⟩
  · obtain ⟨q, hq⟩ := Option.isSome_iff_exists.mp h
    exact ⟨q, finds_reexport hq⟩

end ImportAlias.Header
