import ImportAlias.Proofs.Header.Scan

/-! A carriage return at the end of a line is whitespace to every reader of lines: what is read
before it stays the same, and what was not read is not read with it. -/
namespace ImportAlias.Header

open Text (isBlank isNameChar after?_eq_some)

/-! Readers that skip -/

/-- The second text is the first with a carriage return at its end, or nothing is left of both. -/
def Padded (r r' : Text) : Prop := r' = r ++ ['\r'] ∨ r = [] ∧ r' = []

/-- The reader skips the same of a text with a carriage return at its end. If whitespace is wanted
where the text ends, the reader takes the carriage return for it, and nothing is left. -/
def SkipsAlike (f : Text → Option Text) : Prop :=
  ∀ ⦃t t' : Text⦄, Padded t t' →
    (∃ r r', f t = some r ∧ f t' = some r' ∧ Padded r r') ∨
      f t = none ∧ (f t' = none ∨ f t' = some [])

theorem SkipsAlike.nil {f : Text → Option Text} (h : SkipsAlike f) :
    f [] = none ∨ f [] = some [] := by
  rcases h (.inr ⟨rfl, rfl⟩) with ⟨r, r', hr, hr', hp⟩ | ⟨hn, -⟩
  · obtain rfl : r = r' := Option.some.inj (hr.symm.trans hr')
    rcases hp with hp | ⟨rfl, -⟩
    · simp at hp
    · exact .inr hr
  · exact .inl hn

/-- A reader that passes a carriage return on to the rest skips the same before it. -/
theorem skipsAlike_of_append {f : Text → Option Text} (hnil : f [] = none ∨ f [] = some [])
    (h : ∀ t, f (t ++ ['\r']) = (f t).map (· ++ ['\r']) ∨
      f t = some [] ∧ f (t ++ ['\r']) = some []) :
    SkipsAlike f := by
  rintro t t' (rfl | ⟨rfl, rfl⟩)
  · rcases h t with h | ⟨hr, hr'⟩
    · cases hf : f t with
      | none => exact .inr ⟨rfl, .inl (by simp [h, hf])⟩
      | some r => exact .inl ⟨r, r ++ ['\r'], rfl, by simp [h, hf], .inl rfl⟩
    · exact .inl ⟨[], [], hr, hr', .inr ⟨rfl, rfl⟩⟩
  · rcases hnil with hn | hs
    · exact .inr ⟨hn, .inl hn⟩
    · exact .inl ⟨[], [], hs, hs, .inr ⟨rfl, rfl⟩⟩

/-- What a text starts with, it starts with before a carriage return at its end. -/
theorem exists_of_append_return {t p r' : Text} (h : t ++ ['\r'] = p ++ r')
    (hp : p.getLast? ≠ some '\r') : ∃ r, r' = r ++ ['\r'] ∧ t = p ++ r := by
  rcases List.eq_nil_or_concat r' with rfl | ⟨r, c, rfl⟩
  · rw [List.append_nil] at h
    rw [← h] at hp
    simp at hp
  · rw [List.concat_eq_append, ← List.append_assoc] at h
    obtain ⟨ht, hc⟩ := List.append_inj' h rfl
    exact ⟨r, by rw [List.concat_eq_append, ← hc], ht⟩

/-- A reader of what a text may start with, where that never ends with a carriage return. -/
theorem append_return_of_split {f : Text → Option Text} {P : Text → Prop}
    (hf : ∀ t r, f t = some r ↔ ∃ p, t = p ++ r ∧ P p)
    (hP : ∀ p, P p → p.getLast? ≠ some '\r') (t : Text) :
    f (t ++ ['\r']) = (f t).map (· ++ ['\r']) := by
  ext r'
  rw [hf, Option.map_eq_some_iff]
  constructor
  · rintro ⟨p, hp, hPp⟩
    obtain ⟨r, rfl, rfl⟩ := exists_of_append_return hp (hP p hPp)
    exact ⟨r, (hf _ _).mpr ⟨p, rfl, hPp⟩, rfl⟩
  · rintro ⟨r, hr, rfl⟩
    obtain ⟨p, rfl, hPp⟩ := (hf _ _).mp hr
    exact ⟨p, by simp, hPp⟩

theorem skip?_append_return {s : String} (hs : '\r' ∉ s.toList) (t : Text) :
    skip? s (t ++ ['\r']) = (skip? s t).map (· ++ ['\r']) := by
  refine append_return_of_split (P := (· = s.toList)) (fun t r => ?_) (fun p hp hl => ?_) t
  · simp [skip?, after?_eq_some]
  · subst hp
    exact hs (List.mem_of_getLast? hl)

theorem skipsAlike_skip {s : String} (hs : '\r' ∉ s.toList) : SkipsAlike (skip? s) := by
  refine skipsAlike_of_append ?_ fun t => .inl (skip?_append_return hs t)
  cases h : skip? s [] with
  | none => exact .inl rfl
  | some r =>
    have he := after?_eq_some.mp h
    exact .inr (by simp [(List.append_eq_nil_iff.mp he.symm).2])

theorem braces?_append_return (t : Text) :
    braces? (t ++ ['\r']) = (braces? t).map (· ++ ['\r']) := by
  refine append_return_of_split (P := fun p => ∃ b, p = '\x7b' :: (b ++ ['\x7d']) ∧ '\x7d' ∉ b)
    (fun t r => ?_) (fun p hp => ?_) t
  · rw [braces?_eq_some]
    constructor
    · rintro ⟨b, rfl, hb⟩
      exact ⟨_, by simp, b, rfl, hb⟩
    · rintro ⟨p, rfl, b, rfl, hb⟩
      exact ⟨b, by simp, hb⟩
  · obtain ⟨b, rfl, -⟩ := hp
    rw [← List.cons_append, List.getLast?_concat]
    decide

theorem skipsAlike_braces : SkipsAlike braces? :=
  skipsAlike_of_append (.inl rfl) fun t => .inl (braces?_append_return t)

theorem blanks_append_return (t : Text) :
    blanks (t ++ ['\r']) = if blanks t = [] then [] else blanks t ++ ['\r'] := by
  have hr : isBlank '\r' = true := by decide
  unfold blanks
  rw [List.dropWhile_append]
  simp [hr]

theorem skipsAlike_blanks : SkipsAlike fun t => some (blanks t) := by
  refine skipsAlike_of_append (.inr rfl) fun t => ?_
  rw [blanks_append_return]
  split_ifs with h
  · exact .inr ⟨by rw [h], rfl⟩
  · exact .inl rfl

theorem skipsAlike_blanks? : SkipsAlike blanks? := by
  rintro t t' (rfl | ⟨rfl, rfl⟩)
  · cases t with
    | nil => exact .inr ⟨rfl, .inr (by decide)⟩
    | cons c t =>
      by_cases hc : isBlank c
      · simpa [blanks?, hc] using skipsAlike_blanks (.inl (rfl : t ++ ['\r'] = _))
      · exact .inr ⟨by simp [blanks?, hc], .inl (by simp [blanks?, hc])⟩
  · exact .inr ⟨rfl, .inl rfl⟩

theorem name?_append_return (t : Text) :
    name? (t ++ ['\r']) = (name? t).map fun p => (p.1, p.2 ++ ['\r']) := by
  have hr : isNameChar '\r' = false := by decide +kernel
  have htake : (t ++ ['\r']).takeWhile isNameChar = t.takeWhile isNameChar := by
    rw [List.takeWhile_append]
    split_ifs with h
    · have he : t.takeWhile isNameChar = t := (List.takeWhile_prefix isNameChar).eq_of_length h
      simp [hr, he]
    · rfl
  have hdrop : (t ++ ['\r']).dropWhile isNameChar = t.dropWhile isNameChar ++ ['\r'] := by
    rw [List.dropWhile_append]
    split_ifs with h
    · simp [hr, List.isEmpty_iff.mp h]
    · rfl
  unfold name?
  rw [htake, hdrop]
  split <;> rfl

theorem skipsAlike_name : SkipsAlike skipName? := by
  refine skipsAlike_of_append (.inl rfl) fun t => .inl ?_
  unfold skipName?
  rw [name?_append_return, Option.map_map, Option.map_map]
  rfl

theorem items_append_return (named : Bool) (t : Text) :
    items named (t ++ ['\r']) = if items named t = [] then [] else items named t ++ ['\r'] := by
  have hn : isNameChar '\r' = false := by decide +kernel
  have hb : isBlank '\r' = true := by decide
  induction t generalizing named with
  | nil => simp [items, hn, hb]
  | cons c t ih =>
    rw [List.cons_append]
    by_cases hname : isNameChar c
    · simpa [items, hname] using ih true
    · by_cases hblank : isBlank c
      · simpa [items, hname, hblank] using ih named
      · by_cases hcomma : c = ',' ∧ named = true
        · obtain ⟨rfl, rfl⟩ := hcomma
          simpa [items, hname, hblank] using ih false
        · simp [items, hname, hblank, hcomma]

theorem skipsAlike_items (named : Bool) : SkipsAlike fun t => some (items named t) := by
  refine skipsAlike_of_append (.inr rfl) fun t => ?_
  rw [items_append_return]
  split_ifs with h
  · exact .inr ⟨by rw [h], rfl⟩
  · exact .inl rfl

theorem SkipsAlike.bind {f g : Text → Option Text} (hf : SkipsAlike f) (hg : SkipsAlike g) :
    SkipsAlike fun t => (f t).bind g := by
  intro t t' ht
  rcases hf ht with ⟨r, r', hr, hr', hp⟩ | ⟨hn, hn' | hs'⟩
  · simpa [hr, hr'] using hg hp
  · exact .inr ⟨by simp [hn], .inl (by simp [hn'])⟩
  · exact .inr ⟨by simp [hn], by simpa [hs'] using hg.nil⟩

/-- Two readers of which one at most succeeds. -/
theorem SkipsAlike.or {f g : Text → Option Text} (hf : SkipsAlike f) (hg : SkipsAlike g)
    (hfg : ∀ t, (g t).isSome → f t = none) : SkipsAlike fun t => (f t).or (g t) := by
  intro t t' ht
  rcases hf ht with ⟨r, r', hr, hr', hp⟩ | ⟨hn, hn' | hs'⟩
  · exact .inl ⟨r, r', by simp [hr], by simp [hr'], hp⟩
  · simpa [hn, hn'] using hg ht
  · have hg' : g t' = none := by
      by_contra hne
      have := hfg t' (Option.isSome_iff_ne_none.mpr hne)
      simp [hs'] at this
    rcases hg ht with ⟨-, r', -, hr', -⟩ | ⟨hgn, -⟩
    · simp [hg'] at hr'
    · exact .inr ⟨by simp [hn, hgn], .inr (by simp [hs'])⟩

theorem skipsAlike_keyword {s : String} (hs : '\r' ∉ s.toList) : SkipsAlike (keyword? s) :=
  (skipsAlike_skip hs).bind skipsAlike_blanks?

theorem skipsAlike_defaultName : SkipsAlike defaultName? :=
  skipsAlike_name.bind (skipsAlike_blanks.bind
    ((skipsAlike_skip (by decide)).bind skipsAlike_blanks))

/-! Readers that find -/

/-- The reader answers alike for a text with a carriage return at its end. Without a text there is
nothing to answer. -/
structure ReadsAlike {α : Type} (pad : α → α) (f : Text → Option α) : Prop where
  nil : f [] = none
  append_return : ∀ t, f (t ++ ['\r']) = (f t).map pad

/-- The quoted text with a carriage return at the end of its line. -/
def Quoted.padded (q : Quoted) : Quoted := { q with rest := q.rest ++ ['\r'] }

/-- The check does not see a carriage return at the end of a text. -/
def Blind (ends : Text → Bool) : Prop := ∀ t, ends (t ++ ['\r']) = ends t

section

variable {α : Type} {pad : α → α} {f g : Text → Option α} {skipped? : Text → Option Text}

theorem ReadsAlike.padded (hf : ReadsAlike pad f) {t t' : Text} (h : Padded t t') :
    f t' = (f t).map pad := by
  rcases h with rfl | ⟨rfl, rfl⟩
  · exact hf.append_return t
  · simp [hf.nil]

theorem ReadsAlike.bind (hs : SkipsAlike skipped?) (hf : ReadsAlike pad f) :
    ReadsAlike pad fun t => (skipped? t).bind f := by
  refine ⟨?_, fun t => ?_⟩
  · rcases hs.nil with h | h <;> simp [h, hf.nil]
  · rcases hs (.inl (rfl : t ++ ['\r'] = _)) with ⟨r, r', hr, hr', hp⟩ | ⟨hn, hn' | hs'⟩
    · simpa [hr, hr'] using hf.padded hp
    · simp [hn, hn']
    · simp [hn, hs', hf.nil]

theorem ReadsAlike.blanks (hf : ReadsAlike pad f) : ReadsAlike pad fun t => f (blanks t) := by
  have h := hf.bind skipsAlike_blanks
  exact h

theorem ReadsAlike.or (hf : ReadsAlike pad f) (hg : ReadsAlike pad g) :
    ReadsAlike pad fun t => (f t).or (g t) := by
  refine ⟨by simp [hf.nil, hg.nil], fun t => ?_⟩
  rw [hf.append_return, hg.append_return]
  cases f t <;> simp

theorem ReadsAlike.optionally (hs : SkipsAlike skipped?) (hf : ReadsAlike pad f) :
    ReadsAlike pad (optionally skipped? f) := by
  rw [optionally_eq]
  exact (hf.bind hs).or hf

/-- Readers that are chosen by the first character, where a carriage return chooses nothing. -/
theorem ReadsAlike.byHead {c : Char} (hc : c ≠ '\r') (hf : ReadsAlike pad f)
    (hg : ReadsAlike pad g) : ReadsAlike pad fun t => if t.head? = some c then f t else g t := by
  refine ⟨by simp [hg.nil], fun t => ?_⟩
  cases t with
  | nil => simpa [Ne.symm hc] using hg.append_return []
  | cons d t =>
    by_cases hd : d = c
    · simpa [hd] using hf.append_return (d :: t)
    · simpa [hd] using hg.append_return (d :: t)

theorem readsAlike_none : ReadsAlike pad fun _ => none := ⟨rfl, fun _ => rfl⟩

end

theorem quoted?_append_return (t : Text) :
    quoted? (t ++ ['\r']) = (quoted? t).map Quoted.padded := by
  ext q'
  rw [quoted?_eq_some, Option.map_eq_some_iff]
  constructor
  · rintro ⟨c, tail', he, hr, hc, hf⟩
    have hlast : (c :: (q'.body ++ [c])).getLast? ≠ some '\r' := by
      rw [← List.cons_append, List.getLast?_concat]
      rcases hc with rfl | rfl <;> decide
    obtain ⟨tail, rfl, rfl⟩ := exists_of_append_return (p := c :: (q'.body ++ [c]))
      (by simpa using he) hlast
    refine ⟨⟨q'.body, c :: tail⟩, quoted?_eq_some.mpr ⟨c, tail, by simp, rfl, hc, hf⟩, ?_⟩
    simp [Quoted.padded, ← hr]
  · rintro ⟨q, hq, rfl⟩
    obtain ⟨c, tail, rfl, hr, hc, hf⟩ := quoted?_eq_some.mp hq
    exact ⟨c, tail ++ ['\r'], by simp [Quoted.padded], by simp [Quoted.padded, hr], hc, hf⟩

theorem after_padded_of_quoted? {t : Text} {q : Quoted} (h : quoted? t = some q) :
    q.padded.after = q.after ++ ['\r'] := by
  obtain ⟨c, tail, -, hr, -⟩ := quoted?_eq_some.mp h
  simp [Quoted.after, Quoted.padded, hr]

theorem readsAlike_quotedBefore {ends : Text → Bool} (he : Blind ends) :
    ReadsAlike Quoted.padded (quotedBefore ends) := by
  refine ⟨rfl, fun t => ?_⟩
  unfold quotedBefore
  rw [quoted?_append_return]
  cases hq : quoted? t with
  | none => rfl
  | some q =>
    have hends : ends q.padded.after = ends q.after := by rw [after_padded_of_quoted? hq, he]
    simp only [Option.map_some, Option.bind_some, hends]
    split_ifs <;> rfl

/-! What may stand after a statement -/

theorem cut?_append_return {p : Text} (hp : '\r' ∉ p) (hne : p ≠ []) (t : Text) :
    Text.cut? p (t ++ ['\r']) = (Text.cut? p t).map fun q => (q.1, q.2 ++ ['\r']) := by
  have hafter : ∀ t, Text.after? p (t ++ ['\r']) = (Text.after? p t).map (· ++ ['\r']) := by
    intro t
    refine append_return_of_split (P := (· = p)) (fun t r => ?_) (fun q hq hl => ?_) t
    · simp [after?_eq_some]
    · subst hq
      exact hp (List.mem_of_getLast? hl)
  induction t with
  | nil =>
    have hnil := hafter []
    have hn : Text.after? p [] = none := by
      obtain ⟨c, p, rfl⟩ := List.exists_cons_of_ne_nil hne
      rfl
    rw [hn, List.nil_append] at hnil
    simp [Text.cut?, hnil, hne]
  | cons c t ih =>
    rw [List.cons_append]
    unfold Text.cut?
    rw [← List.cons_append, hafter]
    cases Text.after? p (c :: t) with
    | some r => rfl
    | none =>
      simp only [Option.map_none, ih, Option.map_map]
      rfl

theorem blanks_append_return_eq_nil (t : Text) : blanks (t ++ ['\r']) = [] ↔ blanks t = [] := by
  rw [blanks_append_return]
  split_ifs with h <;> simp [h]

/-- The last part of a tail: a comment at most. -/
def isCommentTail : Text → Bool
  | [] => true
  | '/' :: '/' :: _ => true
  | '/' :: '*' :: body =>
    match Text.cut? ['*', '/'] body with
    | some (_, rest) => blanks rest == []
    | none => false
  | _ => false

theorem isTail_eq (t : Text) : isTail t =
    isCommentTail (blanks ((skip? ";" (blanks t)).getD (blanks t))) := rfl

theorem isCommentTail_append_return {t : Text} (h : t ≠ []) :
    isCommentTail (t ++ ['\r']) = isCommentTail t := by
  fun_cases isCommentTail t with
  | case1 => exact absurd rfl h
  | case2 rest => simp [isCommentTail]
  | case3 body l rest hcut =>
    have hc := cut?_append_return (p := ['*', '/']) (by decide) (by decide) body
    simp only [List.cons_append, isCommentTail, hc, hcut, Option.map_some]
    rw [Bool.eq_iff_iff, beq_iff_eq, beq_iff_eq, blanks_append_return_eq_nil]
  | case4 body hcut =>
    have hc := cut?_append_return (p := ['*', '/']) (by decide) (by decide) body
    simp [isCommentTail, hc, hcut]
  | case5 t _ h₂ h₃ =>
    obtain ⟨c, u, rfl⟩ := List.exists_cons_of_ne_nil h
    cases u with
    | nil =>
      unfold isCommentTail
      split <;> simp_all
    | cons d u =>
      unfold isCommentTail
      split <;> simp_all

theorem blind_isTail : Blind isTail := by
  intro t
  rw [isTail_eq, isTail_eq, blanks_append_return]
  by_cases hb : blanks t = []
  · rw [if_pos hb, hb]
  rw [if_neg hb]
  have hs : (skip? ";" (blanks t ++ ['\r'])).getD (blanks t ++ ['\r']) =
      (skip? ";" (blanks t)).getD (blanks t) ++ ['\r'] := by
    rw [skip?_append_return (by decide)]
    cases skip? ";" (blanks t) <;> rfl
  rw [hs, blanks_append_return]
  split_ifs with hn
  · rw [hn]
  · exact isCommentTail_append_return hn

/-- The check passes a reader's rest on to another check. -/
theorem ReadsAlike.blind_map {f : Text → Option Text} {ends : Text → Bool}
    (hf : ReadsAlike (· ++ ['\r']) f) (he : Blind ends) :
    Blind fun t => ((f t).map ends).getD false := by
  intro t
  simp only [hf.append_return]
  cases f t with
  | none => rfl
  | some r => exact he r

theorem ReadsAlike.blind {α : Type} {pad : α → α} {f : Text → Option α} (hf : ReadsAlike pad f) :
    Blind fun t => (f t).isSome := by
  intro t
  simp [hf.append_return]

theorem readsAlike_skip {s : String} (hs : '\r' ∉ s.toList) (hne : s.toList ≠ []) :
    ReadsAlike (· ++ ['\r']) (skip? s) := by
  refine ⟨?_, skip?_append_return hs⟩
  obtain ⟨c, p, hp⟩ := List.exists_cons_of_ne_nil hne
  simp [skip?, hp, Text.after?]

theorem blind_endsRequire {ends : Text → Bool} (he : Blind ends) : Blind (endsRequire ends) :=
  (readsAlike_skip (s := ")") (by decide) (by decide)).blanks.blind_map he

theorem readsAlike_members : ReadsAlike (· ++ ['\r']) (members? false) := by
  have hn : isNameChar '\r' = false := by decide +kernel
  have h : ∀ named t, members? named (t ++ ['\r']) = (members? named t).map (· ++ ['\r']) := by
    intro named t
    induction t generalizing named with
    | nil => cases named <;> simp [members?, hn]
    | cons c t ih =>
      rw [List.cons_append]
      unfold members?
      split_ifs <;> simp_all
  exact ⟨rfl, h false⟩

theorem blind_isMembers : Blind isMembers := by
  have he : isMembers = fun t => (((skip? "." t).bind (members? false)).map isTail).getD false := by
    funext t
    unfold isMembers
    split
    · rename_i rest
      have hs : skip? "." ('.' :: rest) = some rest := after?_eq_some.mpr rfl
      rw [hs]
      rfl
    · rename_i h
      cases hs : skip? "." t with
      | none => rfl
      | some rest => exact absurd (after?_eq_some.mp hs) (h rest)
  rw [he]
  exact (readsAlike_members.bind (skipsAlike_skip (by decide))).blind_map blind_isTail

/-! The statement forms -/

theorem readsAlike_source : ReadsAlike Quoted.padded source? := by
  have h := (readsAlike_quotedBefore blind_isTail).blanks.bind
    (skipsAlike_skip (s := "from") (by decide))
  exact h

theorem readsAlike_clause : ReadsAlike Quoted.padded clause? := by
  have hn : ReadsAlike Quoted.padded fun t =>
      (skipName? t).bind fun t => (blanks? t).bind source? :=
    (readsAlike_source.bind skipsAlike_blanks?).bind skipsAlike_name
  have hs := ((hn.bind (skipsAlike_keyword (s := "as") (by decide))).bind skipsAlike_blanks).bind
    (skipsAlike_skip (s := "*") (by decide))
  have hb := readsAlike_source.blanks.bind skipsAlike_braces
  rw [(funext clause?_eq : clause? = _)]
  exact hb.byHead (by decide) (hs.byHead (by decide) hn)

theorem readsAlike_importFrom : ReadsAlike Quoted.padded importFrom? := by
  have hc := (readsAlike_clause.optionally skipsAlike_defaultName).optionally
    (skipsAlike_keyword (s := "type") (by decide))
  have h := (hc.bind (skipsAlike_keyword (s := "import") (by decide))).blanks
  exact h

theorem readsAlike_importOnly : ReadsAlike Quoted.padded importOnly? := by
  have h := ((readsAlike_quotedBefore blind_isTail).blanks.bind
    (skipsAlike_skip (s := "import") (by decide))).blanks
  exact h

theorem skipsAlike_requireOpening : SkipsAlike requireOpening? :=
  skipsAlike_blanks.bind ((skipsAlike_skip (by decide)).bind (skipsAlike_blanks.bind
    ((skipsAlike_skip (by decide)).bind (skipsAlike_blanks.bind
      ((skipsAlike_skip (by decide)).bind skipsAlike_blanks)))))

theorem readsAlike_required {ends : Text → Bool} (he : Blind ends) : ReadsAlike Quoted.padded
    fun t => (requireOpening? t).bind (quotedBefore (endsRequire ends)) :=
  (readsAlike_quotedBefore (blind_endsRequire he)).bind skipsAlike_requireOpening

theorem readsAlike_importEquals : ReadsAlike Quoted.padded importEquals? := by
  have ha : ReadsAlike Quoted.padded assigned? := by
    rw [(funext assigned?_eq : assigned? = _)]
    exact readsAlike_required blind_isTail
  have hf : ReadsAlike Quoted.padded importEqualsFrom? :=
    ((ha.bind skipsAlike_name).optionally (skipsAlike_keyword (by decide))).bind
      (skipsAlike_keyword (by decide))
  have he := hf.bind (skipsAlike_keyword (s := "export") (by decide))
  rw [(funext importEquals?_eq : importEquals? = _)]
  exact (he.byHead (by decide) hf).blanks

theorem skipsAlike_declares : SkipsAlike declares? :=
  (skipsAlike_keyword (by decide)).or ((skipsAlike_keyword (by decide)).or
    (skipsAlike_keyword (by decide)) fun _ => keyword?_let_eq_none) fun _ => keyword?_const_eq_none

theorem readsAlike_declared {ends : Text → Bool} (he : Blind ends) :
    ReadsAlike Quoted.padded (declared? ends) := by
  have hr := readsAlike_required he
  have h := (((hr.bind skipsAlike_braces).byHead (c := '\x7b') (by decide)
    (hr.bind skipsAlike_name)).bind skipsAlike_declares).blanks
  rw [declared?_eq]
  exact h

theorem readsAlike_editable : ReadsAlike Quoted.padded editable? := by
  have hr : ReadsAlike Quoted.padded requireAssignment? := by
    rw [requireAssignment?_eq]
    exact readsAlike_declared blind_isTail
  have h := readsAlike_importFrom.or (readsAlike_importOnly.or (readsAlike_importEquals.or hr))
  exact h

theorem readsAlike_nameThenSource : ReadsAlike Quoted.padded nameThenSource? := by
  refine ⟨rfl, fun t => ?_⟩
  unfold nameThenSource?
  rw [name?_append_return]
  cases name? t with
  | none => rfl
  | some p =>
    obtain ⟨n, rest⟩ := p
    have hs := readsAlike_source.blanks.append_return rest
    have hf := readsAlike_source.append_return ("from".toList ++ rest)
    rw [List.append_assoc] at hf
    simp only [Option.map_some, bind, Option.bind_some, hs, hf]
    cases source? (blanks rest) with
    | some q => rfl
    | none =>
      cases Text.before? "from".toList n with
      | none => rfl
      | some front =>
        simp only [Option.map_none, Option.none_or, Option.bind_some]
        split_ifs <;> rfl

theorem exported?_eq : exported? = fun t =>
    if t.head? = some '\x7b' then (braces? t).bind fun t => source? (blanks t)
    else if t.head? = some '*' then (skip? "*" t).bind fun t =>
      ((keyword? "as" (blanks t)).bind nameThenSource?).or (source? (blanks t))
    else none := by
  funext t
  unfold exported?
  split
  · rfl
  · rename_i u
    have hu : skip? "*" ('*' :: u) = some u := after?_eq_some.mpr rfl
    simp [hu]
  · rename_i h₁ h₂
    cases t with
    | nil => rfl
    | cons c t =>
      have hc₁ : c ≠ '\x7b' := fun h => h₁ t (by rw [h])
      have hc₂ : c ≠ '*' := fun h => h₂ t (by rw [h])
      simp [hc₁, hc₂]

theorem readsAlike_reexport : ReadsAlike Quoted.padded reexport? := by
  have ha := (readsAlike_nameThenSource.bind (skipsAlike_keyword (s := "as") (by decide))).blanks
  have hs := (ha.or readsAlike_source.blanks).bind (skipsAlike_skip (s := "*") (by decide))
  have he : ReadsAlike Quoted.padded exported? := by
    rw [exported?_eq]
    exact (readsAlike_source.blanks.bind skipsAlike_braces).byHead (by decide)
      (hs.byHead (by decide) readsAlike_none)
  have h := ((he.optionally (skipsAlike_keyword (s := "type") (by decide))).bind
    (skipsAlike_keyword (s := "export") (by decide))).blanks
  exact h

theorem blind_isListLine : Blind isListLine := by
  intro t
  unfold isListLine
  rw [items_append_return]
  split_ifs with h
  · rw [h]
  · obtain ⟨c, u, hu⟩ := List.exists_cons_of_ne_nil h
    rw [hu]
    cases u with
    | nil =>
      unfold isListEnd
      split <;> simp_all
    | cons d u =>
      unfold isListEnd
      split <;> simp_all

theorem readsAlike_listOpening : ReadsAlike id listOpening? := by
  refine ⟨rfl, fun t => ?_⟩
  unfold listOpening?
  rw [skip?_append_return (by decide)]
  cases skip? "\x7b" t with
  | none => rfl
  | some r =>
    have h := blind_isListLine r
    unfold isListLine at h
    simp only [Option.map_some, Option.bind_some, h]
    split_ifs <;> rfl

theorem blind_isImportOpener : Blind isImportOpener := by
  have h := ((((readsAlike_listOpening.optionally skipsAlike_defaultName).optionally
    (skipsAlike_keyword (s := "type") (by decide))).bind
      (skipsAlike_keyword (s := "import") (by decide))).blanks).blind
  exact h

theorem blind_isExportOpener : Blind isExportOpener := by
  have h := (((readsAlike_listOpening.optionally
    (skipsAlike_keyword (s := "type") (by decide))).bind
      (skipsAlike_keyword (s := "export") (by decide))).blanks).blind
  exact h

theorem readsAlike_listSource : ReadsAlike Quoted.padded listSource? := by
  have h := (readsAlike_source.blanks.bind (skipsAlike_skip (s := "\x7d") (by decide))).bind
    (skipsAlike_items false)
  exact h

theorem blind_isListClose : Blind isListClose := by
  have h := ((readsAlike_skip (s := "\x7d") (by decide) (by decide)).bind
    (skipsAlike_items false)).blind_map blind_isTail
  have he : isListClose = fun t => (((some (items false t)).bind (skip? "\x7d")).map isTail).getD
      false := by
    funext t
    unfold isListClose
    simp only [Option.bind_some]
    cases skip? "\x7d" (items false t) <;> rfl
  rw [he]
  exact h

theorem blind_isDirective : Blind isDirective := by
  intro t
  have hq : ReadsAlike Quoted.padded quoted? := ⟨rfl, quoted?_append_return⟩
  unfold isDirective
  rw [hq.blanks.append_return]
  cases h : quoted? (blanks t) with
  | none => rfl
  | some q =>
    have hbody : q.padded.body = q.body := rfl
    simp only [Option.map_some, hbody, after_padded_of_quoted? h, blind_isTail q.after]

theorem blind_isHashbang : Blind fun t => Text.startsWith ['#', '!'] (blanks t) := by
  have h := (readsAlike_skip (s := "#!") (by decide) (by decide)).blanks.blind
  exact h

theorem blind_isRequireMember : Blind isRequireMember := by
  rw [(funext isRequireMember_eq : isRequireMember = _)]
  exact (readsAlike_declared blind_isMembers).blind

theorem head?_append_return {t : Text} {c : Char} (hc : c ≠ '\r') (h : ∀ u, t ≠ c :: u) :
    (t ++ ['\r']).head? ≠ some c := by
  cases t with
  | nil => simpa using Ne.symm hc
  | cons d t =>
    intro he
    obtain rfl : d = c := by simpa using he
    exact h t rfl

theorem comments?_outside_return {c : Char} {t : Text} (h₁ : ∀ u, c = '/' → t ≠ '/' :: u)
    (h₂ : ∀ u, c = '/' → t ≠ '*' :: u) : comments? false (c :: t ++ ['\r']) =
      if isBlank c then comments? false (t ++ ['\r']) else none := by
  rw [List.cons_append]
  refine comments?_outside_cons fun hc => ?_
  exact ⟨head?_append_return (by decide) fun u => h₁ u hc,
    head?_append_return (by decide) fun u => h₂ u hc⟩

theorem comments?_append_return (inside : Bool) (t : Text) :
    comments? inside (t ++ ['\r']) = comments? inside t := by
  fun_induction comments? inside t with
  | case1 => rfl
  | case2 t ih => exact ih
  | case3 c t h ih =>
    have hc : c = '*' → (t ++ ['\r']).head? ≠ some '/' := fun hc =>
      head?_append_return (by decide) fun u => h u hc
    rw [List.cons_append, comments?_inside_cons hc, ih]
  | case4 => rfl
  | case5 t => rfl
  | case6 t ih => exact ih
  | case7 c t h₁ h₂ hb ih => rw [comments?_outside_return h₁ h₂, if_pos hb, ih]
  | case8 c t h₁ h₂ hb => rw [comments?_outside_return h₁ h₂, if_neg hb]

end ImportAlias.Header
