import ImportAlias.Proofs.Header.Reader

/-! Where the quoted text of a line stands. A reader of quoted texts finds the same place again
when only the text between the quotes has changed. -/
namespace ImportAlias.Header

open Text (after?_eq_some cutAt?_eq_some)

/-- What may stand before the quoted text of a statement: quiet characters, with one brace list
among them at most. -/
inductive Lead : Text → Prop where
  | plain {a : Text} : Quiet a → Lead a
  | braced {a b c : Text} : Quiet a → '\x7d' ∉ b → Quiet c →
      Lead (a ++ '\x7b' :: (b ++ '\x7d' :: c))

/-- What may stand after the closing quote: quiet characters and the end of the statement. -/
def Trails (t : Text) : Prop := ∃ pre rest, t = pre ++ rest ∧ Quiet pre ∧ isTail rest

def IsQuote (c : Char) : Prop := c = '"' ∨ c = '\x27'

/-- The quoted text `q` stands in `t` after `lead`, between two quotes `c` and before `tail`. -/
structure IsSlot (t : Text) (q : Quoted) (lead : Text) (c : Char) (tail : Text) : Prop where
  text_eq : t = lead ++ c :: (q.body ++ c :: tail)
  rest_eq : q.rest = c :: tail
  quote : IsQuote c
  fresh : c ∉ q.body
  trails : Trails tail

/-- The reader finds quoted texts after a lead of the given kind. -/
def Finds (P : Text → Prop) (f : Text → Option Quoted) : Prop :=
  ∀ ⦃t q⦄, f t = some q → ∃ lead c tail, P lead ∧ IsSlot t q lead c tail

/-- The reader also finds every other text between the same quotes. -/
def Keeps (P : Text → Prop) (f : Text → Option Quoted) : Prop :=
  ∀ ⦃t q⦄, f t = some q → ∃ lead c tail, P lead ∧ IsSlot t q lead c tail ∧
    ∀ body, c ∉ body → f (lead ++ c :: (body ++ c :: tail)) = some ⟨body, c :: tail⟩

variable {P : Text → Prop} {f g : Text → Option Quoted} {skipped? : Text → Option Text}

theorem Keeps.finds (h : Keeps P f) : Finds P f := by
  intro t q hq
  obtain ⟨lead, c, tail, hP, hs, -⟩ := h hq
  exact ⟨lead, c, tail, hP, hs⟩

theorem Keeps.lead (h : Keeps Quiet f) : Keeps Lead f := by
  intro t q hq
  obtain ⟨lead, c, tail, hP, hs⟩ := h hq
  exact ⟨lead, c, tail, .plain hP, hs⟩

theorem Lead.append {a lead : Text} (ha : Quiet a) (h : Lead lead) : Lead (a ++ lead) := by
  cases h with
  | plain hb => exact .plain (ha.append hb)
  | @braced d b c hd hb hc =>
    have : Lead ((a ++ d) ++ '\x7b' :: (b ++ '\x7d' :: c)) := .braced (ha.append hd) hb hc
    simpa using this

theorem IsSlot.append {t lead tail : Text} {q : Quoted} {c : Char} (h : IsSlot t q lead c tail)
    (pre : Text) : IsSlot (pre ++ t) q (pre ++ lead) c tail :=
  { h with text_eq := by rw [h.text_eq, List.append_assoc] }

/-- The lead of a text, read off from its start. -/
private def leadOf (t : Text) : Text :=
  match t.dropWhile isQuiet with
  | '\x7b' :: u =>
    match Text.cutAt? '\x7d' u with
    | some (b, v) => t.takeWhile isQuiet ++ '\x7b' :: (b ++ '\x7d' :: v.takeWhile isQuiet)
    | none => t.takeWhile isQuiet
  | _ => t.takeWhile isQuiet

private theorem takeWhile_quiet {a : Text} (ha : Quiet a) {c : Char} (hc : isQuiet c = false)
    (u : Text) : (a ++ c :: u).takeWhile isQuiet = a := by
  rw [List.takeWhile_append_of_pos ha]
  simp [hc]

theorem dropWhile_quiet {a : Text} (ha : Quiet a) {c : Char} (hc : isQuiet c = false)
    (u : Text) : (a ++ c :: u).dropWhile isQuiet = c :: u := by
  rw [List.dropWhile_append_of_pos ha]
  simp [hc]

theorem IsQuote.not_quiet {c : Char} (h : IsQuote c) : isQuiet c = false := by
  rcases h with rfl | rfl <;> decide

private theorem leadOf_eq {lead : Text} (h : Lead lead) {c : Char} (hc : IsQuote c) (u : Text) :
    leadOf (lead ++ c :: u) = lead := by
  have hq := hc.not_quiet
  cases h with
  | plain ha =>
    have hb : c ≠ '\x7b' := by rcases hc with rfl | rfl <;> decide
    unfold leadOf
    rw [dropWhile_quiet ha hq, takeWhile_quiet ha hq]
    split <;> simp_all
  | @braced a b d ha hb hd =>
    have hbr : isQuiet '\x7b' = false := by decide
    have hcut : Text.cutAt? '\x7d' (b ++ '\x7d' :: (d ++ c :: u)) = some (b, d ++ c :: u) :=
      cutAt?_eq_some.mpr ⟨rfl, hb⟩
    have he : (a ++ '\x7b' :: (b ++ '\x7d' :: d)) ++ c :: u =
        a ++ '\x7b' :: (b ++ '\x7d' :: (d ++ c :: u)) := by simp
    unfold leadOf
    rw [he, dropWhile_quiet ha hbr, takeWhile_quiet ha hbr]
    simp only [hcut, takeWhile_quiet hd hq]

/-- A text has at most one slot. -/
theorem IsSlot.unique {t lead lead' tail tail' : Text} {q q' : Quoted} {c c' : Char}
    (h : IsSlot t q lead c tail) (hl : Lead lead) (h' : IsSlot t q' lead' c' tail')
    (hl' : Lead lead') : q = q' := by
  have he : lead = lead' := by
    rw [← leadOf_eq hl h.quote, ← h.text_eq, h'.text_eq, leadOf_eq hl' h'.quote]
  have ht := h.text_eq.symm.trans h'.text_eq
  rw [he] at ht
  obtain ⟨rfl, hb⟩ := List.cons.inj (List.append_cancel_left ht)
  have hcut : Text.cutAt? c (q.body ++ c :: tail) = some (q.body, tail) :=
    cutAt?_eq_some.mpr ⟨rfl, h.fresh⟩
  rw [cutAt?_eq_some.mpr ⟨hb, h'.fresh⟩] at hcut
  obtain ⟨hbody, htail⟩ := Prod.mk.inj (Option.some.inj hcut)
  have hrest : q.rest = q'.rest := by rw [h.rest_eq, h'.rest_eq, htail]
  cases q
  cases q'
  simp_all

theorem Keeps.bind (hs : Skips skipped?) (hf : Keeps P f)
    (hP : ∀ ⦃a b : Text⦄, Quiet a → P b → P (a ++ b)) :
    Keeps P fun t => (skipped? t).bind f := by
  intro t q h
  obtain ⟨u, hu, hq⟩ := Option.bind_eq_some_iff.mp h
  obtain ⟨pre, rfl, hpre, hl⟩ := hs hu
  obtain ⟨lead, c, tail, hlead, hslot, hk⟩ := hf hq
  refine ⟨pre ++ lead, c, tail, hP hpre hlead, hslot.append pre, fun body hb => ?_⟩
  have hh : (lead ++ c :: (body ++ c :: tail)).head? = u.head? := by
    rw [hslot.text_eq]
    exact head?_append_congr lead rfl
  simp [hl _ hh, hk body hb]

theorem Keeps.blanks (hf : Keeps P f) (hP : ∀ ⦃a b : Text⦄, Quiet a → P b → P (a ++ b)) :
    Keeps P fun t => f (blanks t) := by
  have h := hf.bind skips_blanks hP
  exact h

theorem Finds.bind (hs : Skips skipped?) (hf : Finds P f)
    (hP : ∀ ⦃a b : Text⦄, Quiet a → P b → P (a ++ b)) :
    Finds P fun t => (skipped? t).bind f := by
  intro t q h
  obtain ⟨u, hu, hq⟩ := Option.bind_eq_some_iff.mp h
  obtain ⟨pre, rfl, hpre, -⟩ := hs hu
  obtain ⟨lead, c, tail, hlead, hslot⟩ := hf hq
  exact ⟨pre ++ lead, c, tail, hP hpre hlead, hslot.append pre⟩

theorem Keeps.braces (hf : Keeps Quiet f) : Keeps Lead fun t => (braces? t).bind f := by
  intro t q h
  obtain ⟨u, hu, hq⟩ := Option.bind_eq_some_iff.mp h
  obtain ⟨b, rfl, hb⟩ := braces?_eq_some.mp hu
  obtain ⟨lead, c, tail, hlead, hslot, hk⟩ := hf hq
  have hl : Lead ([] ++ '\x7b' :: (b ++ '\x7d' :: lead)) := .braced quiet_nil hb hlead
  refine ⟨'\x7b' :: (b ++ '\x7d' :: lead), c, tail, hl, ?_, fun body hbody => ?_⟩
  · simpa using hslot.append ('\x7b' :: (b ++ ['\x7d']))
  · have hu' : braces? (('\x7b' :: (b ++ '\x7d' :: lead)) ++ c :: (body ++ c :: tail)) =
        some (lead ++ c :: (body ++ c :: tail)) := braces?_eq_some.mpr ⟨b, by simp, hb⟩
    change (braces? _).bind f = _
    rw [hu']
    exact hk body hbody

theorem Keeps.or (hf : Keeps Lead f) (hg : Keeps Lead g) : Keeps Lead fun t => (f t).or (g t) := by
  intro t q h
  rcases Option.or_eq_some_iff.mp h with h | ⟨-, h⟩
  · obtain ⟨lead, c, tail, hl, hs, hk⟩ := hf h
    exact ⟨lead, c, tail, hl, hs, fun body hb => by simp [hk body hb]⟩
  · obtain ⟨lead, c, tail, hl, hs, hk⟩ := hg h
    refine ⟨lead, c, tail, hl, hs, fun body hb => ?_⟩
    have hs' : IsSlot (lead ++ c :: (body ++ c :: tail)) ⟨body, c :: tail⟩ lead c tail :=
      ⟨rfl, rfl, hs.quote, hb, hs.trails⟩
    cases hn : f (lead ++ c :: (body ++ c :: tail)) with
    | none => simp only [hn, hk body hb, Option.none_or]
    | some q' =>
      -- The first reader may succeed now, but there is one place only to succeed at.
      obtain ⟨lead', c', tail', hl', hs'', -⟩ := hf hn
      simp only [hn, Option.some_or, hs''.unique hl' hs' hl]

theorem Keeps.optionally (hs : Skips skipped?) (hf : Keeps Lead f) :
    Keeps Lead (optionally skipped? f) := by
  rw [optionally_eq]
  exact (hf.bind hs fun _ _ => Lead.append).or hf

/-- Readers that are chosen by the first character. -/
theorem Keeps.byHead {p : Option Char → Prop} [DecidablePred p] (hf : Keeps P f) (hg : Keeps P g) :
    Keeps P fun t => if p t.head? then f t else g t := by
  intro t q h
  have hh : ∀ lead c tail body, IsSlot t q lead c tail →
      (lead ++ c :: (body ++ c :: tail)).head? = t.head? := by
    intro lead c tail body hs
    rw [hs.text_eq]
    exact head?_append_congr lead rfl
  by_cases hp : p t.head?
  · obtain ⟨lead, c, tail, hl, hs, hk⟩ := hf (by simpa [hp] using h)
    refine ⟨lead, c, tail, hl, hs, fun body hb => ?_⟩
    simp only [hh lead c tail body hs, hp, if_true, hk body hb]
  · obtain ⟨lead, c, tail, hl, hs, hk⟩ := hg (by simpa [hp] using h)
    refine ⟨lead, c, tail, hl, hs, fun body hb => ?_⟩
    simp only [hh lead c tail body hs, hp, if_false, hk body hb]

/-- A quoted text whose rest of the line passes a check. -/
def quotedBefore (ends : Text → Bool) (t : Text) : Option Quoted :=
  (quoted? t).bind fun q => if ends q.after then some q else none

theorem quoted?_eq_some {t : Text} {q : Quoted} : quoted? t = some q ↔
    ∃ c tail, t = c :: (q.body ++ c :: tail) ∧ q.rest = c :: tail ∧ IsQuote c ∧ c ∉ q.body := by
  cases t with
  | nil => simp [quoted?]
  | cons c t =>
    by_cases hc : c = '"' ∨ c = '\x27'
    · simp only [quoted?, if_pos hc, Option.map_eq_some_iff, Prod.exists, cutAt?_eq_some]
      constructor
      · rintro ⟨l, r, ⟨rfl, hl⟩, rfl⟩
        exact ⟨c, r, rfl, rfl, hc, hl⟩
      · rintro ⟨d, tail, he, hr, -, hf⟩
        obtain ⟨rfl, rfl⟩ := List.cons.inj he
        exact ⟨q.body, tail, ⟨rfl, hf⟩, by rw [← hr]⟩
    · simp only [quoted?, if_neg hc]
      constructor
      · simp
      · rintro ⟨d, tail, he, -, hd, -⟩
        rw [← (List.cons.inj he).1] at hd
        exact absurd hd hc

theorem keeps_quotedBefore {ends : Text → Bool} (he : ∀ t, ends t → Trails t) :
    Keeps Quiet (quotedBefore ends) := by
  intro t q h
  obtain ⟨q', hq, hi⟩ := Option.bind_eq_some_iff.mp h
  split_ifs at hi with hends
  obtain rfl : q' = q := Option.some.inj hi
  obtain ⟨c, tail, rfl, hr, hc, hf⟩ := quoted?_eq_some.mp hq
  have ha : q'.after = tail := by simp [Quoted.after, hr]
  rw [ha] at hends
  refine ⟨[], c, tail, quiet_nil, ⟨rfl, hr, hc, hf, he tail hends⟩, fun body hb => ?_⟩
  have hq' : quoted? (c :: (body ++ c :: tail)) = some ⟨body, c :: tail⟩ :=
    quoted?_eq_some.mpr ⟨c, tail, rfl, rfl, hc, hb⟩
  simp [quotedBefore, hq', Quoted.after, hends]

end ImportAlias.Header
