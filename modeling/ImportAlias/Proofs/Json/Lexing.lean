import ImportAlias.Json.Lexer
import Mathlib.Data.List.TakeWhile
import Mathlib.Tactic.SplitIfs

/-! The tokens of a JSON text can be told from their own characters: what a token is does not depend
on the text behind it, as long as that does not go on with a number. -/
namespace ImportAlias.Json

/-! Strings -/

/-- A string from behind its opening quote: characters and escapes, and the quote that ends it. -/
inductive Closes : Text → Prop where
  | quote : Closes ['"']
  | escape (c : Char) {t : Text} (h : Closes t) : Closes ('\\' :: c :: t)
  | plain {c : Char} {t : Text} (hq : c ≠ '"') (hb : c ≠ '\\') (h : Closes t) : Closes (c :: t)

theorem ne_of_hexDigit? {c : Char} {n : Nat} (h : hexDigit? c = some n) : c ≠ '"' ∧ c ≠ '\\' := by
  have hquote : hexDigit? '"' = none := by decide
  have hslash : hexDigit? '\\' = none := by decide
  constructor <;> rintro rfl <;> simp_all

theorem hexDigits_of_hex4? {a b c d : Char} {n : Nat} (h : hex4? a b c d = some n) :
    (∃ n, hexDigit? a = some n) ∧ (∃ n, hexDigit? b = some n) ∧ (∃ n, hexDigit? c = some n) ∧
      ∃ n, hexDigit? d = some n := by
  simp only [hex4?, bind, Option.bind_eq_some_iff] at h
  obtain ⟨p, hp, q, hq, r, hr, s, hs, -⟩ := h
  exact ⟨⟨p, hp⟩, ⟨q, hq⟩, ⟨r, hr⟩, ⟨s, hs⟩⟩

/-- Four digits and what closes the string behind them. -/
theorem Closes.hex4 {a b c d : Char} {n : Nat} {t : Text} (hx : hex4? a b c d = some n)
    (h : Closes t) : Closes ('\\' :: 'u' :: a :: b :: c :: d :: t) := by
  obtain ⟨⟨p, hp⟩, ⟨q, hq⟩, ⟨r, hr⟩, ⟨s, hs⟩⟩ := hexDigits_of_hex4? hx
  obtain ⟨ha, ha'⟩ := ne_of_hexDigit? hp
  obtain ⟨hb, hb'⟩ := ne_of_hexDigit? hq
  obtain ⟨hc, hc'⟩ := ne_of_hexDigit? hr
  obtain ⟨hd, hd'⟩ := ne_of_hexDigit? hs
  exact .escape 'u' (.plain ha ha' (.plain hb hb' (.plain hc hc' (.plain hd hd' h))))

section

variable {done t : Text} {a b c d : Char} {n : Nat}

theorem readString_unicode (hx : hex4? a b c d = some n) (ht : ¬ isTrailing n = true)
    (hl : ¬ isLeading n = true) :
    readString done ('\\' :: 'u' :: a :: b :: c :: d :: t) =
      readString (Char.ofNat n :: done) t := by
  rw [readString]
  simp [hx, ht, hl]

theorem readString_pair {e f g h : Char} {m : Nat} (hx : hex4? a b c d = some n)
    (ht : ¬ isTrailing n = true) (hl : isLeading n = true) (hx' : hex4? e f g h = some m)
    (hm : isTrailing m = true) :
    readString done ('\\' :: 'u' :: a :: b :: c :: d :: '\\' :: 'u' :: e :: f :: g :: h :: t) =
      readString (paired n m :: done) t := by
  rw [readString]
  simp [hx, ht, hl, hx', hm]

theorem readString_escape {e : Char} (he : escaped? c = some e) :
    readString done ('\\' :: c :: t) = readString (e :: done) t := by
  have hu : c ≠ 'u' := by
    rintro rfl
    simp [show escaped? 'u' = none by decide] at he
  rw [readString.eq_def]
  split <;> grind

theorem readString_plain (hq : c ≠ '"') (hb : c ≠ '\\') (hc : ¬ c.toNat < 0x20) :
    readString done (c :: t) = readString (c :: done) t := by
  rw [readString.eq_def]
  split <;> grind

end

/-- A string is read from its own characters, up to its closing quote. -/
theorem exists_readString {done t s left : Text} (h : readString done t = .ok (s, left)) :
    ∃ body, t = body ++ left ∧ Closes body ∧
      ∀ after, readString done (body ++ after) = .ok (s, after) := by
  fun_induction readString done t with
  | case2 done t =>
    obtain ⟨rfl, rfl⟩ := Prod.mk.inj (Except.ok.inj h)
    exact ⟨['"'], rfl, .quote, readString_quote done⟩
  | case6 done a b c d n hx ht hl e f g h' t m hx' hm ih =>
    obtain ⟨body, rfl, hbody, hall⟩ := ih h
    exact ⟨_, rfl, .hex4 hx (.hex4 hx' hbody), fun after =>
      (readString_pair hx ht hl hx' hm).trans (hall after)⟩
  | case13 done a b c d t n hx ht hl ih =>
    obtain ⟨body, rfl, hbody, hall⟩ := ih h
    exact ⟨_, rfl, .hex4 hx hbody, fun after => (readString_unicode hx ht hl).trans (hall after)⟩
  | case16 done c t _ _ e he ih =>
    obtain ⟨body, rfl, hbody, hall⟩ := ih h
    exact ⟨_, rfl, .escape c hbody, fun after => (readString_escape he).trans (hall after)⟩
  | case19 done c t hq _ _ hnil hcons hc ih =>
    have hb : c ≠ '\\' := by
      intro hb
      cases t with
      | nil => exact hnil hb rfl
      | cons d t => exact hcons d t hb rfl
    obtain ⟨body, rfl, hbody, hall⟩ := ih h
    exact ⟨_, rfl, .plain hq hb hbody, fun after => (readString_plain hq hb hc).trans (hall after)⟩
  | _ => simp at h

/-! Numbers -/

/-- A text that no number goes on with. -/
def Apart (t : Text) : Prop :=
  ∀ c ∈ t.head?, c.isDigit = false ∧ c ≠ '.' ∧ c ≠ 'e' ∧ c ≠ 'E'

def isNumberChar (c : Char) : Bool :=
  c.isDigit || c == '.' || c == 'e' || c == 'E' || c == '+' || c == '-'

/-- The reader takes the part of a text before `left`, and takes it before any text that no number
goes on with. -/
def Takes (read : Text → Except Fault Text) (t left : Text) : Prop :=
  ∃ body, t = body ++ left ∧ (∀ c ∈ body, isNumberChar c = true) ∧
    ∀ after, Apart after → read (body ++ after) = .ok after

theorem isNumberChar_of_isDigit {c : Char} (h : c.isDigit = true) : isNumberChar c = true := by
  simp [isNumberChar, h]

theorem takeWhile_digits {d t : Text} (hd : ∀ c ∈ d, c.isDigit = true)
    (ht : ∀ c ∈ t.head?, c.isDigit = false) :
    (d ++ t).takeWhile Char.isDigit = d ∧ (d ++ t).dropWhile Char.isDigit = t := by
  rw [List.takeWhile_append_of_pos hd, List.dropWhile_append_of_pos hd]
  cases t with
  | nil => simp
  | cons c t => simp [ht c rfl]

/-- What is left behind digits starts with none. -/
theorem head?_dropWhile_isDigit (t : Text) :
    ∀ c ∈ (t.dropWhile Char.isDigit).head?, c.isDigit = false := by
  intro c hc
  have hne : t.dropWhile Char.isDigit ≠ [] := by
    intro h
    simp [h] at hc
  have hhead := List.head_dropWhile_not Char.isDigit hne
  rw [List.head?_eq_some_head hne] at hc
  obtain rfl := Option.some.inj hc
  simpa using hhead

theorem isDigit_of_mem_takeWhile {t : Text} : ∀ c ∈ t.takeWhile Char.isDigit, c.isDigit = true :=
  fun _ hc => List.mem_takeWhile_imp hc

section

variable {n e : Nat} {c : Char} {t left : Text}

theorem readExponent_of_head (h : ∀ c ∈ t.head?, c.isDigit = false) :
    readExponent n t = .inl (n, t) := by
  cases t with
  | nil => rfl
  | cons c t => simp [readExponent, h c rfl]

theorem readExponent_fits (hc : c.isDigit = true) (hm : n * 10 + (c.toNat - 48) < Nat.pow 2 31) :
    readExponent n (c :: t) = readExponent (n * 10 + (c.toNat - 48)) t := by
  rw [readExponent, if_pos hc]
  exact if_pos hm

theorem readExponent_over (hc : c.isDigit = true) (hm : ¬ n * 10 + (c.toNat - 48) < Nat.pow 2 31) :
    readExponent n (c :: t) = .inr t := by
  rw [readExponent, if_pos hc]
  exact if_neg hm

/-- The digits of an exponent that fits are read up to the first character that is none. -/
theorem exists_readExponent (h : readExponent n t = .inl (e, left)) :
    ∃ d, t = d ++ left ∧ (∀ c ∈ d, c.isDigit = true) ∧
      ∀ after, Apart after → readExponent n (d ++ after) = .inl (e, after) := by
  induction t generalizing n with
  | nil =>
    obtain ⟨rfl, rfl⟩ := Prod.mk.inj (Sum.inl.inj h)
    exact ⟨[], rfl, by simp, fun after ha => readExponent_of_head fun c hc => (ha c hc).1⟩
  | cons c t ih =>
    by_cases hc : c.isDigit = true
    · by_cases hm : n * 10 + (c.toNat - 48) < Nat.pow 2 31
      · rw [readExponent_fits hc hm] at h
        obtain ⟨d, rfl, hd, hall⟩ := ih h
        exact ⟨c :: d, rfl, List.forall_mem_cons.mpr ⟨hc, hd⟩,
          fun after ha => (readExponent_fits hc hm).trans (hall after ha)⟩
      · rw [readExponent_over hc hm] at h
        cases h
    · rw [readExponent_of_head (by simpa using hc)] at h
      obtain ⟨rfl, rfl⟩ := Prod.mk.inj (Sum.inl.inj h)
      exact ⟨[], rfl, by simp, fun after ha => readExponent_of_head fun c hc => (ha c hc).1⟩

/-- An exponent that does not fit is given up at one of its digits. -/
theorem exists_readExponent_inr (h : readExponent n t = .inr left) :
    ∃ d, t = d ++ left ∧ (∀ c ∈ d, c.isDigit = true) ∧
      ∀ after, readExponent n (d ++ after) = .inr after := by
  induction t generalizing n with
  | nil => cases h
  | cons c t ih =>
    by_cases hc : c.isDigit = true
    · by_cases hm : n * 10 + (c.toNat - 48) < Nat.pow 2 31
      · rw [readExponent_fits hc hm] at h
        obtain ⟨d, rfl, hd, hall⟩ := ih h
        exact ⟨c :: d, rfl, List.forall_mem_cons.mpr ⟨hc, hd⟩,
          fun after => (readExponent_fits hc hm).trans (hall after)⟩
      · rw [readExponent_over hc hm] at h
        obtain rfl := Sum.inr.inj h
        exact ⟨[c], rfl, by simp [hc], fun after => readExponent_over hc hm⟩
    · rw [readExponent_of_head (by simpa using hc)] at h
      cases h

end

section

variable {n up down e : Nat} {negative : Bool} {c : Char} {t rest left : Text}

theorem readMagnitude_cons (hc : c.isDigit = true) :
    readMagnitude n up down negative (c :: t) =
      match readExponent (c.toNat - 48) t with
      | .inl (e, rest) =>
        if isFinite n (if negative then up - (down + e) else up + e - down) then .ok rest
        else .error (.before .numberOutOfRange rest)
      | .inr rest =>
        if n = 0 ∨ negative then .ok (rest.dropWhile Char.isDigit)
        else .error (.before .numberOutOfRange rest) := by
  unfold readMagnitude
  exact if_pos hc

/-- An exponent is a digit and what follows of it. -/
theorem exists_readMagnitude (h : readMagnitude n up down negative t = .ok left) :
    ∃ c body, t = c :: (body ++ left) ∧ c.isDigit = true ∧ (∀ e ∈ body, e.isDigit = true) ∧
      ∀ after, Apart after →
        readMagnitude n up down negative (c :: (body ++ after)) = .ok after := by
  cases t with
  | nil => cases h
  | cons c t =>
    have hc : c.isDigit = true := by
      by_contra hc
      rw [readMagnitude, if_neg hc] at h
      cases h
    rw [readMagnitude_cons hc] at h
    cases he : readExponent (c.toNat - 48) t with
    | inl p =>
      obtain ⟨e, rest⟩ := p
      obtain ⟨d, rfl, hd, hall⟩ := exists_readExponent he
      simp only [he] at h
      by_cases hfin : isFinite n (if negative then up - (down + e) else up + e - down) = true
      · rw [if_pos hfin] at h
        obtain rfl := Except.ok.inj h
        refine ⟨c, d, rfl, hc, hd, fun after ha => ?_⟩
        rw [readMagnitude_cons hc, hall after ha]
        exact if_pos hfin
      · rw [if_neg hfin] at h
        cases h
    | inr rest =>
      obtain ⟨d, rfl, hd, hall⟩ := exists_readExponent_inr he
      simp only [he] at h
      split_ifs at h with hzero
      obtain rfl := Except.ok.inj h
      refine ⟨c, d ++ rest.takeWhile Char.isDigit, ?_, hc, ?_, fun after ha => ?_⟩
      · rw [List.append_assoc, List.takeWhile_append_dropWhile]
      · intro e he
        rcases List.mem_append.mp he with he | he
        · exact hd e he
        · exact isDigit_of_mem_takeWhile e he
      · have hdigits : (rest.takeWhile Char.isDigit ++ after).dropWhile Char.isDigit = after :=
          (takeWhile_digits isDigit_of_mem_takeWhile fun e he => (ha e he).1).2
        rw [readMagnitude_cons hc, List.append_assoc, hall]
        simp only [if_pos hzero, hdigits]

theorem takes_readPower (h : readPower n up down t = .ok left) :
    Takes (readPower n up down) t left := by
  have hnumber : ∀ {d : Text}, (∀ e ∈ d, e.isDigit = true) → ∀ e ∈ d, isNumberChar e = true :=
    fun hd e he => isNumberChar_of_isDigit (hd e he)
  unfold readPower at h
  split at h
  all_goals
    obtain ⟨c, body, rfl, hc, hbody, hall⟩ := exists_readMagnitude h
    have hmem := hnumber (List.forall_mem_cons.mpr ⟨hc, hbody⟩)
  · exact ⟨'-' :: c :: body, rfl, List.forall_mem_cons.mpr ⟨by decide, hmem⟩, hall⟩
  · exact ⟨'+' :: c :: body, rfl, List.forall_mem_cons.mpr ⟨by decide, hmem⟩, hall⟩
  · refine ⟨c :: body, rfl, hmem, fun after ha => ?_⟩
    have hsign : readPower n up down (c :: (body ++ after)) =
        readMagnitude n up down false (c :: (body ++ after)) := by
      unfold readPower
      split
      · rename_i heq
        obtain ⟨rfl, -⟩ := List.cons.inj heq
        exact absurd hc (by decide)
      · rename_i heq
        obtain ⟨rfl, -⟩ := List.cons.inj heq
        exact absurd hc (by decide)
      · rfl
    exact hsign.trans (hall after ha)

/-- With a finite number before it, a text that no number goes on with is left as it is. -/
theorem readScale_apart (hfin : isFinite n (up - down) = true) (h : Apart t) :
    readScale n up down t = .ok t := by
  unfold readScale
  split
  · rename_i he
    exact absurd rfl (h 'e' he).2.2.1
  · rename_i he
    exact absurd rfl (h 'E' he).2.2.2
  · exact if_pos hfin

theorem takes_readScale (h : readScale n up down t = .ok left) :
    Takes (readScale n up down) t left := by
  unfold readScale at h
  split at h
  · rename_i he
    obtain ⟨t, rfl⟩ := List.head?_eq_some_iff.mp he
    obtain ⟨body, hbody, hmem, hall⟩ := takes_readPower h
    exact ⟨'e' :: body, congrArg _ hbody, List.forall_mem_cons.mpr ⟨by decide, hmem⟩, hall⟩
  · rename_i he
    obtain ⟨t, rfl⟩ := List.head?_eq_some_iff.mp he
    obtain ⟨body, hbody, hmem, hall⟩ := takes_readPower h
    exact ⟨'E' :: body, congrArg _ hbody, List.forall_mem_cons.mpr ⟨by decide, hmem⟩, hall⟩
  · split_ifs at h with hfin
    obtain rfl := Except.ok.inj h
    exact ⟨[], rfl, by simp, fun after ha => readScale_apart hfin ha⟩

end

/-- How a text starts, given how it starts before one text and how another one starts. -/
theorem head?_append {P : Char → Prop} {body left after : Text}
    (ht : ∀ c ∈ (body ++ left).head?, P c) (ha : ∀ c ∈ after.head?, P c) :
    ∀ c ∈ (body ++ after).head?, P c := by
  cases body with
  | nil => exact ha
  | cons c body => exact ht

section

variable {n up : Nat} {t left : Text}

theorem readFraction_of_head (h : ∀ c ∈ t.head?, c ≠ '.') :
    readFraction n up t = readScale n up 0 t := by
  unfold readFraction
  split
  · exact absurd rfl (h '.' rfl)
  · rfl

theorem readFraction_digits {d : Text} (hd : ∀ c ∈ d, c.isDigit = true) (hne : d ≠ [])
    (ht : ∀ c ∈ t.head?, c.isDigit = false) : readFraction n up ('.' :: (d ++ t)) =
      readScale (significand n d).1 up (d.length - (significand n d).2) t := by
  obtain ⟨htake, hdrop⟩ := takeWhile_digits hd ht
  rw [readFraction, htake, hdrop, if_neg hne]

theorem takes_readFraction (h : readFraction n up t = .ok left) :
    Takes (readFraction n up) t left := by
  by_cases hpoint : ∃ u, t = '.' :: u
  · obtain ⟨u, rfl⟩ := hpoint
    have hd : ∀ c ∈ u.takeWhile Char.isDigit, c.isDigit = true := isDigit_of_mem_takeWhile
    have hrest := head?_dropWhile_isDigit u
    have hu : u.takeWhile Char.isDigit ++ u.dropWhile Char.isDigit = u :=
      List.takeWhile_append_dropWhile
    generalize u.takeWhile Char.isDigit = d at hd hu
    generalize u.dropWhile Char.isDigit = rest at hrest hu
    subst hu
    by_cases hne : d = []
    · obtain ⟨htake, hdrop⟩ := takeWhile_digits hd hrest
      rw [readFraction, htake, if_pos hne] at h
      cases h
    · rw [readFraction_digits hd hne hrest] at h
      obtain ⟨body, rfl, hmem, hall⟩ := takes_readScale h
      refine ⟨'.' :: (d ++ body), by simp, ?_, fun after ha => ?_⟩
      · refine List.forall_mem_cons.mpr ⟨by decide, fun c hc => ?_⟩
        rcases List.mem_append.mp hc with hc | hc
        · exact isNumberChar_of_isDigit (hd c hc)
        · exact hmem c hc
      · have hhead := head?_append hrest fun c hc => (ha c hc).1
        rw [List.cons_append, List.append_assoc, readFraction_digits hd hne hhead]
        exact hall after ha
  · have hhead : ∀ c ∈ t.head?, c ≠ '.' := by
      rintro c hc rfl
      exact hpoint (List.head?_eq_some_iff.mp hc)
    rw [readFraction_of_head hhead] at h
    obtain ⟨body, rfl, hmem, hall⟩ := takes_readScale h
    refine ⟨body, rfl, hmem, fun after ha => ?_⟩
    rw [readFraction_of_head (head?_append hhead fun c hc => (ha c hc).2.1)]
    exact hall after ha

theorem readNumber_zero (h : ∀ c ∈ t.head?, c.isDigit = false) :
    readNumber ('0' :: t) = readFraction 0 0 t := by
  cases t with
  | nil => rfl
  | cons c t => simp [readNumber, h c rfl]

theorem readNumber_digits {d : Text} (hd : ∀ c ∈ d, c.isDigit = true) (hne : d ≠ [])
    (hz : d.head? ≠ some '0') (ht : ∀ c ∈ t.head?, c.isDigit = false) :
    readNumber (d ++ t) = readFraction (significand 0 d).1 (significand 0 d).2 t := by
  obtain ⟨htake, hdrop⟩ := takeWhile_digits hd ht
  obtain ⟨c, d', rfl⟩ := List.exists_cons_of_ne_nil hne
  have hc : c.isDigit = true := hd c (by simp)
  unfold readNumber
  split
  · rename_i heq
    cases heq
  · rename_i heq
    obtain ⟨rfl, -⟩ := List.cons.inj heq
    exact absurd rfl hz
  · rename_i heq
    obtain ⟨rfl, -⟩ := List.cons.inj heq
    rw [if_pos hc, htake, hdrop]

/-- A zero is followed by no digit. -/
theorem takes_readNumber_zero (h : readNumber ('0' :: t) = .ok left) :
    Takes readNumber ('0' :: t) left := by
  have hhead : ∀ c ∈ t.head?, c.isDigit = false := by
    intro c hc
    by_contra hd
    rw [Bool.not_eq_false] at hd
    obtain ⟨v, rfl⟩ := List.head?_eq_some_iff.mp hc
    simp [readNumber, hd] at h
  rw [readNumber_zero hhead] at h
  obtain ⟨body, rfl, hmem, hall⟩ := takes_readFraction h
  refine ⟨'0' :: body, rfl, List.forall_mem_cons.mpr ⟨by decide, hmem⟩, fun after ha => ?_⟩
  rw [List.cons_append, readNumber_zero (head?_append hhead fun c hc => (ha c hc).1)]
  exact hall after ha

theorem takes_readNumber_digits {d : Text} (hd : ∀ c ∈ d, c.isDigit = true) (hne : d ≠ [])
    (hz : d.head? ≠ some '0') (ht : ∀ c ∈ t.head?, c.isDigit = false)
    (h : readNumber (d ++ t) = .ok left) : Takes readNumber (d ++ t) left := by
  rw [readNumber_digits hd hne hz ht] at h
  obtain ⟨body, rfl, hmem, hall⟩ := takes_readFraction h
  refine ⟨d ++ body, by simp, fun c hc => ?_, fun after ha => ?_⟩
  · rcases List.mem_append.mp hc with hc | hc
    · exact isNumberChar_of_isDigit (hd c hc)
    · exact hmem c hc
  · have hhead := head?_append ht fun c hc => (ha c hc).1
    rw [List.append_assoc, readNumber_digits hd hne hz hhead]
    exact hall after ha

theorem takes_readNumber (h : readNumber t = .ok left) : Takes readNumber t left := by
  by_cases hzero : ∃ u, t = '0' :: u
  · obtain ⟨u, rfl⟩ := hzero
    exact takes_readNumber_zero h
  · have hz : (t.takeWhile Char.isDigit).head? ≠ some '0' := by
      intro hz
      obtain ⟨v, hv⟩ := List.head?_eq_some_iff.mp hz
      obtain ⟨w, hw⟩ := List.takeWhile_prefix (l := t) Char.isDigit
      exact hzero ⟨v ++ w, by rw [← hw, hv]; rfl⟩
    have hne : t.takeWhile Char.isDigit ≠ [] := by
      intro hne
      unfold readNumber at h
      split at h
      · cases h
      · exact hzero ⟨_, rfl⟩
      · rename_i c rest _
        split_ifs at h with hc
        simp [hc] at hne
    have ht : t.takeWhile Char.isDigit ++ t.dropWhile Char.isDigit = t :=
      List.takeWhile_append_dropWhile
    rw [← ht] at h ⊢
    exact takes_readNumber_digits isDigit_of_mem_takeWhile hne hz (head?_dropWhile_isDigit t) h

end

/-! Tokens -/

def isScalarChar (c : Char) : Bool := isNumberChar c || c.isLower

/-- How the tokens are written that documents have. -/
inductive Shape : Text → Lexeme → Prop where
  | mark {c : Char} (h : isMark c = true) : Shape [c] (.mark c)
  | string {body s : Text} (h : Closes body) : Shape ('"' :: body) (.string s)
  | scalar {c : Char} {body : Text} {v : Json} (h : ∀ e ∈ c :: body, isScalarChar e = true) :
      Shape (c :: body) (.scalar v)

/-- A text is a token, also before other texts. Only behind a mark may a number follow at once. -/
structure Reads (w : Text) (l : Lexeme) : Prop where
  shape : Shape w l
  read : ∀ c body, w = c :: body → ∀ after, (∃ m, l = .mark m) ∨ Apart after →
    readLexeme c (body ++ after) = .ok (l, after)

theorem readWord_append (v : Json) (word after : Text) :
    readWord v word (word ++ after) = .ok (.scalar v, after) := by
  induction word with
  | nil => rfl
  | cons c word ih => simpa [readWord] using ih

theorem eq_append_of_readWord {v : Json} {word t left : Text} {l : Lexeme}
    (h : readWord v word t = .ok (l, left)) : t = word ++ left ∧ l = .scalar v := by
  induction word generalizing t with
  | nil =>
    obtain ⟨rfl, rfl⟩ := Prod.mk.inj (Except.ok.inj h)
    exact ⟨rfl, rfl⟩
  | cons c word ih =>
    cases t with
    | nil => cases h
    | cons d t =>
      unfold readWord at h
      split_ifs at h with hc
      obtain ⟨rfl, hl⟩ := ih h
      exact ⟨by rw [hc]; rfl, hl⟩

theorem numberLexeme_append (w after : Text) :
    numberLexeme (w ++ after) (.ok after) = .ok (.scalar (.number w), after) := by
  simp [numberLexeme, Except.map]

theorem readNumber_of_numberLexeme {w left : Text} {r : Except Fault Text} {l : Lexeme}
    (h : numberLexeme w r = .ok (l, left)) :
    r = .ok left ∧ ∀ c body, w = c :: (body ++ left) → l = .scalar (.number (c :: body)) := by
  cases r with
  | error f => cases h
  | ok rest =>
    obtain ⟨rfl, rfl⟩ := Prod.mk.inj (Except.ok.inj h)
    refine ⟨rfl, ?_⟩
    rintro c body rfl
    have happend := numberLexeme_append (c :: body) rest
    exact (Prod.mk.inj (Except.ok.inj happend)).1

theorem reads_mark {c : Char} (hc : isMark c = true) : Reads [c] (.mark c) := by
  refine ⟨.mark hc, fun d body hw after _ => ?_⟩
  obtain ⟨rfl, rfl⟩ := List.cons.inj hw
  rw [readLexeme, if_pos hc]
  rfl

theorem reads_string {t s left : Text} (h : readString [] t = .ok (s, left)) :
    ∃ body, t = body ++ left ∧ Reads ('"' :: body) (.string s) := by
  obtain ⟨body, rfl, hbody, hall⟩ := exists_readString h
  refine ⟨body, rfl, .string hbody, fun d body' hw after _ => ?_⟩
  obtain ⟨rfl, rfl⟩ := List.cons.inj hw
  have hread : readLexeme '"' (body ++ after) =
      (readString [] (body ++ after)).map fun p => (.string p.1, p.2) := rfl
  rw [hread, hall after]
  rfl

/-- A word is the token that starts with its first letter. -/
theorem reads_word {c : Char} {word : Text} {v : Json} (hw : ∀ e ∈ c :: word, isScalarChar e = true)
    (hr : ∀ t, readLexeme c t = readWord v word t) : Reads (c :: word) (.scalar v) := by
  refine ⟨.scalar hw, fun d body h after _ => ?_⟩
  obtain ⟨rfl, rfl⟩ := List.cons.inj h
  rw [hr, readWord_append]

theorem reads_number {c : Char} {body : Text} (hw : ∀ e ∈ c :: body, isNumberChar e = true)
    (hr : ∀ after, Apart after →
      readLexeme c (body ++ after) = numberLexeme (c :: (body ++ after)) (.ok after)) :
    Reads (c :: body) (.scalar (.number (c :: body))) := by
  refine ⟨.scalar fun e he => by simp [isScalarChar, hw e he], fun d body' h after ha => ?_⟩
  obtain ⟨rfl, rfl⟩ := List.cons.inj h
  rcases ha with ⟨m, hm⟩ | ha
  · cases hm
  · rw [hr after ha]
    exact numberLexeme_append (c :: body) after

/-- What is read at the start of a text is a token of its own. -/
theorem exists_readLexeme {c : Char} {t left : Text} {l : Lexeme}
    (h : readLexeme c t = .ok (l, left)) (hl : l ≠ .stray) :
    ∃ body, t = body ++ left ∧ Reads (c :: body) l := by
  unfold readLexeme at h
  split_ifs at h with hmark hquote hn ht hf hminus hdigit
  · obtain ⟨rfl, rfl⟩ := Prod.mk.inj (Except.ok.inj h)
    exact ⟨[], rfl, reads_mark hmark⟩
  · subst hquote
    cases hs : readString [] t with
    | error f => simp [hs, Except.map] at h
    | ok p =>
      obtain ⟨s, rest⟩ := p
      simp only [hs, Except.map] at h
      obtain ⟨rfl, rfl⟩ := Prod.mk.inj (Except.ok.inj h)
      exact reads_string hs
  · subst hn
    obtain ⟨rfl, rfl⟩ := eq_append_of_readWord h
    exact ⟨_, rfl, reads_word (List.all_eq_true.mp rfl) fun t => rfl⟩
  · subst ht
    obtain ⟨rfl, rfl⟩ := eq_append_of_readWord h
    exact ⟨_, rfl, reads_word (List.all_eq_true.mp rfl) fun t => rfl⟩
  · subst hf
    obtain ⟨rfl, rfl⟩ := eq_append_of_readWord h
    exact ⟨_, rfl, reads_word (List.all_eq_true.mp rfl) fun t => rfl⟩
  · subst hminus
    obtain ⟨hr, hl⟩ := readNumber_of_numberLexeme h
    obtain ⟨body, rfl, hmem, hall⟩ := takes_readNumber hr
    have hsign : ∀ x, readLexeme '-' x = numberLexeme ('-' :: x) (readNumber x) := fun x => rfl
    rw [hl '-' body rfl]
    refine ⟨body, rfl, reads_number (List.forall_mem_cons.mpr ⟨by decide, hmem⟩) fun after ha => ?_⟩
    rw [hsign, hall after ha]
  · obtain ⟨hr, hl⟩ := readNumber_of_numberLexeme h
    obtain ⟨body, hbody, hmem, hall⟩ := takes_readNumber hr
    cases body with
    | nil => cases hall [] (by simp [Apart])
    | cons d body =>
      obtain ⟨rfl, rfl⟩ := List.cons.inj hbody
      have hplain : ∀ x, readLexeme c x = numberLexeme (c :: x) (readNumber (c :: x)) := by
        intro x
        simp [readLexeme, hmark, hquote, hn, ht, hf, hminus, hdigit]
      rw [hl c body rfl]
      refine ⟨body, rfl, reads_number hmem fun after ha => ?_⟩
      rw [hplain, ← List.cons_append, hall after ha]
  · obtain ⟨rfl, -⟩ := Prod.mk.inj (Except.ok.inj h)
    exact absurd rfl hl

end ImportAlias.Json
