import ImportAlias.Header.Line
import ImportAlias.Proofs.Text
import Mathlib.Data.List.TakeWhile
import Mathlib.Tactic.SplitIfs
import Mathlib.Tactic.Tauto

/-! Readers that skip words and whitespace. What they skip holds no quote, brace, slash or
backslash, and they look at most one character ahead. -/
namespace ImportAlias.Header

open Text (isBlank isNameChar after? after?_eq_some cutAt?_eq_some)

/-- Characters that open neither a string, nor a comment, nor a brace list. -/
def isQuiet (c : Char) : Bool :=
  c != '"' && c != '\x27' && c != '\x7b' && c != '/' && c != '\\'

def Quiet (t : Text) : Prop := ∀ c ∈ t, isQuiet c

instance (t : Text) : Decidable (Quiet t) := List.decidableBAll (isQuiet · = true) t

/-- The reader skips quiet characters, and what it skips depends on the rest only through the first
character of the rest. -/
def Skips (f : Text → Option Text) : Prop :=
  ∀ ⦃t r : Text⦄, f t = some r → ∃ pre, t = pre ++ r ∧ Quiet pre ∧
    ∀ r' : Text, r'.head? = r.head? → f (pre ++ r') = some r'

theorem quiet_nil : Quiet [] := by simp [Quiet]

theorem Quiet.append {s t : Text} (hs : Quiet s) (ht : Quiet t) : Quiet (s ++ t) := by
  intro c hc
  rcases List.mem_append.mp hc with hc | hc
  · exact hs c hc
  · exact ht c hc

/-- A class of characters without the five special ones is quiet. -/
private theorem isQuiet_of_class {p : Char → Bool}
    (hp : ['"', '\x27', '\x7b', '/', '\\'].any p = false) {c : Char} (h : p c) :
    isQuiet c := by
  have hc : c ∉ ['"', '\x27', '\x7b', '/', '\\'] := fun hm =>
    absurd h (List.any_eq_false.mp hp c hm)
  simp only [List.mem_cons, List.not_mem_nil, or_false, not_or] at hc
  simp [isQuiet, hc]

theorem isQuiet_of_isBlank {c : Char} (h : isBlank c) : isQuiet c :=
  isQuiet_of_class (p := isBlank) (by decide) h

theorem isQuiet_of_isNameChar {c : Char} (h : isNameChar c) : isQuiet c :=
  isQuiet_of_class (p := isNameChar) (by decide) h

theorem head?_append_congr {r r' : Text} (pre : Text) (h : r'.head? = r.head?) :
    (pre ++ r').head? = (pre ++ r).head? := by
  cases pre <;> simp [h]

theorem Skips.bind {f g : Text → Option Text} (hf : Skips f) (hg : Skips g) :
    Skips fun t => (f t).bind g := by
  intro t r h
  obtain ⟨u, hu, hr⟩ := Option.bind_eq_some_iff.mp h
  obtain ⟨pre, rfl, hpre, hfl⟩ := hf hu
  obtain ⟨mid, rfl, hmid, hgl⟩ := hg hr
  refine ⟨pre ++ mid, by simp, hpre.append hmid, ?_⟩
  intro r' hr'
  have hf' := hfl (mid ++ r') (head?_append_congr mid hr')
  simp [List.append_assoc, hf', hgl r' hr']

theorem Skips.or {f g : Text → Option Text} (hf : Skips f) (hg : Skips g)
    (hfg : ∀ t, (g t).isSome → f t = none) : Skips fun t => (f t).or (g t) := by
  intro t r h
  rcases Option.or_eq_some_iff.mp h with h | ⟨-, h⟩
  · obtain ⟨pre, rfl, hpre, hl⟩ := hf h
    exact ⟨pre, rfl, hpre, fun r' hr' => by simp [hl r' hr']⟩
  · obtain ⟨pre, rfl, hpre, hl⟩ := hg h
    refine ⟨pre, rfl, hpre, fun r' hr' => ?_⟩
    have hn := hfg (pre ++ r') (by simp [hl r' hr'])
    simp [hn, hl r' hr']

theorem optionally_eq {α : Type} (skipped? : Text → Option Text) (f : Text → Option α) :
    optionally skipped? f = fun t => ((skipped? t).bind f).or (f t) := by
  funext t
  unfold optionally
  cases skipped? t <;> simp

/-- Where dropping a class of characters stops, it stops again for every rest that starts alike. -/
private theorem dropWhile_local {p : Char → Bool} (t r' : Text)
    (h : r'.head? = (t.dropWhile p).head?) : (t.takeWhile p ++ r').dropWhile p = r' := by
  have hin : ∀ c ∈ t.takeWhile p, p c := fun c hc => List.mem_takeWhile_imp hc
  rw [List.dropWhile_append_of_pos hin]
  cases r' with
  | nil => rfl
  | cons c r' =>
    have hc : (t.dropWhile p).head? = some c := by simpa using h.symm
    have hp : p c = false := by simpa [hc] using List.head?_dropWhile_not p t
    simp [hp]

theorem skips_dropWhile {p : Char → Bool} (hp : ∀ c, p c → isQuiet c) :
    Skips fun t => some (t.dropWhile p) := by
  intro t r h
  obtain rfl : t.dropWhile p = r := Option.some.inj h
  refine ⟨t.takeWhile p, (List.takeWhile_append_dropWhile).symm, ?_, ?_⟩
  · exact fun c hc => hp c (List.mem_takeWhile_imp hc)
  · exact fun r' hr' => congrArg some (dropWhile_local t r' hr')

/-- Skipping a class of characters of which there must be one. -/
private theorem skips_run {p : Char → Bool} {f : Text → Option Text} (hp : ∀ c, p c → isQuiet c)
    (hf : ∀ t, f t = if t.takeWhile p = [] then none else some (t.dropWhile p)) : Skips f := by
  intro t r h
  rw [hf] at h
  split_ifs at h with hne
  obtain rfl : t.dropWhile p = r := Option.some.inj h
  refine ⟨t.takeWhile p, (List.takeWhile_append_dropWhile).symm, ?_, ?_⟩
  · exact fun c hc => hp c (List.mem_takeWhile_imp hc)
  · intro r' hr'
    have hd := dropWhile_local t r' hr'
    have ht : (t.takeWhile p ++ r').takeWhile p ≠ [] := by
      rw [List.takeWhile_append_of_pos (fun c hc => List.mem_takeWhile_imp hc)]
      simp [hne]
    rw [hf, if_neg ht, hd]

theorem skips_blanks : Skips fun t => some (blanks t) :=
  skips_dropWhile fun _ => isQuiet_of_isBlank

theorem skips_blanks? : Skips blanks? := by
  refine skips_run (p := isBlank) (fun _ => isQuiet_of_isBlank) fun t => ?_
  cases t with
  | nil => rfl
  | cons c t => by_cases hc : isBlank c <;> simp [blanks?, blanks, hc]

theorem skips_name : Skips skipName? := by
  refine skips_run (p := isNameChar) (fun _ => isQuiet_of_isNameChar) fun t => ?_
  unfold skipName? name?
  split <;> simp_all

theorem skips_skip {s : String} (hs : Quiet s.toList) : Skips (skip? s) := by
  intro t r h
  refine ⟨s.toList, after?_eq_some.mp h, hs, fun r' _ => ?_⟩
  exact after?_eq_some.mpr rfl

theorem skips_keyword {s : String} (hs : Quiet s.toList) : Skips (keyword? s) :=
  (skips_skip hs).bind skips_blanks?

theorem skips_defaultName : Skips defaultName? :=
  skips_name.bind (skips_blanks.bind ((skips_skip (by decide)).bind skips_blanks))

theorem skips_items (named : Bool) : Skips fun t => some (items named t) := by
  intro t r h
  obtain rfl : items named t = r := Option.some.inj h
  induction t generalizing named with
  | nil =>
    refine ⟨[], rfl, quiet_nil, fun r' hr' => ?_⟩
    have : r' = [] := by simpa [items] using hr'
    simp [this, items]
  | cons c t ih =>
    unfold items
    split_ifs with hn hb hc
    · obtain ⟨pre, ht, hq, hl⟩ := ih true rfl
      refine ⟨c :: pre, by simpa using ht, ?_, fun r' hr' => ?_⟩
      · simpa [Quiet, isQuiet_of_isNameChar hn] using hq
      · simpa [items, hn] using hl r' hr'
    · obtain ⟨pre, ht, hq, hl⟩ := ih named rfl
      refine ⟨c :: pre, by simpa using ht, ?_, fun r' hr' => ?_⟩
      · simpa [Quiet, isQuiet_of_isBlank hb] using hq
      · simpa [items, hn, hb] using hl r' hr'
    · obtain ⟨rfl, rfl⟩ := hc
      obtain ⟨pre, ht, hq, hl⟩ := ih false rfl
      refine ⟨',' :: pre, by simpa using ht, ?_, fun r' hr' => ?_⟩
      · have : isQuiet ',' := by decide
        simpa [Quiet, this] using hq
      · simpa [items, hn, hb] using hl r' hr'
    · refine ⟨[], rfl, quiet_nil, fun r' hr' => ?_⟩
      cases r' with
      | nil => simp at hr'
      | cons d r' =>
        obtain rfl : d = c := by simpa using hr'
        simp [hn, hb, hc]

theorem braces?_eq_some {t r : Text} :
    braces? t = some r ↔ ∃ b, t = '\x7b' :: (b ++ '\x7d' :: r) ∧ '\x7d' ∉ b := by
  have he : braces? t =
      (skip? "\x7b" t).bind fun u => (Text.cutAt? '\x7d' u).bind fun p => some p.2 := rfl
  rw [he]
  simp only [Option.bind_eq_some_iff, Option.some.injEq, Prod.exists, cutAt?_eq_some]
  constructor
  · rintro ⟨u, hu, l, v, ⟨rfl, hl⟩, rfl⟩
    exact ⟨l, after?_eq_some.mp hu, hl⟩
  · rintro ⟨b, rfl, hb⟩
    exact ⟨b ++ '\x7d' :: r, after?_eq_some.mpr rfl, b, r, ⟨rfl, hb⟩, rfl⟩

end ImportAlias.Header
