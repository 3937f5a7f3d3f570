import ImportAlias.Proofs.Grammar.Strings
import ImportAlias.Proofs.Module.Literals

/-! Escapes in string literals. A literal prints its value with escapes, so that its second quote
ends it and the value can be read off. A literal is read from a token without looking at escapes, so
that they belong to its value and are printed once more. -/
namespace ImportAlias

open Grammar (IsBody isBody_nil cutQuote?)

namespace Literal

/-- What a text between two `q` stands for when each escaping backslash is dropped. There is nothing
that a quote without an escape, or an escape of nothing, could stand for. -/
def unescape? (q : Char) : Text → Option Text
  | [] => some []
  | '\\' :: c :: t => (unescape? q t).map (c :: ·)
  | c :: t => if c = q ∨ c = '\\' then none else (unescape? q t).map (c :: ·)

variable {q : Char} {a : Text}

theorem char_ne_backslash (q : Quote) : q.char ≠ '\\' := by cases q <;> decide

/-! Printing -/

theorem unescape?_cons {c : Char} (h : ¬ (c = q ∨ c = '\\')) (t : Text) :
    unescape? q (c :: t) = (unescape? q t).map (c :: ·) := by
  rw [unescape?.eq_def]
  split <;> simp_all

theorem unescape?_escape (q : Char) (a : Text) : unescape? q (escape q a) = some a := by
  induction a with
  | nil => rfl
  | cons c a ih =>
    unfold escape
    split_ifs with hc
    · simp [unescape?, ih]
    · simp [unescape?_cons hc, ih]

theorem escape_injective (q : Char) : Function.Injective (escape q) := by
  intro a b h
  have hb := unescape?_escape q b
  rw [← h, unescape?_escape] at hb
  exact Option.some.inj hb

/-- What a literal prints between its quotes can stand there. -/
theorem isBody_escape (q : Quote) (a : Text) : IsBody q.char (escape q.char a) := by
  induction a with
  | nil => exact isBody_nil (char_ne_backslash q)
  | cons c a ih =>
    unfold escape
    split_ifs with hc
    · exact ih.escape c
    · obtain ⟨h₁, h₂⟩ := not_or.mp hc
      exact ih.cons h₂ h₁

theorem not_mem_escape {c : Char} (hc : c ≠ '\\') (h : c ∉ a) : c ∉ escape q a := by
  induction a with
  | nil => simp [escape]
  | cons d a ih =>
    obtain ⟨hd, ha⟩ := not_or.mp (mt List.mem_cons.mpr h)
    unfold escape
    split_ifs
    · simp [hc, hd, ih ha]
    · simp [hd, ih ha]

theorem source_append (l : Literal) (rest : Text) : l.source ++ rest =
    l.quote.char :: (escape l.quote.char l.value ++ l.quote.char :: rest) := by
  simp [source]

/-- A literal prints its quote, a body and its quote. The body decodes to the value, and whatever
follows the literal, the first quote that no backslash stands before is the one behind the body. So
of two literals with one quote, neither prints the start of the other, but for those of one
value. -/
theorem source_decodes (l : Literal) :
    (∃ body, l.source = l.quote.char :: (body ++ [l.quote.char]) ∧
      unescape? l.quote.char body = some l.value ∧
      ∀ rest, cutQuote? l.quote.char (body ++ l.quote.char :: rest) = some (body, rest)) ∧
    ∀ l' : Literal, l'.quote = l.quote → ∀ rest rest', l'.source ++ rest' = l.source ++ rest →
      l'.value = l.value ∧ rest' = rest := by
  refine ⟨⟨escape l.quote.char l.value, rfl, unescape?_escape _ _, isBody_escape _ _⟩, ?_⟩
  intro l' hq rest rest' h
  rw [source_append, source_append, hq] at h
  have hcut := isBody_escape l.quote l'.value rest'
  rw [(List.cons.inj h).2, isBody_escape l.quote l.value rest] at hcut
  obtain ⟨hbody, hrest⟩ := Prod.mk.inj (Option.some.inj hcut)
  exact ⟨(escape_injective _ hbody).symm, hrest.symm⟩

/-- Backslashes before a quote and at the end. -/
example : source ⟨"\\\\'\\".toList, [], .single, ⟨0, 0⟩⟩ = "'\\\\\\\\\\'\\\\'".toList := rfl

/-! Reading -/

theorem length_le_length_escape (q : Char) (a : Text) : a.length ≤ (escape q a).length := by
  induction a with
  | nil => exact Nat.le_refl 0
  | cons c a ih =>
    unfold escape
    split_ifs <;> simp only [List.length_cons] <;> omega

/-- Only a text without quotes and backslashes is printed as it is. -/
theorem escape_eq_self_iff : escape q a = a ↔ q ∉ a ∧ '\\' ∉ a := by
  induction a with
  | nil => simp [escape]
  | cons c a ih =>
    unfold escape
    split_ifs with hc
    · refine iff_of_false (fun h => ?_) ?_
      · have hlen := congrArg List.length h
        have hle := length_le_length_escape q a
        simp only [List.length_cons] at hlen
        omega
      · rcases hc with rfl | rfl <;> simp
    · obtain ⟨hq, hb⟩ := not_or.mp hc
      simp [ih, Ne.symm hq, Ne.symm hb]

theorem ofToken?_token (q : Quote) (raw : Text) (span : Span) :
    ofToken? (q.char :: (raw ++ [q.char])) span = some (ofSource raw q span) := by
  have hq : Quote.ofChar? q.char = some q := by cases q <;> decide
  simp [ofToken?, hq]

/-- What is read from a printed literal is what was printed between the quotes. -/
theorem ofToken?_source (l : Literal) (span : Span) : ofToken? l.source span =
    some (ofSource (escape l.quote.char l.value) l.quote span) :=
  ofToken?_token l.quote _ span

theorem isBody_of_not_mem {q : Quote} (hq : q.char ∉ a) (hb : '\\' ∉ a) : IsBody q.char a := by
  have h := isBody_escape q a
  rwa [escape_eq_self_iff.mpr ⟨hq, hb⟩] at h

/-- Inside a string token every quote stands behind a backslash. -/
theorem not_mem_of_isBody {q : Quote} (h : IsBody q.char a) (hb : '\\' ∉ a) : q.char ∉ a := by
  intro hm
  obtain ⟨front, back, ha, hf⟩ := List.eq_append_cons_of_mem hm
  have hfront : IsBody q.char front := by
    refine isBody_of_not_mem hf fun hback => hb ?_
    rw [ha]
    exact List.mem_append_left _ hback
  have hstarts : front ++ [q.char] <+: a ++ [q.char] := ⟨back ++ [q.char], by simp [ha]⟩
  rw [h.eq_of_starts hfront hstarts] at hf
  exact hf hm

/-- Printing undoes reading exactly for the tokens without a backslash. Reading undoes printing
exactly for the values without a backslash and the quote of the literal; of any other value it gives
back the escaped form. -/
theorem source_ofToken?_iff (q : Quote) {raw : Text} (h : IsBody q.char raw) (span : Span) :
    ∃ l, ofToken? (q.char :: (raw ++ [q.char])) span = some l ∧
      (l.source = q.char :: (raw ++ [q.char]) ↔ '\\' ∉ raw) ∧
      ∀ (choose : Text → Option Text) (span' : Span), ∃ l',
        ofToken? (l.aliased choose).source span' = some l' ∧
        unescape? q.char l'.value = some (l.aliased choose).value ∧
        (l'.value = (l.aliased choose).value ↔
          q.char ∉ (l.aliased choose).value ∧ '\\' ∉ (l.aliased choose).value) := by
  refine ⟨_, ofToken?_token q raw span, ?_, fun choose span' =>
    ⟨_, ofToken?_source _ span', unescape?_escape _ _, escape_eq_self_iff⟩⟩
  have hsource : (ofSource raw q span).source = q.char :: (raw ++ [q.char]) ↔
      escape q.char raw = raw := by simp [source, ofSource]
  rw [hsource, escape_eq_self_iff]
  exact ⟨And.right, fun hb => ⟨not_mem_of_isBody h hb, hb⟩⟩

theorem source_ofToken?_plain : ∃ l, ofToken? "'../a'".toList ⟨0, 6⟩ = some l ∧
    l.source = "'../a'".toList ∧
    ∃ l', ofToken? (l.aliased fun _ => some "@/a".toList).source ⟨0, 5⟩ = some l' ∧
      l'.value = "@/a".toList := by
  have hbody : IsBody Quote.single.char "../a".toList := isBody_of_not_mem (by decide) (by decide)
  obtain ⟨l, hl, hprint, hread⟩ := source_ofToken?_iff .single hbody ⟨0, 6⟩
  obtain ⟨l', hl', -, hvalue⟩ := hread (fun _ => some "@/a".toList) ⟨0, 5⟩
  exact ⟨l, hl, hprint.mpr (by decide), l', hl',
    hvalue.mpr ⟨show '\x27' ∉ "@/a".toList by decide, show '\\' ∉ "@/a".toList by decide⟩⟩

/-- An escaped quote is escaped again, and an apostrophe comes back with a backslash. -/
theorem source_ofToken?_apostrophe : IsBody Quote.single.char "it\\'s".toList ∧
    ∃ l, ofToken? "'it\\'s'".toList ⟨0, 7⟩ = some l ∧ l.source = "'it\\\\\\'s'".toList ∧
      l.source ≠ "'it\\'s'".toList ∧
      ∃ l', ofToken? (l.aliased fun _ => some "@/it's".toList).source ⟨0, 9⟩ = some l' ∧
        l'.value = "@/it\\'s".toList ∧ l'.value ≠ "@/it's".toList := by
  exact ⟨isBody_escape .single "it's".toList, _, rfl, by decide, by decide, _, rfl, by decide,
    by decide⟩

end Literal

end ImportAlias
