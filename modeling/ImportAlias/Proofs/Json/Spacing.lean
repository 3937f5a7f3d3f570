import ImportAlias.Proofs.Json.Lexing
import ImportAlias.Proofs.Json.Parsing

/-! Documents as tokens with something between them. Whitespace between the tokens of a document can
be any, also none. -/
namespace ImportAlias.Json

def wordsUpTo : Nat → Text → List Text
  | 0, _ => []
  | n + 1, t =>
    match t.dropWhile isSpace with
    | [] => []
    | c :: rest =>
      match readLexeme c rest with
      | .error _ => []
      | .ok (_, left) => (c :: rest).take (rest.length + 1 - left.length) :: wordsUpTo n left

def words (t : Text) : List Text := wordsUpTo t.length t

/-- What may stand between tokens and behind the last one, and whether a comma may stand before a
closing bracket or brace. -/
structure Spacing where
  gap : Text → Prop
  stop : Text → Prop
  comma : Prop

/-- A text of tokens with something between them. -/
inductive Laid (m : Spacing) : List Text → Text → Prop where
  | nil {e : Text} (h : m.stop e) : Laid m [] e
  | token {g w u : Text} {ws : List Text} (hg : m.gap g) (h : Laid m ws u) :
      Laid m (w :: ws) (g ++ (w ++ u))
  | comma {g g' w u : Text} {ws : List Text} (hm : m.comma) (hg : m.gap g) (hg' : m.gap g')
      (hw : w = [']'] ∨ w = ['\x7d']) (h : Laid m ws u) :
      Laid m (w :: ws) (g ++ ',' :: (g' ++ (w ++ u)))

def IsSpaces (t : Text) : Prop := ∀ c ∈ t, isSpace c = true

def strict : Spacing := ⟨IsSpaces, IsSpaces, False⟩

theorem isSpace_cases {c : Char} (h : isSpace c = true) :
    c = ' ' ∨ c = '\n' ∨ c = '\t' ∨ c = '\r' := by
  simpa [isSpace, or_assoc] using h

theorem dropWhile_spaces {g t : Text} (hg : IsSpaces g) (ht : ∀ c ∈ t.head?, isSpace c = false) :
    (g ++ t).dropWhile isSpace = t := by
  rw [List.dropWhile_append_of_pos hg]
  cases t with
  | nil => rfl
  | cons c t => simp [ht c rfl]

theorem isSpaces_takeWhile (t : Text) : IsSpaces (t.takeWhile isSpace) :=
  fun _ hc => List.mem_takeWhile_imp hc

theorem isSpaces_nil : IsSpaces [] := List.forall_mem_nil _

/-- A document of tokens is laid out with whitespace. -/
theorem laid_wordsUpTo {n : Nat} {t : Text} {ls : List Lexeme} (hn : t.length ≤ n)
    (h : (tokensUpTo n t).map Token.lexeme = ls.map Except.ok) (hs : ∀ l ∈ ls, l ≠ .stray) :
    Laid strict (wordsUpTo n t) t ∧ List.Forall₂ Reads (wordsUpTo n t) ls := by
  induction n generalizing t ls with
  | zero =>
    obtain rfl : t = [] := List.eq_nil_of_length_eq_zero (by omega)
    obtain rfl : ls = [] := by simpa [tokensUpTo] using h
    exact ⟨.nil isSpaces_nil, .nil⟩
  | succ n ih =>
    have ht : t.takeWhile isSpace ++ t.dropWhile isSpace = t := List.takeWhile_append_dropWhile
    have hg := isSpaces_takeWhile t
    unfold tokensUpTo at h
    unfold wordsUpTo
    generalize t.takeWhile isSpace = g at ht hg
    generalize t.dropWhile isSpace = u at ht h
    subst ht
    cases u with
    | nil =>
      obtain rfl : ls = [] := by simpa using h
      rw [List.append_nil]
      exact ⟨.nil hg, .nil⟩
    | cons c rest =>
      cases hr : readLexeme c rest with
      | error f =>
        cases ls with
        | nil => simp [hr] at h
        | cons l ls => simp [hr] at h
      | ok p =>
        obtain ⟨l, left⟩ := p
        cases ls with
        | nil => simp [hr] at h
        | cons l' ls =>
          obtain ⟨rfl, hrest⟩ : l = l' ∧
              (tokensUpTo n left).map Token.lexeme = ls.map Except.ok := by
            simpa [hr] using h
          obtain ⟨hl, hs⟩ := List.forall_mem_cons.mp hs
          obtain ⟨body, rfl, hreads⟩ := exists_readLexeme hr hl
          have hword : (c :: (body ++ left)).take ((body ++ left).length + 1 - left.length) =
              c :: body := by
            have hlength : (body ++ left).length + 1 - left.length = (c :: body).length := by
              simp only [List.length_append, List.length_cons]
              omega
            rw [hlength, ← List.cons_append, List.take_left]
          have hshort : left.length ≤ n := by
            simp only [List.length_append, List.length_cons] at hn
            omega
          obtain ⟨hlaid, hforall⟩ := ih hshort hrest hs
          simp only [hr, hword]
          exact ⟨.token hg hlaid, .cons hreads hforall⟩

theorem isMark_cases {c : Char} (h : isMark c = true) :
    c = '[' ∨ c = ']' ∨ c = '\x7b' ∨ c = '\x7d' ∨ c = ':' ∨ c = ',' := by
  simpa [isMark, or_assoc] using h

theorem Shape.eq_of_mark {w : Text} {m : Char} (h : Shape w (.mark m)) :
    w = [m] ∧ isMark m = true := by
  cases h with
  | mark h => exact ⟨rfl, h⟩

theorem isSpace_of_isScalarChar {c : Char} (h : isScalarChar c = true) : isSpace c = false := by
  by_contra hs
  rw [Bool.not_eq_false] at hs
  rcases isSpace_cases hs with rfl | rfl | rfl | rfl <;> exact absurd h (by decide)

/-- A token has a first character, which is not whitespace. -/
theorem Shape.exists_cons {w : Text} {l : Lexeme} (h : Shape w l) :
    ∃ c body, w = c :: body ∧ isSpace c = false := by
  cases h with
  | mark h =>
    refine ⟨_, _, rfl, ?_⟩
    rcases isMark_cases h with rfl | rfl | rfl | rfl | rfl | rfl <;> decide
  | string h => exact ⟨_, _, rfl, by decide⟩
  | scalar h => exact ⟨_, _, rfl, isSpace_of_isScalarChar (h _ (by simp))⟩

theorem apart_cons {c : Char} {t : Text} (h : isSpace c = true ∨ isMark c = true) :
    Apart (c :: t) := by
  intro d hd
  obtain rfl : c = d := Option.some.inj hd
  rcases h with h | h
  · rcases isSpace_cases h with rfl | rfl | rfl | rfl <;> decide
  · rcases isMark_cases h with rfl | rfl | rfl | rfl | rfl | rfl <;> decide

theorem IsSpaces.apart {g t : Text} (hg : IsSpaces g) (ht : Apart t) : Apart (g ++ t) := by
  cases g with
  | nil => exact ht
  | cons c g => exact apart_cons (.inl (hg c (by simp)))

/-- Whitespace and marks do not go on with a number. -/
theorem Laid.apart {ws : List Text} {ls : List Lexeme} {u : Text} (h : Laid strict ws u)
    (hr : List.Forall₂ Reads ws ls) (hm : ∀ l ∈ ls.head?, ∃ m, l = .mark m) : Apart u := by
  cases h with
  | nil he =>
    have hempty : Apart [] := fun c hc => by cases hc
    simpa using IsSpaces.apart he hempty
  | token hg h =>
    cases hr with
    | cons hw _ =>
      obtain ⟨m, rfl⟩ := hm _ rfl
      obtain ⟨rfl, hmark⟩ := hw.shape.eq_of_mark
      exact IsSpaces.apart hg (apart_cons (.inr hmark))
  | comma hm => exact hm.elim

/-- Of two tokens in a row one is a mark, so what follows a number or a word ends it. -/
theorem Laid.apart_of_isChain {l : Lexeme} {ws : List Text} {ls : List Lexeme} {u : Text}
    (h : Laid strict ws u) (hr : List.Forall₂ Reads ws ls) (hc : (l :: ls).IsChain Adjacent) :
    (∃ m, l = .mark m) ∨ Apart u := by
  cases ls with
  | nil => exact .inr (h.apart hr fun l hl => by cases hl)
  | cons l' ls =>
    rcases (List.isChain_cons_cons.mp hc).1.mark with hl | hl
    · exact .inl hl
    · refine .inr (h.apart hr fun l hl' => ?_)
      obtain rfl := Option.some.inj hl'
      exact hl

/-- However much whitespace there is, the tokens are the same. -/
theorem Laid.tokens {n : Nat} {ws : List Text} {ls : List Lexeme} {u : Text} (h : Laid strict ws u)
    (hr : List.Forall₂ Reads ws ls) (hc : ls.IsChain Adjacent) (hn : u.length ≤ n) :
    (tokensUpTo n u).map Token.lexeme = ls.map Except.ok := by
  induction h generalizing n ls with
  | @nil e he =>
    cases hr
    have hdrop : e.dropWhile isSpace = [] := List.dropWhile_eq_nil_iff.mpr he
    cases n with
    | zero => rfl
    | succ n => simp [tokensUpTo, hdrop]
  | @token g w u ws hg h ih =>
    cases hr with
    | @cons _ l _ ls hw hrest =>
      obtain ⟨c, body, rfl, hspace⟩ := hw.shape.exists_cons
      obtain ⟨k, rfl⟩ : ∃ k, n = k + 1 := by
        refine ⟨n - 1, ?_⟩
        simp only [List.length_append, List.length_cons] at hn
        omega
      have hshort : u.length ≤ k := by
        simp only [List.length_append, List.length_cons] at hn
        omega
      have hafter := h.apart_of_isChain hrest hc
      have hdrop : (g ++ (c :: body ++ u)).dropWhile isSpace = c :: (body ++ u) :=
        dropWhile_spaces hg fun d hd => by
          obtain rfl := Option.some.inj hd
          exact hspace
      have htail := ih hrest hc.tail hshort
      rw [tokensUpTo, hdrop]
      simp only [hw.read c body rfl u hafter, List.map_cons, htail]
  | comma hm => exact hm.elim

/-- The tokens of a document, as written and as read. -/
structure Document (ws : List Text) (ls : List Lexeme) (v : Json) : Prop where
  reads : List.Forall₂ Reads ws ls
  accepts : Accepts ⟨[], .value⟩ ls v

/-- An accepted text is its tokens with whitespace between them. -/
theorem exists_document {t : Text} {v : Json} (h : parse t = .ok v) :
    ∃ ls, Document (words t) ls v ∧ Laid strict (words t) t := by
  obtain ⟨ls, hls, haccepts⟩ := run_eq_ok_iff.mp h
  obtain ⟨hlaid, hreads⟩ := laid_wordsUpTo le_rfl hls haccepts.ne_stray
  exact ⟨ls, ⟨hreads, haccepts⟩, hlaid⟩

/-- The tokens of a document give it back, with any whitespace between them. -/
theorem Document.parse {ws : List Text} {ls : List Lexeme} {v : Json} (h : Document ws ls v)
    {u : Text} (hu : Laid strict ws u) : parse u = .ok v :=
  run_eq_ok_iff.mpr ⟨ls, hu.tokens h.reads h.accepts.chain le_rfl, h.accepts⟩

end ImportAlias.Json
