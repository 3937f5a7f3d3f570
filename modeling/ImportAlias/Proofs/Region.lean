import ImportAlias.Proofs.Text
import Mathlib.Tactic.SplitIfs

/-! Comments and string literals of a source text, read character by character. -/
namespace ImportAlias

open Text (byteSize)

/-- Where a character of a source text stands. A slash in code may open a comment, a star in a
block comment may close it, and a line break without escape breaks a literal for good. -/
inductive Region where
  | code
  | slash
  | lineComment
  | blockComment
  | star
  | literal (quote : Char)
  | escape (quote : Char)
  | continuation (quote : Char)
  | broken
  deriving DecidableEq, Repr

namespace Region

def isTerminator (c : Char) : Bool :=
  c == '\n' || c == '\r' || c.toNat == 0x2028 || c.toNat == 0x2029

def opened (c : Char) : Region :=
  if c = '/' then slash else if c = '"' ∨ c = '\x27' then literal c else code

def within (q c : Char) : Region :=
  if c = q then code
  else if c = '\\' then escape q
  else if c = '\n' ∨ c = '\r' then broken
  else literal q

def step : Region → Char → Region
  | code, c => opened c
  | slash, c => if c = '/' then lineComment else if c = '*' then blockComment else opened c
  | lineComment, c => if isTerminator c then code else lineComment
  | blockComment, c => if c = '*' then star else blockComment
  | star, c => if c = '/' then code else if c = '*' then star else blockComment
  | literal q, c => within q c
  | escape q, c => if c = '\r' then continuation q else literal q
  | continuation q, c => if c = '\n' then literal q else within q c
  | broken, _ => broken

def run (r : Region) (t : Text) : Region := t.foldl step r

def isCode : Region → Bool
  | code | slash => true
  | _ => false

/-- In a literal that its quote would close. -/
def isOpen (q : Char) (r : Region) : Bool := r == literal q || r == continuation q

/-- The region that a text starts in: a hashbang is a line comment. -/
def initial (text : Text) : Region :=
  if Text.startsWith ['#', '!'] text then lineComment else code

/-- The byte offset at which a literal closes. -/
def close? (q : Char) : Region → Nat → Text → Option Nat
  | _, _, [] => none
  | r, o, c :: t =>
    if c = q ∧ r.isOpen q then some o else close? q (r.step c) (o + c.utf8Size) t

/-- The byte ranges between the quotes of the literals that open in a text. -/
def literalsFrom : Region → Nat → Text → List Span
  | _, _, [] => []
  | r, o, c :: t =>
    let o' := o + c.utf8Size
    (if r.isCode ∧ (c = '"' ∨ c = '\x27') then
      ((close? c (literal c) o' t).map (Span.mk o')).toList else []) ++
      literalsFrom (r.step c) o' t

def literals (text : Text) : List Span := literalsFrom (initial text) 0 text

@[simp] theorem run_nil (r : Region) : r.run [] = r := rfl

@[simp] theorem run_cons (r : Region) (c : Char) (t : Text) : r.run (c :: t) = (r.step c).run t :=
  rfl

theorem run_append (r : Region) (s t : Text) : r.run (s ++ t) = (r.run s).run t :=
  List.foldl_append

theorem mem_literalsFrom {r : Region} {o i j : Nat} {t : Text} :
    ⟨i, j⟩ ∈ literalsFrom r o t ↔ ∃ front c back, t = front ++ c :: back ∧
      (c = '"' ∨ c = '\x27') ∧ (r.run front).isCode ∧ i = o + byteSize front + c.utf8Size ∧
      close? c (literal c) i back = some j := by
  induction t generalizing r o with
  | nil => simp [literalsFrom]
  | cons d t ih =>
    unfold literalsFrom
    dsimp only
    rw [List.mem_append, ih]
    constructor
    · rintro (h | ⟨front, c, back, rfl, hq, hr, hi, hc⟩)
      · split_ifs at h with hd
        · obtain ⟨k, hk, he⟩ := Option.map_eq_some_iff.mp (Option.mem_toList.mp h)
          cases he
          exact ⟨[], d, t, rfl, hd.2, hd.1, by simp [byteSize], hk⟩
        · cases h
      · exact ⟨d :: front, c, back, rfl, hq, hr, by simp [byteSize, hi, Nat.add_assoc], hc⟩
    · rintro ⟨front, c, back, he, hq, hr, hi, hc⟩
      cases front with
      | nil =>
        obtain ⟨rfl, rfl⟩ := List.cons.inj he
        left
        have hi' : i = o + d.utf8Size := by simpa [byteSize] using hi
        subst hi'
        rw [if_pos ⟨hr, hq⟩, Option.mem_toList, hc]
        rfl
      | cons e front =>
        obtain ⟨rfl, rfl⟩ := List.cons.inj he
        right
        exact ⟨front, c, back, rfl, hq, hr, by simp [byteSize, hi, Nat.add_assoc], hc⟩

/-- Without its quote, a text cannot close a literal. -/
private theorem close?_append {q : Char} {s : Text} (hs : q ∉ s) (r : Region) (o : Nat) (t : Text) :
    close? q r o (s ++ t) = close? q (r.run s) (o + byteSize s) t := by
  induction s generalizing r o with
  | nil => rfl
  | cons c s ih =>
    obtain ⟨hc, hs⟩ := not_or.mp (mt List.mem_cons.mpr hs)
    rw [List.cons_append, close?, if_neg fun h => hc h.1.symm, ih hs, run_cons]
    congr 1
    rw [byteSize]
    omega

private theorem le_of_close?_eq_some {q : Char} {r : Region} {o j : Nat} {t : Text}
    (h : close? q r o t = some j) : o ≤ j := by
  induction t generalizing r o with
  | nil => cases h
  | cons c t ih =>
    unfold close? at h
    split_ifs at h
    · exact Nat.le_of_eq (Option.some.inj h)
    · have := ih h
      omega

/-- A text between two equal quotes is the content of a literal exactly if its first quote stands
in code and nothing in it keeps the second one from closing the literal. -/
theorem mem_literals_iff {front s back : Text} {c : Char} (hq : c = '"' ∨ c = '\x27') (hs : c ∉ s) :
    ⟨byteSize front + 1, byteSize front + 1 + byteSize s⟩ ∈
        literals (front ++ c :: (s ++ c :: back)) ↔
      ((initial (front ++ c :: (s ++ c :: back))).run front).isCode ∧
        ((literal c).run s).isOpen c := by
  have hsize : c.utf8Size = 1 := by rcases hq with rfl | rfl <;> decide
  have hclose : close? c (literal c) (byteSize front + 1) (s ++ c :: back) =
      some (byteSize front + 1 + byteSize s) ↔ ((literal c).run s).isOpen c := by
    rw [close?_append hs, close?]
    split_ifs with h
    · exact iff_of_true rfl h.2
    · refine iff_of_false (fun hc => ?_) fun ho => h ⟨rfl, ho⟩
      have := le_of_close?_eq_some hc
      omega
  rw [literals, mem_literalsFrom]
  constructor
  · rintro ⟨front', c', back', he, -, hr, hi, hc⟩
    have hsplit : (front ++ [c]) ++ (s ++ c :: back) = (front' ++ [c']) ++ back' := by
      simpa using he
    obtain ⟨hf, hb⟩ := Text.append_inj_byteSize hsplit (by simp [byteSize, hsize, hi])
    obtain ⟨rfl, hc'⟩ := List.append_inj' hf rfl
    obtain rfl : c = c' := by simpa using hc'
    subst hb
    exact ⟨hr, hclose.mp hc⟩
  · rintro ⟨hr, ho⟩
    exact ⟨front, c, _, rfl, hq, hr, by rw [hsize, Nat.zero_add], hclose.mpr ho⟩

end Region

end ImportAlias
