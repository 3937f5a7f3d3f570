/-! Texts as lists of characters: affixes, splitting at a character, whitespace and trimming. -/
namespace ImportAlias

/-- Source text, a specifier, a path or a name: a list of characters. -/
abbrev Text := List Char

namespace Text

/-- The characters with the Unicode property `White_Space`. -/
def isBlank (c : Char) : Bool :=
  (9 ≤ c.toNat && c.toNat ≤ 13) || c.toNat == 0x20 || c.toNat == 0x85 || c.toNat == 0xA0 ||
    c.toNat == 0x1680 || (0x2000 ≤ c.toNat && c.toNat ≤ 0x200A) || c.toNat == 0x2028 ||
    c.toNat == 0x2029 || c.toNat == 0x202F || c.toNat == 0x205F || c.toNat == 0x3000

/-- What follows `p`, if the text starts with `p`. -/
def after? : Text → Text → Option Text
  | [], t => some t
  | _ :: _, [] => none
  | a :: p, b :: t => if a = b then after? p t else none

/-- What precedes `s`, if the text ends with `s`. -/
def before? (s t : Text) : Option Text :=
  (after? s.reverse t.reverse).map List.reverse

def startsWith (p t : Text) : Bool := (after? p t).isSome

def endsWith (s t : Text) : Bool := (before? s t).isSome

/-- The texts before and after the first occurrence of `p`. -/
def cut? (p : Text) : Text → Option (Text × Text)
  | [] => if p = [] then some ([], []) else none
  | c :: t =>
    match after? p (c :: t) with
    | some rest => some ([], rest)
    | none => (cut? p t).map fun (l, r) => (c :: l, r)

def cutAt? (c : Char) : Text → Option (Text × Text)
  | [] => none
  | d :: t => if d = c then some ([], t) else (cutAt? c t).map fun (l, r) => (d :: l, r)

def cutAtLast? (c : Char) : Text → Option (Text × Text)
  | [] => none
  | d :: t =>
    match cutAtLast? c t with
    | some (l, r) => some (d :: l, r)
    | none => if d = c then some ([], t) else none

/-- Puts a character in front of the first piece. -/
def consFirst (c : Char) : List Text → List Text
  | [] => [[c]]
  | s :: ss => (c :: s) :: ss

/-- The pieces between occurrences of a character; there is always at least one. -/
def splitOn (sep : Char) : Text → List Text
  | [] => [[]]
  | c :: t => if c = sep then [] :: splitOn sep t else consFirst c (splitOn sep t)

/-- The pieces with a character between neighbours. -/
def joinWith (sep : Char) : List Text → Text
  | [] => []
  | [s] => s
  | s :: ss => s ++ sep :: joinWith sep ss

def trimStart (t : Text) : Text := t.dropWhile isBlank

def trimEnd (t : Text) : Text := (t.reverse.dropWhile isBlank).reverse

def trim (t : Text) : Text := trimEnd (trimStart t)

/-- The number of bytes of the UTF-8 encoding. -/
def byteSize : Text → Nat
  | [] => 0
  | c :: t => c.utf8Size + byteSize t

theorem splitOn_ne_nil (sep : Char) (t : Text) : splitOn sep t ≠ [] := by
  cases t with
  | nil => simp [splitOn]
  | cons c t =>
    unfold splitOn
    split
    · simp
    · cases splitOn sep t <;> simp [consFirst]

@[simp] theorem joinWith_splitOn (sep : Char) (t : Text) : joinWith sep (splitOn sep t) = t := by
  induction t with
  | nil => rfl
  | cons c t ih =>
    have hne := splitOn_ne_nil sep t
    unfold splitOn
    split
    · rename_i h
      cases hs : splitOn sep t with
      | nil => exact absurd hs hne
      | cons s ss => rw [hs] at ih; simp [joinWith, ih, h]
    · cases hs : splitOn sep t with
      | nil => exact absurd hs hne
      | cons s ss =>
        rw [hs] at ih
        cases ss with
        | nil => simp_all [joinWith, consFirst]
        | cons u us => simp_all [joinWith, consFirst]

theorem after?_eq_some {p t r : Text} : after? p t = some r ↔ t = p ++ r := by
  induction p generalizing t with
  | nil => simp [after?, eq_comm]
  | cons a p ih =>
    cases t with
    | nil => simp [after?]
    | cons b t =>
      by_cases h : a = b
      · simp [after?, h, ih]
      · simp [after?, h, Ne.symm h]

theorem before?_eq_some {s t l : Text} : before? s t = some l ↔ t = l ++ s := by
  simp only [before?, Option.map_eq_some_iff, after?_eq_some]
  constructor
  · rintro ⟨r, h, rfl⟩
    have := congrArg List.reverse h
    simpa using this
  · rintro rfl
    exact ⟨l.reverse, by simp, by simp⟩

end Text

end ImportAlias
