import ImportAlias.Json.Basic

/-! The tokens of a JSON text. A token that cannot be read ends the list and carries its fault. -/
namespace ImportAlias.Json

inductive Lexeme where
  | mark (c : Char)
  | string (value : Text)
  | scalar (value : Json)
  /-- A character that starts no token. -/
  | stray
  deriving Repr

structure Token where
  start : Text
  lexeme : Except Fault Lexeme

def isSpace (c : Char) : Bool := c == ' ' || c == '\n' || c == '\t' || c == '\r'

def isMark (c : Char) : Bool :=
  c == '[' || c == ']' || c == '\x7b' || c == '\x7d' || c == ':' || c == ','

def hexDigit? (c : Char) : Option Nat :=
  if c.isDigit then some (c.toNat - 48)
  else if 'a' ≤ c ∧ c ≤ 'f' then some (c.toNat - 87)
  else if 'A' ≤ c ∧ c ≤ 'F' then some (c.toNat - 55)
  else none

def hex4? (a b c d : Char) : Option Nat := do
  return (← hexDigit? a) * 4096 + (← hexDigit? b) * 256 + (← hexDigit? c) * 16 + (← hexDigit? d)

/-- The fault of four bytes that are not four hexadecimal digits. -/
def hexFault (t : Text) : Fault :=
  if Text.byteSize t < 4 then .before .endInString [] else ⟨.invalidEscape, t, 4⟩

def escaped? (c : Char) : Option Char :=
  if c = '"' ∨ c = '\\' ∨ c = '/' then some c
  else if c = 'b' then some '\x08'
  else if c = 'f' then some '\x0c'
  else if c = 'n' then some '\n'
  else if c = 'r' then some '\r'
  else if c = 't' then some '\t'
  else none

def isLeading (n : Nat) : Bool := 0xD800 ≤ n && n ≤ 0xDBFF

def isTrailing (n : Nat) : Bool := 0xDC00 ≤ n && n ≤ 0xDFFF

def paired (n m : Nat) : Char := Char.ofNat ((n - 0xD800) * 1024 + (m - 0xDC00) + 0x10000)

/-- Reads a string after its opening quote; the characters read so far come last first. -/
def readString (done : Text) : Text → Except Fault (Text × Text)
  | [] => .error (.before .endInString [])
  | '"' :: t => .ok (done.reverse, t)
  | '\\' :: 'u' :: a :: b :: c :: d :: t =>
    match hex4? a b c d with
    | none => .error (hexFault (a :: b :: c :: d :: t))
    | some n =>
      if isTrailing n then .error (.before .loneSurrogate t)
      else if isLeading n then
        match t with
        | '\\' :: 'u' :: e :: f :: g :: h :: t' =>
          match hex4? e f g h with
          | none => .error (hexFault (e :: f :: g :: h :: t'))
          | some m =>
            if isTrailing m then readString (paired n m :: done) t'
            else .error (.before .loneSurrogate t')
        | '\\' :: 'u' :: t' => .error (hexFault t')
        | [] => .error (.before .endInString [])
        | ['\\'] => .error (.before .endInString [])
        | '\\' :: t' => .error ⟨.endOfSurrogate, t', 1⟩
        | t' => .error ⟨.endOfSurrogate, t', 1⟩
      else readString (Char.ofNat n :: done) t
  | '\\' :: 'u' :: t => .error (hexFault t)
  | ['\\'] => .error (.before .endInString [])
  | '\\' :: c :: t =>
    match escaped? c with
    | some e => readString (e :: done) t
    | none => .error (.before .invalidEscape t)
  | c :: t =>
    if c.toNat < 0x20 then .error (.before .controlCharacter t) else readString (c :: done) t

theorem readString_quote (done t : Text) : readString done ('"' :: t) = .ok (done.reverse, t) := by
  rw [readString]

def readWord (value : Json) : Text → Text → Except Fault (Lexeme × Text)
  | [], t => .ok (.scalar value, t)
  | _ :: _, [] => .error (.before .endInValue [])
  | a :: word, b :: t => if a = b then readWord value word t else .error (.before .wordExpected t)

/-- The significant digits that fit 64 bits, and how many were left out after them. -/
def significand (n : Nat) : Text → Nat × Nat
  | [] => (n, 0)
  | c :: t =>
    let m := n * 10 + (c.toNat - 48)
    if m < Nat.pow 2 64 then significand m t else (n, t.length + 1)

/-- A natural number rounded to 53 binary digits, a half going to the even neighbour. -/
def round53 (n : Nat) : Nat :=
  let unit := Nat.pow 2 (Nat.log2 n - 52)
  let q := n / unit
  let r := n % unit
  if 2 * r > unit ∨ (2 * r = unit ∧ q % 2 = 1) then (q + 1) * unit else q * unit

/-- Does `n · 10 ^ e` stay below the largest double, computed in doubles? -/
def isFinite (n e : Nat) : Bool :=
  n == 0 || (e ≤ 308 && round53 n * round53 (Nat.pow 10 e) < Nat.pow 2 1024 - Nat.pow 2 970)

/-- Reads the digits of an exponent: its value, unless it leaves 31 bits at the text returned. -/
def readExponent (n : Nat) : Text → (Nat × Text) ⊕ Text
  | [] => .inl (n, [])
  | c :: t =>
    if c.isDigit then
      let m := n * 10 + (c.toNat - 48)
      if m < Nat.pow 2 31 then readExponent m t else .inr t
    else .inl (n, c :: t)

/-- Reads the exponent of a number after its sign. The number so far is `n · 10 ^ (up - down)`. -/
def readMagnitude (n up down : Nat) (negative : Bool) : Text → Except Fault Text
  | [] => .error (.before .endInValue [])
  | c :: rest =>
    if c.isDigit then
      match readExponent (c.toNat - 48) rest with
      | .inl (e, rest) =>
        let net := if negative then up - (down + e) else up + e - down
        if isFinite n net then .ok rest
        else .error (.before .numberOutOfRange rest)
      | .inr rest =>
        if n = 0 ∨ negative then .ok (rest.dropWhile Char.isDigit)
        else .error (.before .numberOutOfRange rest)
    else .error (.before .invalidNumber rest)

def readPower (n up down : Nat) : Text → Except Fault Text
  | '-' :: t => readMagnitude n up down true t
  | '+' :: t => readMagnitude n up down false t
  | t => readMagnitude n up down false t

def readScale (n up down : Nat) (t : Text) : Except Fault Text :=
  match t.head? with
  | some 'e' | some 'E' => readPower n up down t.tail
  | _ => if isFinite n (up - down) then .ok t else .error (.before .numberOutOfRange t)

def readFraction (n up : Nat) : Text → Except Fault Text
  | '.' :: t =>
    let digits := t.takeWhile Char.isDigit
    let rest := t.dropWhile Char.isDigit
    if digits = [] then
      .error (.peeked (if rest = [] then .endInValue else .invalidNumber) rest)
    else
      let (m, left) := significand n digits
      readScale m up (digits.length - left) rest
  | t => readScale n up 0 t

def readNumber (t : Text) : Except Fault Text :=
  match t with
  | [] => .error (.before .endInValue [])
  | '0' :: rest =>
    match rest with
    | c :: _ => if c.isDigit then .error (.peeked .invalidNumber rest) else readFraction 0 0 rest
    | [] => .ok []
  | c :: rest =>
    if c.isDigit then
      let (n, left) := significand 0 (t.takeWhile Char.isDigit)
      readFraction n left (t.dropWhile Char.isDigit)
    else .error (.before .invalidNumber rest)

/-- A number lexeme with the characters it was read from. -/
def numberLexeme (whole : Text) (r : Except Fault Text) : Except Fault (Lexeme × Text) :=
  r.map fun rest => (.scalar (.number (whole.take (whole.length - rest.length))), rest)

def readLexeme (c : Char) (t : Text) : Except Fault (Lexeme × Text) :=
  if isMark c then .ok (.mark c, t)
  else if c = '"' then (readString [] t).map fun (s, rest) => (.string s, rest)
  else if c = 'n' then readWord .null "ull".toList t
  else if c = 't' then readWord (.bool true) "rue".toList t
  else if c = 'f' then readWord (.bool false) "alse".toList t
  else if c = '-' then numberLexeme (c :: t) (readNumber t)
  else if c.isDigit then numberLexeme (c :: t) (readNumber (c :: t))
  else .ok (.stray, t)

def tokensUpTo : Nat → Text → List Token
  | 0, _ => []
  | n + 1, t =>
    match t.dropWhile isSpace with
    | [] => []
    | c :: rest =>
      match readLexeme c rest with
      | .error f => [⟨c :: rest, .error f⟩]
      | .ok (lexeme, left) => ⟨c :: rest, .ok lexeme⟩ :: tokensUpTo n left

/-- The tokens of a text; there are at most as many as characters. -/
def tokens (t : Text) : List Token := tokensUpTo t.length t

end ImportAlias.Json
