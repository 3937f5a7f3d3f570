import ImportAlias.Toml.Basic

/-! Strings, numbers, dates and keys of TOML. A reader returns what it read and what is left. -/
namespace ImportAlias.Toml

def isSpace (c : Char) : Bool := c == ' ' || c == '\t'

/-- A character that may stand in a comment: no control character but the tab. -/
def isPrintable (c : Char) : Bool := c == '\t' || (0x20 ≤ c.toNat && c.toNat != 0x7F)

def newline? : Text → Option Text
  | '\n' :: t => some t
  | '\r' :: '\n' :: t => some t
  | _ => none

def spaces (t : Text) : Text := t.dropWhile isSpace

def comment (t : Text) : Text :=
  match t with
  | '#' :: rest => rest.dropWhile isPrintable
  | _ => t

def digitValue? (base : Nat) (c : Char) : Option Nat :=
  let v :=
    if c.isDigit then some (c.toNat - 48)
    else if 'a' ≤ c ∧ c ≤ 'f' then some (c.toNat - 87)
    else if 'A' ≤ c ∧ c ≤ 'F' then some (c.toNat - 55)
    else none
  v.filter (· < base)

def isDigitOf (base : Nat) (c : Char) : Bool := (digitValue? base c).isSome

/-- Reads what follows a digit: digits, each with an underscore before it at most. -/
def moreDigits (base : Nat) : Text → Text × Text
  | [] => ([], [])
  | '_' :: d :: t =>
    if isDigitOf base d then
      let (ds, left) := moreDigits base t
      (d :: ds, left)
    else ([], '_' :: d :: t)
  | c :: t =>
    if isDigitOf base c then
      let (ds, left) := moreDigits base t
      (c :: ds, left)
    else ([], c :: t)

def digits (base : Nat) : Text → Text × Text
  | [] => ([], [])
  | c :: t =>
    if isDigitOf base c then
      let (ds, left) := moreDigits base t
      (c :: ds, left)
    else ([], c :: t)

def natOf (base : Nat) (ds : Text) : Nat :=
  ds.foldl (fun n c => n * base + (digitValue? base c).getD 0) 0

def fixedDigits? : Nat → Text → Option (Text × Text)
  | 0, t => some ([], t)
  | _ + 1, [] => none
  | n + 1, c :: t =>
    if c.isDigit then (fixedDigits? n t).map fun (ds, rest) => (c :: ds, rest) else none

def bounded? (n lo hi : Nat) (t : Text) : Option (Nat × Text) := do
  let (ds, rest) ← fixedDigits? n t
  let v := natOf 10 ds
  if lo ≤ v ∧ v ≤ hi then some (v, rest) else none

def skip? (c : Char) : Text → Option Text
  | d :: t => if d = c then some t else none
  | [] => none

def daysIn (year month : Nat) : Nat :=
  if month = 2 then
    if year % 4 = 0 ∧ (year % 100 ≠ 0 ∨ year % 400 = 0) then 29 else 28
  else if month = 4 ∨ month = 6 ∨ month = 9 ∨ month = 11 then 30
  else 31

/-- `1979-05-27`. -/
def day? (t : Text) : Option Text := do
  let (year, t) ← bounded? 4 0 9999 t
  let t ← skip? '-' t
  let (month, t) ← bounded? 2 1 12 t
  let t ← skip? '-' t
  let (_, t) ← bounded? 2 1 (daysIn year month) t
  return t

/-- `07:32:00.5`. -/
def time? (t : Text) : Option Text := do
  let (_, t) ← bounded? 2 0 23 t
  let t ← skip? ':' t
  let (_, t) ← bounded? 2 0 59 t
  let t ← skip? ':' t
  let (_, t) ← bounded? 2 0 60 t
  match t with
  | '.' :: d :: rest => if d.isDigit then return rest.dropWhile Char.isDigit else return t
  | _ => return t

/-- `Z` or `+01:30`, which may be absent. -/
def offset (t : Text) : Text :=
  match t with
  | 'Z' :: rest => rest
  | 'z' :: rest => rest
  | c :: rest =>
    if c = '+' ∨ c = '-' then
      (do let (_, r) ← bounded? 2 0 23 rest
          let r ← skip? ':' r
          let (_, r) ← bounded? 2 0 59 r
          return r).getD t
    else t
  | [] => t

def date? (t : Text) : Option Text :=
  match day? t with
  | some rest =>
    match rest with
    | c :: after =>
      if c = 'T' ∨ c = 't' ∨ c = ' ' then
        match time? after with
        | some left => some (offset left)
        | none => some rest
      else some rest
    | [] => some rest
  | none => time? t

def sign (t : Text) : Bool × Text :=
  match t with
  | '-' :: t => (true, t)
  | '+' :: t => (false, t)
  | t => (false, t)

/-- Decimal digits without a leading zero. -/
def decimal? (t : Text) : Option (Text × Text) :=
  match t with
  | '0' :: rest => some (['0'], rest)
  | _ =>
    match digits 10 t with
    | ([], _) => none
    | r => some r

/-- Does the decimal `ds · 10 ^ (e - down)` stay below the largest double? Only decimals with about
as many digits as that double are compared with it. -/
def isFinite (ds : Text) (e : Int) (down : Nat) : Bool :=
  let n := natOf 10 ds
  let p := e - down
  let size := p + (Nat.toDigits 10 n).length
  if n = 0 ∨ size ≤ 300 then true
  else if 310 < size then false
  else n * Nat.pow 10 p.toNat < (Nat.pow 2 1024 - Nat.pow 2 970) * Nat.pow 10 (-p).toNat

def exponent? (t : Text) : Option (Int × Text) :=
  let (negative, t) := sign t
  match digits 10 t with
  | ([], _) => none
  | (ds, rest) => some (if negative then -(natOf 10 ds : Int) else natOf 10 ds, rest)

/-- A number with a fraction or an exponent, or one of the special words. -/
def float? (t : Text) : Option Text :=
  let (negative, body) := sign t
  let word := fun (s : String) => Text.after? s.toList body
  ((word "inf").or (word "nan")).or do
    let (whole, rest) ← decimal? body
    let (fraction, rest) ← match rest with
      | '.' :: after =>
        match digits 10 after with
        | ([], _) => none
        | (ds, left) => some (ds, left)
      | _ => some ([], rest)
    let power := match rest with
      | c :: after => if c = 'e' ∨ c = 'E' then exponent? after else none
      | [] => none
    if fraction = [] ∧ power.isNone then none
    else
      let (e, left) := power.getD (0, rest)
      if negative ∨ isFinite (whole ++ fraction) e fraction.length then some left else none

def integer? (t : Text) : Option (Int × Text) :=
  let based := fun (base : Nat) (after : Text) =>
    match digits base after with
    | ([], _) => none
    | (ds, rest) =>
      if natOf base ds < Nat.pow 2 63 then some ((natOf base ds : Int), rest) else none
  match t with
  | '0' :: 'x' :: after => based 16 after
  | '0' :: 'o' :: after => based 8 after
  | '0' :: 'b' :: after => based 2 after
  | _ => do
    let (negative, body) := sign t
    let (ds, rest) ← decimal? body
    let n := natOf 10 ds
    if negative then (if n ≤ Nat.pow 2 63 then some (-(n : Int), rest) else none)
    else if n < Nat.pow 2 63 then some ((n : Int), rest) else none

def hex? : Nat → Nat → Text → Option (Nat × Text)
  | 0, v, t => some (v, t)
  | _ + 1, _, [] => none
  | n + 1, v, c :: t => (digitValue? 16 c).bind fun d => hex? n (v * 16 + d) t

/-- The character with a code point, which must not be half of a surrogate pair. -/
def scalar? (n : Nat) : Option Char :=
  if n < 0xD800 ∨ (0xDFFF < n ∧ n < 0x110000) then some (Char.ofNat n) else none

def escape? : Text → Option (Char × Text)
  | 'b' :: t => some ('\x08', t)
  | 't' :: t => some ('\t', t)
  | 'n' :: t => some ('\n', t)
  | 'f' :: t => some ('\x0c', t)
  | 'r' :: t => some ('\r', t)
  | '"' :: t => some ('"', t)
  | '\\' :: t => some ('\\', t)
  | 'u' :: t => do
    let (n, rest) ← hex? 4 0 t
    return (← scalar? n, rest)
  | 'U' :: t => do
    let (n, rest) ← hex? 8 0 t
    return (← scalar? n, rest)
  | _ => none

/-- Reads at most `n` pieces of a string in double quotes after the opening quote. -/
def basicUpTo : Nat → Text → Option (Text × Text)
  | 0, _ => none
  | _ + 1, [] => none
  | n + 1, c :: t =>
    if c = '"' then some ([], t)
    else if c = '\\' then do
      let (e, rest) ← escape? t
      let (s, left) ← basicUpTo n rest
      return (e :: s, left)
    else if isPrintable c then (basicUpTo n t).map fun (s, left) => (c :: s, left)
    else none

def literalString? : Text → Option (Text × Text)
  | [] => none
  | c :: t =>
    if c = '\x27' then some ([], t)
    else if isPrintable c then (literalString? t).map fun (s, left) => (c :: s, left)
    else none

/-- Two quotes at most may stand before the three that close a long string. -/
def closing? (q : Char) (t : Text) : Option (Text × Text) :=
  match t.takeWhile (· == q) with
  | [_, _, _] => some ([], t.drop 3)
  | [_, _, _, _] => some ([q], t.drop 4)
  | _ :: _ :: _ :: _ :: _ :: _ => some ([q, q], t.drop 5)
  | _ => none

/-- Skips a line break that a backslash escapes, with all whitespace after it. -/
def escapedNewline? (t : Text) : Option Text :=
  (newline? (spaces t)).map fun rest => rest.dropWhile fun c => isSpace c || c == '\n' || c == '\r'

/-- Reads at most `n` pieces of a string in three double quotes after the opening quotes. -/
def longBasicUpTo : Nat → Text → Option (Text × Text)
  | 0, _ => none
  | _ + 1, [] => none
  | n + 1, c :: t =>
    match closing? '"' (c :: t) with
    | some (s, left) => some (s, left)
    | none =>
      if c = '\\' then
        match escapedNewline? t with
        | some rest => longBasicUpTo n rest
        | none => do
          let (e, rest) ← escape? t
          let (s, left) ← longBasicUpTo n rest
          return (e :: s, left)
      else match newline? (c :: t) with
        | some rest => (longBasicUpTo n rest).map fun (s, left) => ('\n' :: s, left)
        | none =>
          if isPrintable c then (longBasicUpTo n t).map fun (s, left) => (c :: s, left) else none

def longLiteralUpTo : Nat → Text → Option (Text × Text)
  | 0, _ => none
  | _ + 1, [] => none
  | n + 1, c :: t =>
    match closing? '\x27' (c :: t) with
    | some (s, left) => some (s, left)
    | none =>
      match newline? (c :: t) with
      | some rest => (longLiteralUpTo n rest).map fun (s, left) => ('\n' :: s, left)
      | none =>
        if isPrintable c then (longLiteralUpTo n t).map fun (s, left) => (c :: s, left) else none

/-- A line break right after the opening quotes of a long string does not count. -/
def afterOpening (t : Text) : Text := (newline? t).getD t

def string? (t : Text) : Option (Text × Text) :=
  match t with
  | '"' :: '"' :: '"' :: rest => longBasicUpTo (rest.length + 1) (afterOpening rest)
  | '"' :: rest => basicUpTo (rest.length + 1) rest
  | '\x27' :: '\x27' :: '\x27' :: rest => longLiteralUpTo (rest.length + 1) (afterOpening rest)
  | '\x27' :: rest => literalString? rest
  | _ => none

def isBareKey (c : Char) : Bool := c.isAlphanum || c == '_' || c == '-'

def keyPart? (t : Text) : Option (Text × Text) :=
  match t with
  | '"' :: rest => basicUpTo (rest.length + 1) rest
  | '\x27' :: rest => literalString? rest
  | _ =>
    match t.takeWhile isBareKey with
    | [] => none
    | k => some (k, t.dropWhile isBareKey)

def keyUpTo : Nat → Text → Option (List Text × Text)
  | 0, _ => none
  | n + 1, t => do
    let (part, rest) ← keyPart? (spaces t)
    match spaces rest with
    | '.' :: more => (keyUpTo n more).map fun (parts, left) => (part :: parts, left)
    | left => return ([part], left)

/-- Values are nested fewer times than this, and a key has fewer parts. -/
def depthLimit : Nat := 80

def key? (t : Text) : Option (List Text × Text) := keyUpTo (depthLimit - 1) t

end ImportAlias.Toml
