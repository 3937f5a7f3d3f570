import ImportAlias.Grammar.Basic

/-! The tokens of module sources. A scanner counts the characters of the token at the start of a
text. -/
namespace ImportAlias.Grammar

abbrev Scanner := Text → Option Nat

/-- The control character for the next line: white space, but a part of words here. -/
def nextLine : Char := Char.ofNat 0x85

/-- Characters that separate tokens: white space, and marks without width. -/
def isSpace (c : Char) : Bool :=
  (Text.isBlank c && c != nextLine) || c.toNat == 0xFEFF || c.toNat == 0x2060 || c.toNat == 0x200B

def isBreak (c : Char) : Bool := c == '\n' || c.toNat == 0x2028 || c.toNat == 0x2029

/-- Characters that stand for themselves outside of words. -/
def punctuation : List Char := ":;\x60\"\x27@#.,|^&<=>+-*/\\%?!~()[]\x7b\x7d".toList

def isWordPart (c : Char) : Bool := 0x20 ≤ c.toNat && !isSpace c && !punctuation.contains c

def isWordStart (c : Char) : Bool := isWordPart c && !c.isDigit

def isHex (c : Char) : Bool :=
  c.isDigit || ('a' ≤ c && c ≤ 'f') || ('A' ≤ c && c ≤ 'F')

def isOctal (c : Char) : Bool := '0' ≤ c && c ≤ '7'

namespace Scan

def while? (p : Char → Bool) : Scanner := fun t =>
  match (t.takeWhile p).length with
  | 0 => none
  | n => some n

def literal (s : String) : Scanner := fun t => (Text.after? s.toList t).map fun _ => s.length

def sign (s next : String) : Scanner := fun t =>
  match Text.after? s.toList t with
  | some (c :: _) => if next.toList.contains c then none else some s.length
  | some [] => some s.length
  | none => none

/-- A character given by its code: four hexadecimal digits, or any number of them in braces. -/
def codeEscape : Scanner
  | '\\' :: 'u' :: '\x7b' :: t =>
    let n := (t.takeWhile isHex).length
    if 0 < n ∧ (t.drop n).head? = some '\x7d' then some (n + 4) else none
  | '\\' :: 'u' :: a :: b :: c :: d :: _ => if [a, b, c, d].all isHex then some 6 else none
  | _ => none

/-- An escape in a string: by code, by octal digits, or of one other character. -/
def escape : Scanner
  | '\\' :: 'u' :: t => codeEscape ('\\' :: 'u' :: t)
  | '\\' :: 'x' :: a :: b :: _ => if isHex a && isHex b then some 4 else none
  | '\\' :: '\r' :: '\n' :: _ => some 3
  | '\\' :: c :: t =>
    if isOctal c then some (2 + ((t.take 2).takeWhile isOctal).length)
    else if c = 'x' then none
    else some 2
  | _ => none

/-- The rest of a word after `k` characters of an escape. -/
def wordRest : Nat → Text → Nat
  | _, [] => 0
  | k + 1, _ :: t => 1 + wordRest k t
  | 0, c :: t =>
    if isWordPart c then 1 + wordRest 0 t
    else match codeEscape (c :: t) with
      | some n => 1 + wordRest (n - 1) t
      | none => 0

def word : Scanner
  | [] => none
  | c :: t =>
    if isWordStart c then some (1 + wordRest 0 t)
    else (codeEscape (c :: t)).map fun n => 1 + wordRest (n - 1) t

def keyword (s : String) : Scanner := fun t =>
  match word t with
  | some n => if t.take n = s.toList then some n else none
  | none => none

def keywords (words : List String) : Scanner := fun t =>
  match word t with
  | some n => if words.contains (String.ofList (t.take n)) then some n else none
  | none => none

def wordExcept (reserved : List String) : Scanner := fun t =>
  match word t with
  | some n => if reserved.contains (String.ofList (t.take n)) then none else some n
  | none => none

/-- The rest of a quoted string after `k` characters of an escape. -/
def stringRest (quote : Char) : Nat → Text → Option Nat
  | _, [] => none
  | k + 1, _ :: t => (stringRest quote k t).map (· + 1)
  | 0, c :: t =>
    if c = quote then some 1
    else if c = '\n' ∨ c = '\r' then none
    else if c = '\\' then
      match escape (c :: t) with
      | some n => (stringRest quote (n - 1) t).map (· + 1)
      | none => none
    else (stringRest quote 0 t).map (· + 1)

/-- A string in single or double quotes, on one line but for escaped line ends. -/
def string : Scanner
  | c :: t => if c = '"' ∨ c = '\x27' then (stringRest c 0 t).map (· + 1) else none
  | [] => none

def attributeString : Scanner
  | c :: t =>
    if c = '"' ∨ c = '\x27' then (Text.cutAt? c t).map fun (l, _) => l.length + 2 else none
  | [] => none

/-- Characters of a template up to an escape, a substitution or its end. -/
def templateLength : Text → Nat
  | '$' :: '\x7b' :: _ => 0
  | c :: t => if c = '\x60' ∨ c = '\\' then 0 else 1 + templateLength t
  | [] => 0

def template : Scanner := fun t =>
  match templateLength t with
  | 0 => none
  | n => some n

def regexRest : Bool → Text → Option Nat
  | _, [] => none
  | inClass, '\\' :: c :: t => if c = '\n' then none else (regexRest inClass t).map (· + 2)
  | inClass, c :: t =>
    if c = '\n' then none
    else if inClass then (regexRest (c != ']') t).map (· + 1)
    else if c = '/' then some (1 + (t.takeWhile Char.isLower).length)
    else (regexRest (c == '[') t).map (· + 1)

def regex : Scanner
  | '/' :: t => (regexRest false t).map (· + 1)
  | _ => none

def digitsRest (p : Char → Bool) : Text → Nat
  | '_' :: c :: t => if p c then 2 + digitsRest p t else 0
  | c :: t => if p c then 1 + digitsRest p t else 0
  | [] => 0

def digits (p : Char → Bool) : Text → Nat
  | c :: t => if p c then 1 + digitsRest p t else 0
  | [] => 0

def based (p : Char → Bool) (t : Text) : Nat :=
  match digits p t with
  | 0 => 1
  | n => n + 2 + (if (t.drop n).head? = some 'n' then 1 else 0)

def exponent (t : Text) : Nat :=
  match t with
  | e :: t =>
    if e = 'e' ∨ e = 'E' then
      let sign := if t.head? = some '+' ∨ t.head? = some '-' then 1 else 0
      match digits Char.isDigit (t.drop sign) with
      | 0 => 0
      | n => 1 + sign + n
    else 0
  | [] => 0

def fraction (t : Text) : Nat :=
  match t with
  | '.' :: u =>
    let n := 1 + digits Char.isDigit u
    n + exponent (t.drop n)
  | _ => exponent t

def number : Scanner := fun t =>
  match t with
  | '0' :: c :: rest =>
    if c = 'x' ∨ c = 'X' then some (based isHex rest)
    else if c = 'o' ∨ c = 'O' then some (based isOctal rest)
    else if c = 'b' ∨ c = 'B' then some (based (fun d => d == '0' || d == '1') rest)
    else some (decimal t)
  | '.' :: rest => if (rest.head?.any Char.isDigit) then some (fraction t) else none
  | c :: _ => if c.isDigit then some (decimal t) else none
  | [] => none
where
  decimal (t : Text) : Nat :=
    let n := digits Char.isDigit t
    let rest := t.drop n
    if rest.head? = some 'n' then n + 1 else n + fraction rest

def blockRest : Text → Option Nat
  | '*' :: '/' :: _ => some 2
  | _ :: t => (blockRest t).map (· + 1)
  | [] => none

def comment : Scanner
  | '/' :: '/' :: t => some (2 + (t.takeWhile fun c => !isBreak c && c != '\r').length)
  | '/' :: '*' :: t => (blockRest t).map (· + 2)
  | _ => none

def interpreterLine : Scanner
  | '#' :: '!' :: t => some (2 + (t.takeWhile (· != '\n')).length)
  | _ => none

def markupText : Scanner := while? fun c => !("<>\x7b\x7d&".toList.contains c)

def reference : Scanner
  | '&' :: t =>
    let body := t.takeWhile fun c => c.isAlphanum || c == '#'
    if body ≠ [] ∧ (t.drop body.length).head? = some ';' then some (body.length + 2) else none
  | _ => none

def markupName : Scanner
  | c :: t =>
    if isWordStart c then some (1 + (t.takeWhile fun c => isWordPart c || c == '-').length)
    else none
  | [] => none

inductive Place where
  | code
  | line
  | block

/-- Was a line ended in the white space and comments ahead, and what comes after them? Line ends
inside block comments do not count. -/
def skim : Place → Bool → Text → Bool × Text
  | .code, ended, '/' :: '/' :: t => skim .line ended t
  | .code, ended, '/' :: '*' :: t => skim .block ended t
  | .code, ended, c :: t =>
    if isSpace c then skim .code (ended || isBreak c) t else (ended, c :: t)
  | .line, ended, c :: t => if isBreak c then skim .code true t
    else if c = '\r' then skim .code ended t
    else skim .line ended t
  | .block, ended, '*' :: '/' :: t => skim .code ended t
  | .block, ended, _ :: t => skim .block ended t
  | _, ended, [] => (ended, [])

/-- Can a line that starts so begin a statement? The `openers` are the characters that continue the
line before, whatever follows them. -/
def startsAnew (openers : List Char) : Text → Bool
  | '.' :: c :: _ => !openers.contains '.' && c.isDigit
  | '+' :: t => t.head? == some '+'
  | '-' :: t => t.head? == some '-'
  | '!' :: t => t.head? != some '='
  | c :: t =>
    !openers.contains c &&
      ((keyword "in" (c :: t)).isNone && (keyword "instanceof" (c :: t)).isNone)
  | [] => true

end Scan

end ImportAlias.Grammar
