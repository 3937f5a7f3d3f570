import ImportAlias.Text.Basic

/-! Glob patterns over slash-separated paths. Matching is by the bytes of the UTF-8 encoding. -/
namespace ImportAlias

/-- A part of a pattern. -/
inductive Glob.Token where
  | literal (c : Char)
  /-- One byte that is not a slash. -/
  | any
  /-- Any number of bytes that are no slashes. -/
  | many
  /-- Any number of directories at the start. -/
  | deepStart
  /-- Everything below a directory. -/
  | deepEnd
  /-- A slash, or any number of directories between slashes. -/
  | deep
  | class (negated : Bool) (ranges : List (Char × Char))
  | alternatives (branches : List (List Token))

structure Glob where
  tokens : List Glob.Token

namespace Glob

/-! Reading patterns -/

structure ClassState where
  negated : Bool
  /-- Was nothing read yet? -/
  first : Bool
  /-- Was the last character a dash between two others? -/
  inRange : Bool
  /-- The ranges, the last one first. -/
  ranges : List (Char × Char)

inductive Mode where
  | plain
  | escape
  | classStart
  | class (state : ClassState)

structure State where
  mode : Mode
  previous : Option Char
  /-- The parts of the branch that is being read, the last one first. -/
  current : List Token
  /-- The open alternatives, the innermost first: their finished branches, the last one first, and
  the parts before them. -/
  frames : List (List (List Token) × List Token)

namespace State

def start : State := ⟨.plain, none, [], []⟩

def push (s : State) (t : Token) : State := { s with current := t :: s.current }

/-- Puts a character into a class. A range must not go backwards. -/
def classChar? (k : ClassState) (c : Char) : Option ClassState :=
  if k.inRange then
    match k.ranges with
    | (a, _) :: rest =>
      if c < a then none
      else some { k with first := false, inRange := false, ranges := (a, c) :: rest }
    | [] => some { k with first := false, inRange := false, ranges := [(c, c)] }
  else if c = '-' ∧ ¬k.first then some { k with inRange := true }
  else some { k with first := false, ranges := (c, c) :: k.ranges }

def classStep? (s : State) (k : ClassState) (c : Char) : Option State :=
  if c = ']' ∧ ¬k.first then
    let ranges := (if k.inRange then ('-', '-') :: k.ranges else k.ranges).reverse
    some { s.push (.class k.negated ranges) with mode := .plain }
  else (classChar? k c).map fun k => { s with mode := .class k }

def close? (s : State) : Option State :=
  match s.frames with
  | [] => none
  | (branches, before) :: frames =>
    let all := (s.current.reverse :: branches).reverse
    some { s with current := .alternatives all :: before, frames }

def comma (s : State) : State :=
  match s.frames with
  | [] => s.push (.literal ',')
  | (branches, before) :: frames =>
    { s with current := [], frames := (s.current.reverse :: branches, before) :: frames }

/-- Two stars before a character. Where directories are meant, a slash behind them is used up. -/
def twoStars (s : State) (next : Option Char) : State × Bool :=
  let plain := ((s.push .many).push .many, false)
  match s.current with
  | [] =>
    if next = none then (s.push .deepStart, false)
    else if next = some '/' then (s.push .deepStart, true)
    else plain
  | last :: before =>
    let opened := s.frames ≠ []
    let replaced := fun (t : Token) => { s with current := match last with
      | .deepStart => .deepStart :: before
      | .deepEnd => .deepEnd :: before
      | _ => t :: before }
    if s.previous ≠ some '/' ∧ ¬(opened ∧ (s.previous = some ',' ∨ s.previous = some '\x7b')) then
      plain
    else match next with
      | none => (replaced .deepEnd, false)
      | some '/' => (replaced .deep, true)
      | some c => if opened ∧ (c = ',' ∨ c = '\x7d') then (replaced .deepEnd, false) else plain

/-- One character outside of classes, escapes and double stars. -/
def plainStep? (s : State) (c : Char) : Option State :=
  match c with
  | '?' => some (s.push .any)
  | '*' => some (s.push .many)
  | '[' => some { s with mode := .classStart }
  | '\x7b' => some { s with current := [], frames := ([], s.current) :: s.frames }
  | '\x7d' => s.close?
  | ',' => some s.comma
  | '\\' => some { s with mode := .escape }
  | c => some (s.push (.literal c))

end State

def closes (t : Text) : Bool :=
  match t with
  | '!' :: _ :: rest => rest.contains ']'
  | '^' :: _ :: rest => rest.contains ']'
  | _ :: rest => rest.contains ']'
  | [] => false

/-- Reads a pattern. A class without an end is refused, or if `lenient` its bracket stands for
itself. -/
def readFrom (lenient : Bool) : State → Text → Option State
  | s, [] => some s
  | s, c :: t =>
    match s.mode with
    | .escape => readFrom lenient { s.push (.literal c) with mode := .plain, previous := some c } t
    | .classStart =>
      if c = '!' ∨ c = '^' then
        readFrom lenient { s with mode := .class ⟨true, true, false, []⟩, previous := some c } t
      else
        match s.classStep? ⟨false, true, false, []⟩ c with
        | some s => readFrom lenient { s with previous := some c } t
        | none => none
    | .class k =>
      match s.classStep? k c with
      | some s => readFrom lenient { s with previous := some c } t
      | none => none
    | .plain =>
      match c, t with
      | '*', '*' :: '/' :: u =>
        match s.twoStars (some '/') with
        | (s, true) => readFrom lenient { s with previous := some '/' } u
        | (s, false) => readFrom lenient { (s.push (.literal '/')) with previous := some '/' } u
      | '*', '*' :: u => readFrom lenient { (s.twoStars u.head?).1 with previous := some '*' } u
      | '[', t =>
        if lenient && !closes t then
          readFrom lenient { s.push (.literal '[') with previous := some '[' } t
        else readFrom lenient { s with mode := .classStart, previous := some '[' } t
      | c, t =>
        match s.plainStep? c with
        | some s => readFrom lenient { s with previous := some c } t
        | none => none

def parse? (lenient : Bool) (t : Text) : Option Glob :=
  match readFrom lenient .start t with
  | some ⟨.plain, _, current, []⟩ => some ⟨current.reverse⟩
  | _ => none

/-! Matching -/

abbrev Bytes := List UInt8

def bytesOf (t : Text) : Bytes := t.flatMap String.utf8EncodeChar

def slash : UInt8 := 47

/-- The bytes of a class, as ranges. A range goes from the last byte of one character to the first
of the other; the bytes around them stand alone. -/
def byteRanges (r : Char × Char) : List (UInt8 × UInt8) :=
  let a := String.utf8EncodeChar r.1
  let b := String.utf8EncodeChar r.2
  if r.1 = r.2 then a.map fun x => (x, x)
  else a.dropLast.map (fun x => (x, x)) ++ [(a.getLast?.getD 0, b.head?.getD 0)] ++
    (b.drop 1).map fun x => (x, x)

/-- What can be left after any number of bytes other than slashes. -/
def afterName : Bytes → List Bytes
  | [] => [[]]
  | b :: t => (b :: t) :: if b = slash then [] else afterName t

def afterAny : Bytes → List Bytes
  | [] => [[]]
  | b :: t => (b :: t) :: afterAny t

def afterSlash : Bytes → List Bytes
  | [] => []
  | b :: t => if b = slash then t :: afterSlash t else afterSlash t

def isVoid (branches : List (List Token)) : Bool := branches.all List.isEmpty

mutual

/-- What can be left of a path after a part of a pattern. -/
def Token.rests : Token → Bytes → List Bytes
  | .literal c, p =>
    let bs := String.utf8EncodeChar c
    if bs.isPrefixOf p then [p.drop bs.length] else []
  | .any, p =>
    match p with
    | b :: t => if b = slash then [] else [t]
    | [] => []
  | .many, p => afterName p
  | .deepStart, p => p :: afterSlash p
  | .deepEnd, p =>
    match p with
    | b :: t => if b = slash then afterAny t else []
    | [] => []
  | .deep, p =>
    match p with
    | b :: t => if b = slash then t :: afterSlash t else []
    | [] => []
  | .class negated ranges, p =>
    match p with
    | b :: t =>
      let inside := (ranges.flatMap byteRanges).any fun (x, y) => x ≤ b && b ≤ y
      if inside != negated then [t] else []
    | [] => []
  | .alternatives branches, p => if isVoid branches then [p] else restsOfAny branches p

def restsOfAll : List Token → Bytes → List Bytes
  | [], p => [p]
  | t :: ts, p => (t.rests p).flatMap fun q => restsOfAll ts q

def restsOfAny : List (List Token) → Bytes → List Bytes
  | [], _ => []
  | b :: bs, p => (if b.isEmpty then [] else restsOfAll b p) ++ restsOfAny bs p

end

/-- Does a pattern describe a path? The double star alone describes every one. -/
def «matches» (g : Glob) (path : Text) : Bool :=
  match g.tokens with
  | [.deepStart] => true
  | tokens => (restsOfAll tokens (bytesOf path)).any List.isEmpty

end Glob

end ImportAlias
