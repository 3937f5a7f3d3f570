import ImportAlias.Toml.Scalar

/-! TOML values with arrays and inline tables, and whole documents. -/
namespace ImportAlias.Toml

/-- Skips at most `n` comments and line breaks between the values of an array. -/
def gapUpTo : Nat → Text → Text
  | 0, t => t
  | n + 1, t =>
    let t := spaces t
    match newline? (comment t) with
    | some rest => gapUpTo n rest
    | none => t

def gap (t : Text) : Text := gapUpTo (t.length + 1) t

/-- Reads at most `n` values of an array after its bracket. -/
def arrayUpTo (value? : Text → Option (Toml × Text)) : Nat → Text → Option (List Toml × Text)
  | 0, _ => none
  | n + 1, t =>
    match gap t with
    | ']' :: rest => some ([], rest)
    | t => do
      let (v, rest) ← value? t
      match gap rest with
      | ',' :: more => (arrayUpTo value? n more).map fun (vs, left) => (v :: vs, left)
      | ']' :: left => return ([v], left)
      | _ => none

/-- The dotted parts of a key before its last one, and the last one. -/
def splitKey? (parts : List Text) : Option (List Text × Text) :=
  parts.getLast?.map (parts.dropLast, ·)

def pair? (value? : Text → Option (Toml × Text)) (t : Text) :
    Option ((List Text × Text) × Toml × Text) := do
  let (parts, rest) ← key? t
  let key ← splitKey? parts
  let rest ← skip? '=' rest
  let (v, left) ← value? (spaces rest)
  return (key, v, left)

/-- Reads at most `n` pairs of an inline table. -/
def pairsUpTo (value? : Text → Option (Toml × Text)) (done : Table) :
    Nat → Text → Option (Table × Text)
  | 0, _ => none
  | n + 1, t => do
    let ((path, key), v, rest) ← pair? value? t
    let done ← insertInline? key v path done
    match spaces rest with
    | ',' :: more => pairsUpTo value? done n more
    | '\x7d' :: left => return (done, left)
    | _ => none

def array? (value? : Text → Option (Toml × Text)) (t : Text) : Option (Toml × Text) :=
  (arrayUpTo value? (t.length + 1) t).map fun (vs, left) => (.array vs, left)

def inlineTable? (value? : Text → Option (Toml × Text)) (t : Text) : Option (Toml × Text) :=
  match spaces t with
  | '\x7d' :: left => some (.inlineTable .explicit [], left)
  | t => (pairsUpTo value? ⟨.explicit, []⟩ (t.length + 1) t).map
      fun (sub, left) => (.inlineTable .explicit sub.entries, left)

/-- A value without values inside. -/
def plain? (t : Text) : Option (Toml × Text) :=
  match t with
  | [] => none
  | c :: _ =>
    if c = '"' ∨ c = '\x27' then (string? t).map fun (s, left) => (.string s, left)
    else if c = '+' ∨ c = '-' ∨ c.isDigit ∨ c = 'i' ∨ c = 'n' then
      match date? t with
      | some left => some (.date, left)
      | none =>
        match float? t with
        | some left => some (.float, left)
        | none => (integer? t).map fun (n, left) => (.integer n, left)
    else
      ((Text.after? "true".toList t).map fun left => (.boolean true, left)).or
        ((Text.after? "false".toList t).map fun left => (.boolean false, left))

/-- A value with arrays and inline tables nested at most `depth` times. -/
def value? : (depth : Nat) → Text → Option (Toml × Text)
  | depth + 1, '[' :: rest => array? (value? depth) rest
  | depth + 1, '\x7b' :: rest => inlineTable? (value? depth) rest
  | _, t => plain? t

/-- A document while it is read: the finished tables, and the table of the last header. -/
structure State where
  root : Table
  current : Table
  path : List Text
  inArray : Bool

def State.start : State := ⟨⟨.implicit, []⟩, ⟨.explicit, []⟩, [], false⟩

def State.finish? (s : State) : Option Table :=
  match splitKey? s.path with
  | none => some s.current
  | some (path, key) =>
    descend? false (fun parent =>
      if s.inArray then
        match parent.entries.lookup key with
        | none =>
          some { parent with entries := parent.entries ++ [(key, .tables [s.current.entries])] }
        | some (.tables items) =>
          let tables := .tables (s.current.entries :: items)
          some { parent with entries := setEntry key tables parent.entries }
        | some _ => none
      else (addNew? key (.table s.current.kind s.current.entries) parent.entries).map
        fun entries => { parent with entries }) path s.root

/-- The table that a header continues: one that was only passed through before, or a new one. -/
def headed? (entries : Entries) (key : Text) : Option Table :=
  match entries.lookup key with
  | none => some ⟨.explicit, []⟩
  | some (.table .implicit sub) => some ⟨.explicit, sub⟩
  | some _ => none

/-- The table at a path, made on the way if need be. -/
def tableAt? : List Text → Table → Option Table
  | [], t => some t
  | key :: path, t =>
    match t.entries.lookup key with
    | none => tableAt? path ⟨.implicit, []⟩
    | some (.table kind entries) => tableAt? path ⟨kind, entries⟩
    | some (.tables (last :: _)) => tableAt? path ⟨.explicit, last⟩
    | some _ => none

def State.header? (s : State) (parts : List Text) : Option State := do
  let root ← s.finish?
  let (path, key) ← splitKey? parts
  let parent ← tableAt? path root
  let current ← headed? parent.entries key
  let root ← descend? false (fun t =>
    some { t with entries := t.entries.filter fun (k, _) => k != key }) path root
  return ⟨root, current, parts, false⟩

def State.arrayHeader? (s : State) (parts : List Text) : Option State := do
  let root ← s.finish?
  let (path, key) ← splitKey? parts
  let parent ← tableAt? path root
  match parent.entries.lookup key with
  | none | some (.tables _) => return ⟨root, ⟨.explicit, []⟩, parts, true⟩
  | some _ => none

def lineEnd? (t : Text) : Option Text :=
  match comment (spaces t) with
  | [] => some []
  | rest => newline? rest

def line? (s : State) (t : Text) : Option (State × Text) :=
  match t with
  | '[' :: '[' :: rest => do
    let (parts, rest) ← key? rest
    let rest ← skip? ']' rest
    let rest ← skip? ']' rest
    return (← s.arrayHeader? parts, ← lineEnd? rest)
  | '[' :: rest => do
    let (parts, rest) ← key? rest
    let rest ← skip? ']' rest
    return (← s.header? parts, ← lineEnd? rest)
  | _ => do
    let ((path, key), v, rest) ← pair? (value? (depthLimit - 1)) t
    let current ← insert? path key v s.current
    return ({ s with current }, ← lineEnd? rest)

def linesUpTo (s : State) : Nat → Text → Option Table
  | 0, _ => none
  | n + 1, t =>
    match comment (spaces t) with
    | [] => s.finish?
    | rest =>
      match newline? rest with
      | some rest => linesUpTo s n rest
      | none => do
        let (s, left) ← line? s (spaces t)
        linesUpTo s n left

def parse? (t : Text) : Option Entries :=
  let body := match t with
    | c :: rest => if c.toNat = 0xFEFF then rest else t
    | [] => []
  (linesUpTo .start (body.length + 1) body).map Table.entries

end ImportAlias.Toml
