import ImportAlias.Text.Basic

/-! TOML values and tables, and the rules for adding to a table. -/
namespace ImportAlias

/-- How a table came about, which decides what may be added to it later. -/
inductive TableKind where
  /-- Under its own header. -/
  | explicit
  /-- On the way to the table of a header. -/
  | implicit
  /-- On the way to the last part of a dotted key. -/
  | dotted
  deriving DecidableEq, Repr

/-- A TOML value. Numbers with a fraction and dates are recognised and their values left out. -/
inductive Toml where
  | string (value : Text)
  | integer (value : Int)
  | float
  | boolean (value : Bool)
  | date
  | array (items : List Toml)
  | inlineTable (kind : TableKind) (entries : List (Text × Toml))
  | table (kind : TableKind) (entries : List (Text × Toml))
  /-- The entries of each table of an array of tables, the last table first. -/
  | tables (items : List (List (Text × Toml)))
  deriving Repr, Inhabited

namespace Toml

abbrev Entries := List (Text × Toml)

structure Table where
  kind : TableKind
  entries : Entries
  deriving Repr

def setEntry (key : Text) (v : Toml) : Entries → Entries
  | [] => [(key, v)]
  | (k, w) :: rest => if k = key then (k, v) :: rest else (k, w) :: setEntry key v rest

def addNew? (key : Text) (v : Toml) (entries : Entries) : Option Entries :=
  match entries.lookup key with
  | some _ => none
  | none => some (entries ++ [(key, v)])

/-- Changes the table that a path leads to, making tables on the way. Dotted keys may not enter a
table that has a header. -/
def descend? (dotted : Bool) (change : Table → Option Table) : List Text → Table → Option Table
  | [], t => change t
  | key :: path, t => do
    let fresh := if dotted then TableKind.dotted else TableKind.implicit
    match t.entries.lookup key with
    | none =>
      let sub ← descend? dotted change path ⟨fresh, []⟩
      return { t with entries := t.entries ++ [(key, .table sub.kind sub.entries)] }
    | some (.table kind entries) =>
      if dotted ∧ kind = .explicit then none
      else
        let sub ← descend? dotted change path ⟨kind, entries⟩
        return { t with entries := setEntry key (.table sub.kind sub.entries) t.entries }
    | some (.tables (last :: before)) =>
      let sub ← descend? dotted change path ⟨.explicit, last⟩
      return { t with entries := setEntry key (.tables (sub.entries :: before)) t.entries }
    | some _ => none

/-- Adds a key to the table that a path leads to. Only keys with a path go into tables that dotted
keys made. -/
def insert? (path : List Text) (key : Text) (v : Toml) (t : Table) : Option Table :=
  descend? true (fun t =>
    if (t.kind = .dotted) = path.isEmpty then none
    else (addNew? key v t.entries).map fun entries => { t with entries }) path t

/-- The same inside an inline table. -/
def insertInline? (key : Text) (v : Toml) : List Text → Table → Option Table
  | [], t => (addNew? key v t.entries).map fun entries => { t with entries }
  | part :: path, t => do
    match t.entries.lookup part with
    | none =>
      let sub ← insertInline? key v path ⟨.dotted, []⟩
      return { t with entries := t.entries ++ [(part, .inlineTable sub.kind sub.entries)] }
    | some (.inlineTable kind entries) =>
      if kind = .explicit then none
      else
        let sub ← insertInline? key v path ⟨kind, entries⟩
        return { t with entries := setEntry part (.inlineTable sub.kind sub.entries) t.entries }
    | some _ => none

end Toml

end ImportAlias
