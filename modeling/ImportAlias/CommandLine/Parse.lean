import ImportAlias.CommandLine.Basic

/-! Reading the arguments of a run. -/
namespace ImportAlias.Request

/-- What can be set by arguments. -/
inductive Setting where
  | paths
  | write
  | check
  | aliasPrefix
  | maxDepth
  | manifest
  | frameworkMode
  | strategy
  | optionsFile
  | includes
  | excludes
  | format
  deriving DecidableEq, Repr

/-- Can a setting be given more than once? -/
def Setting.isList : Setting → Bool
  | paths | includes | excludes => true
  | _ => false

/-- What an option means. -/
inductive Flag where
  /-- An option with a value. -/
  | value (s : Setting)
  | switch (s : Setting)
  | help
  | version

def flag? (name : Text) : Option Flag :=
  match String.ofList name with
  | "write" => some (.switch .write)
  | "check" => some (.switch .check)
  | "prefix" => some (.value .aliasPrefix)
  | "max-depth" => some (.value .maxDepth)
  | "tsconfig" => some (.value .manifest)
  | "framework-mode" => some (.value .frameworkMode)
  | "strategy" => some (.value .strategy)
  | "config" => some (.value .optionsFile)
  | "include" => some (.value .includes)
  | "exclude" => some (.value .excludes)
  | "format" => some (.value .format)
  | "help" => some .help
  | "version" => some .version
  | _ => none

/-- A number that fits into 64 bits, perhaps with a plus sign. -/
def number? (t : Text) : Option Nat :=
  let digits := (Text.after? ['+'] t).getD t
  if digits = [] ∨ ¬digits.all Char.isDigit then none
  else
    let n := digits.foldl (fun n c => 10 * n + (c.toNat - '0'.toNat)) 0
    if n < Nat.pow 2 64 then some n else none

def path? (t : Text) : Option Path := if t = [] then none else some ⟨t⟩

def frameworkMode? (t : Text) : Option FrameworkMode :=
  match String.ofList t with
  | "auto" => some .auto
  | "on" => some .on
  | "off" => some .off
  | _ => none

def strategy? (t : Text) : Option Strategy :=
  match String.ofList t with
  | "text" => some .text
  | "tree" => some .tree
  | _ => none

def format? (t : Text) : Option Report.Format :=
  match String.ofList t with
  | "text" => some .text
  | "json" => some .json
  | "compact" => some .compact
  | _ => none

def set (r : Request) (s : Setting) (v : Text) : Except UsageError Request :=
  let checked := fun {α : Type} (e : UsageError) (value : Option α) (f : α → Request) =>
    match value with
    | some a => Except.ok (f a)
    | none => .error e
  match s with
  | .paths => checked .invalidValue (path? v) fun p => { r with paths := r.paths ++ [p] }
  | .write => .ok { r with write := true }
  | .check => .ok { r with check := true }
  | .aliasPrefix => .ok { r with aliasPrefix := some v }
  | .maxDepth => checked .valueValidation (number? v) fun n => { r with maxDepth := some n }
  | .manifest => checked .invalidValue (path? v) fun p => { r with manifestPath := some p }
  | .frameworkMode =>
    checked .invalidValue (frameworkMode? v) fun m => { r with frameworkMode := some m }
  | .strategy => checked .invalidValue (strategy? v) fun m => { r with strategy := some m }
  | .optionsFile => checked .invalidValue (path? v) fun p => { r with optionsFile := some p }
  | .includes =>
    .ok { r with selection := { r.selection with includes := r.selection.includes ++ [v] } }
  | .excludes =>
    .ok { r with selection := { r.selection with excludes := r.selection.excludes ++ [v] } }
  | .format => checked .invalidValue (format? v) fun f => { r with format := f }

structure State where
  request : Request
  /-- The settings that were given. -/
  given : List Setting
  /-- Values that were read and not yet set. -/
  pending : Option (Setting × List Text)
  /-- Is the value of the pending option still to come? -/
  awaiting : Bool
  /-- Are all further arguments paths? -/
  pathsOnly : Bool

namespace State

def start : State := ⟨{ paths := [] }, [], none, false, false⟩

/-- Sets the values of a setting. Only lists can be given again. -/
def give (st : State) (s : Setting) (values : List Text) : Except UsageError State := do
  if !s.isList && st.given.contains s then throw .conflict
  let request ← values.foldlM (fun r v => r.set s v) st.request
  return { st with request, given := s :: st.given, pending := none, awaiting := false }

/-- Sets what is pending. An option that needs a value has to have it. -/
def settle (st : State) : Except UsageError State :=
  match st.pending with
  | none => .ok st
  | some (_, []) => .error .invalidValue
  | some (s, values) => st.give s values

def long (st : State) (name : Text) (attached : Option Text) : Except UsageError State :=
  match flag? name with
  | none => .error .unknownArgument
  | some (.value s) => do
    let st ← st.settle
    match attached with
    | some v => st.give s [v]
    | none => return { st with pending := some (s, []), awaiting := true }
  | some flag => do
    if attached.isSome then throw .tooManyValues
    let st ← st.settle
    match flag with
    | .switch s => st.give s [[]]
    | .help => throw .help
    | _ => throw .version

def short (st : State) (letter : Char) : Except UsageError State := do
  if letter = 'h' then
    let _ ← st.settle
    throw .help
  else if letter = 'V' then
    let _ ← st.settle
    throw .version
  else throw .unknownArgument

/-- A value of the pending option, or a path. -/
def plain (st : State) (v : Text) : Except UsageError State :=
  match st.pending with
  | some (.paths, values) => .ok { st with pending := some (.paths, values ++ [v]) }
  | some (s, values) =>
    if st.awaiting && !st.pathsOnly then
      .ok { st with pending := some (s, values ++ [v]), awaiting := false }
    else do
      let st ← st.settle
      return { st with pending := some (.paths, [v]) }
  | none => .ok { st with pending := some (.paths, [v]) }

def step (st : State) (argument : Text) : Except UsageError State :=
  if st.pathsOnly then st.plain argument
  else match argument with
    | ['-', '-'] => .ok { st with pathsOnly := true }
    | '-' :: '-' :: option =>
      match Text.cutAt? '=' option with
      | some (name, v) => st.long name (some v)
      | none => st.long option none
    | '-' :: c :: _ => st.short c
    | _ => st.plain argument

/-- The request at the end of the arguments. Changes cannot be written and checked for at once. -/
def finish (st : State) : Except UsageError Request := do
  let st ← st.settle
  if st.request.write && st.request.check then throw .conflict
  if st.given.contains .paths then return st.request
  else return { st.request with paths := [.of "."] }

end State

def parse (arguments : List Text) : Except UsageError Request := do
  let st ← arguments.foldlM State.step State.start
  st.finish

end ImportAlias.Request
