import ImportAlias.Text.Basic

/-! Slash-separated paths: components, joining, the lexical normal form and relative paths. -/
namespace ImportAlias

structure Path where
  text : Text
  deriving DecidableEq, Repr, Inhabited

namespace Path

def of (s : String) : Path := ⟨s.toList⟩

inductive Component where
  | root
  | current
  | parent
  | normal (name : Text)
  deriving DecidableEq, Repr

namespace Component

def text : Component → Text
  | root => ['/']
  | current => ['.']
  | parent => ['.', '.']
  | normal name => name

/-- Empty segments and `.` name nothing. -/
def ofSegment? (s : Text) : Option Component :=
  if s = [] ∨ s = ['.'] then none
  else if s = ['.', '.'] then some parent
  else some (normal s)

/-- The root comes first, then `.`, then `..`, then names. -/
def rank : Component → Nat
  | root => 0
  | current => 1
  | parent => 2
  | normal _ => 3

/-- Names are ordered by code point, which is also the order of their UTF-8 bytes. -/
def nameLt : Text → Text → Bool
  | _, [] => false
  | [], _ :: _ => true
  | a :: s, b :: t => a.toNat < b.toNat || (a.toNat == b.toNat && nameLt s t)

def lt : Component → Component → Bool
  | normal a, normal b => nameLt a b
  | a, b => a.rank < b.rank

end Component

def isAbsolute (p : Path) : Bool := p.text.head? == some '/'

/-- The components of a path; only a leading `.` is kept. -/
def components (p : Path) : List Component :=
  match p.text with
  | '/' :: rest => .root :: (Text.splitOn '/' rest).filterMap Component.ofSegment?
  | t =>
    match Text.splitOn '/' t with
    | ['.'] :: rest => .current :: rest.filterMap Component.ofSegment?
    | segments => segments.filterMap Component.ofSegment?

/-- An absolute right side replaces the left; otherwise one separator stands between. -/
def join (p q : Path) : Path :=
  if q.isAbsolute then q
  else if p.text = [] ∨ p.text.getLast? = some '/' then ⟨p.text ++ q.text⟩
  else ⟨p.text ++ '/' :: q.text⟩

def ofComponents (cs : List Component) : Path :=
  cs.foldl (fun p c => p.join ⟨c.text⟩) ⟨[]⟩

/-- One step of normalisation, on the components read so far with the last one first. -/
def collapse : List Component → Component → List Component
  | .normal _ :: done, .parent => done
  | .root :: done, .parent => .root :: done
  | done, .current => done
  | done, c => c :: done

/-- The components after `.` and `..` have been resolved lexically. -/
def normalComponents (p : Path) : List Component :=
  (p.components.foldl collapse []).reverse

/-- The lexical normal form. `..` stays only where nothing is left to climb from. -/
def normalize (p : Path) : Path := ofComponents p.normalComponents

def dropCommon : List Component → List Component → List Component × List Component
  | a :: as, b :: bs => if a = b then dropCommon as bs else (a :: as, b :: bs)
  | as, bs => (as, bs)

/-- The way from a base directory to a path, both in normal form. -/
def relativeTo (p base : Path) : Path :=
  let (down, up) := dropCommon p.normalize.components base.normalize.components
  ofComponents (up.map (fun _ => Component.parent) ++ down)

def slashed (p : Path) : Text := p.text.map fun c => if c = '\\' then '/' else c

/-- A segment that names nothing. -/
def isTrivial (s : Text) : Bool := s == [] || s == ['.']

/-- The path without its last component, if it has one. -/
def parent? (p : Path) : Option Path :=
  match p.text with
  | '/' :: rest =>
    match (Text.splitOn '/' rest).reverse.dropWhile isTrivial with
    | [] => none
    | _ :: more => some ⟨'/' :: Text.joinWith '/' (more.dropWhile isTrivial).reverse⟩
  | t =>
    match Text.splitOn '/' t with
    | ['.'] :: rest =>
      match rest.reverse.dropWhile isTrivial with
      | [] => some ⟨[]⟩
      | _ :: more => some ⟨Text.joinWith '/' (['.'] :: (more.dropWhile isTrivial).reverse)⟩
    | segments =>
      match segments.reverse.dropWhile isTrivial with
      | [] => none
      | _ :: more => some ⟨Text.joinWith '/' (more.dropWhile isTrivial).reverse⟩

/-- The path and up to `n` directories above it. -/
def ancestorsUpTo : Nat → Path → List Path
  | 0, p => [p]
  | n + 1, p =>
    match p.parent? with
    | some q => p :: ancestorsUpTo n q
    | none => [p]

/-- The path, its parent, and so on; every step removes a character at least. -/
def ancestors (p : Path) : List Path := ancestorsUpTo p.text.length p

/-- The directory of a file; a path without a parent lies in `.`. -/
def directory (p : Path) : Path := p.parent?.getD (of ".")

/-- The last component, if it is a name. -/
def fileName? (p : Path) : Option Text :=
  match p.components.getLast? with
  | some (.normal name) => some name
  | _ => none

/-- What follows the last dot of the file name, unless that dot comes first. -/
def extension? (p : Path) : Option Text :=
  match p.fileName?.bind (Text.cutAtLast? '.') with
  | some (_ :: _, ext) => some ext
  | _ => none

/-- Paths are ordered component by component. -/
def lt (p q : Path) : Bool := go p.components q.components
where
  go : List Component → List Component → Bool
    | _, [] => false
    | [], _ :: _ => true
    | a :: as, b :: bs => a.lt b || (a == b && go as bs)

/-- What follows a list of components at the start of another. -/
def dropComponents? : List Component → List Component → Option (List Component)
  | [], cs => some cs
  | _ :: _, [] => none
  | b :: bs, c :: cs => if b = c then dropComponents? bs cs else none

/-- The path below a directory that it starts with. -/
def below? (base p : Path) : Option Path :=
  (dropComponents? base.components p.components).map ofComponents

end Path

end ImportAlias
