import ImportAlias.Error
import ImportAlias.Module.Parse
import ImportAlias.Options.Basic

/-! Parsers by name, sets of them, and plugins that bring their own. -/
namespace ImportAlias

/-- What a foreign parser does with a text: it answers, or passes a text on by name. -/
inductive Parser.Step where
  | finish (result : Except Error Module)
  | passOn (name : String) (text : Text)

inductive Parser where
  /-- A parser of source text, by what it makes of a text. -/
  | grammar (name : String) (read : Text → Reading)
  /-- A parser from elsewhere, with a mark of its own. -/
  | foreign (id name format : String) (act : Text → Parser.Step)
  /-- A parser with aliases put in front of it, and the plugins that it works together with. -/
  | aliasing (delegate : Parser) (plugins : List (Text × List (String × Parser)))
    (options : Options)

namespace Parser

def name : Parser → String
  | grammar n _ => n
  | foreign _ n _ _ => n
  | aliasing delegate _ _ => delegate.name

def format : Parser → String
  | grammar _ _ => Module.treeFormat
  | foreign _ _ f _ => f
  | aliasing delegate _ _ => delegate.format

end Parser

/-- The parsers at hand, by the names they are asked for. -/
abbrev ParserSet := List (String × Parser)

/-- A string as it is written in source text. -/
def quoteName (s : String) : String :=
  "\"" ++ s.foldl (fun out c => out ++ escaped c) "" ++ "\""
where
  escaped (c : Char) : String :=
    match c with
    | '"' => "\\\""
    | '\\' => "\\\\"
    | '\n' => "\\n"
    | '\r' => "\\r"
    | '\t' => "\\t"
    | '\x00' => "\\0"
    | c =>
      if c.toNat < 0x20 || c.toNat == 0x7F then
        "\\u\x7b" ++ String.ofList (Nat.toDigits 16 c.toNat) ++ "\x7d"
      else String.singleton c

namespace ParserSet

def find? (s : ParserSet) (name : String) : Option Parser := s.lookup name

/-- Puts a parser under a name, in place of the one that has it. -/
def insertAs (name : String) (p : Parser) : ParserSet → ParserSet
  | [] => [(name, p)]
  | (n, q) :: rest => if n = name then (n, p) :: rest else (n, q) :: insertAs name p rest

def insert (p : Parser) (s : ParserSet) : ParserSet := insertAs p.name p s

def names (s : ParserSet) : List String := (s.map Prod.fst).mergeSort fun a b => !(b < a)

def describe (s : ParserSet) : String :=
  "ParserSet \x7b parsers: [" ++ ", ".intercalate (s.names.map quoteName) ++ "] \x7d"

def builtin : ParserSet := Module.dialects.map fun (name, d) => (name, .grammar name d.read)

end ParserSet

/-- Plugins by name, with their parsers. -/
abbrev Registry := List (Text × ParserSet)

namespace Registry

def register (plugin : Text) (parsers : ParserSet) : Registry → Registry
  | [] => [(plugin, parsers)]
  | (n, s) :: rest =>
    if n = plugin then (n, parsers) :: rest else (n, s) :: register plugin parsers rest

/-- A parser of a plugin for a format: the one with the given name, or else the first by name. -/
def find? (r : Registry) (plugin : Text) (name format : String) : Option Parser :=
  match r.lookup plugin with
  | none => none
  | some parsers =>
    match (ParserSet.find? parsers name).filter fun p => p.format == format with
    | some p => some p
    | none =>
      ((ParserSet.names parsers).filterMap (ParserSet.find? parsers)).find? fun p =>
        p.format == format

end Registry

end ImportAlias
