import ImportAlias.Header.Basic
import ImportAlias.Module.Alias
import ImportAlias.Parsers.Cache
import ImportAlias.Resolution

/-! Parsing through a chain of parsers. -/
namespace ImportAlias

/-- What parsers are told besides the text. -/
structure ParseContext where
  /-- The file that the text is from. Without one there are no aliases. -/
  file : Option Path := none
  /-- Options in place of those that an aliasing parser was made with. -/
  options : Option Options := none

/-- A call of a foreign parser: its mark, the parsers at hand with their names, and the text. -/
structure Visit where
  id : String
  slots : List (String × String)
  text : Text
  deriving DecidableEq, Repr

namespace Parser

/-- The parser behind the aliases: one of the cooperating plugin, or the delegate. A plugin cannot
hold the aliasing parser itself, which is made after it. -/
def nextStage (delegate : Parser) (registry : Registry) (options : Options) : Parser :=
  (registry.find? options.cooperatingPlugin delegate.name delegate.format).getD delegate

/-- The parsers at hand behind the aliases. The name and the format of the delegate lead to it. -/
def downstream (delegate : Parser) (set : ParserSet) : ParserSet :=
  ParserSet.insertAs delegate.name delegate (ParserSet.insertAs delegate.format delegate set)

/-- Parses a text, in a chain of at most `n` parsers. The calls of foreign parsers are listed. -/
def parse (files : FileTree) (context : ParseContext) :
    Nat → Parser → ParserSet → Text → List Visit × Except Error Module
  | 0, _, _, _ => ([], .error (.parseFailed "the chain of parsers has no end"))
  | n + 1, p, set, t =>
    match p with
    | grammar name read => ([], .ok (Module.ofReading name t (read t)))
    | foreign id _ _ act =>
      let visit : Visit := ⟨id, set.map fun (slot, q) => (slot, q.name), t⟩
      match act t with
      | .finish result => ([visit], result)
      | .passOn name u =>
        match ParserSet.find? set name with
        | none => ([visit], .error (.unknownParser name))
        | some q =>
          let (visits, result) := parse files context n q set u
          (visit :: visits, result)
    | aliasing delegate registry own =>
      let options := context.options.getD own
      let next := nextStage delegate registry options
      let below := downstream delegate set
      match context.file with
      | none => parse files context n next below t
      | some file =>
        let resolver := Resolver.ofFile files options file
        match options.strategy with
        | .text => parse files context n next below (aliasHeader resolver options.maxDepth t).text
        | .tree =>
          let (visits, result) := parse files context n next below t
          (visits, result.map (Module.aliased (resolver.choose options.maxDepth)))

/-- The longest chain of parsers that is followed. -/
def longestChain : Nat := 10000

end Parser

def ParserSet.parseWith (files : FileTree) (context : ParseContext) (set : ParserSet)
    (name : String) (t : Text) : List Visit × Except Error Module :=
  match ParserSet.find? set name with
  | none => ([], .error (.unknownParser name))
  | some p => p.parse files context Parser.longestChain set t

end ImportAlias
