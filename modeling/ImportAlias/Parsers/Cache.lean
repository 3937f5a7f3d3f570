import ImportAlias.Parsers.Basic

/-! Parsers that were loaded once are kept. -/
namespace ImportAlias

/-- The parsers that were loaded, by their ids. An entry is never replaced. -/
structure ParserCache where
  entries : List (String × Parser) := []

namespace ParserCache

def size (c : ParserCache) : Nat := c.entries.length

def find? (c : ParserCache) (id : String) : Option Parser := c.entries.lookup id

/-- Keeps a parser unless one is there already, and answers with the one that is kept. -/
def keep (c : ParserCache) (id : String) (p : Parser) : Parser × ParserCache :=
  match c.find? id with
  | some q => (q, c)
  | none => (p, ⟨c.entries ++ [(id, p)]⟩)

/-- The parser under an id, loaded if it is not there. A failure leaves the cache as it was. -/
def getOrLoad (c : ParserCache) (id : String) (load : Except Error Parser) :
    Except Error Parser × ParserCache :=
  match c.find? id with
  | some p => (.ok p, c)
  | none =>
    match load with
    | .error e => (.error e, c)
    | .ok p =>
      let (q, c) := c.keep id p
      (.ok q, c)

end ParserCache

/-- The parsers of all dialects with aliases in front of them, loaded through a cache. -/
def ParserSet.aliasing (cache : ParserCache) (registry : Registry) (options : Options) :
    ParserSet × ParserCache :=
  Module.dialects.foldl (fun (set, cache) (name, d) =>
    let (base, cache) := cache.keep name (.grammar name d.read)
    (ParserSet.insert (.aliasing base registry options) set, cache)) ([], cache)

end ImportAlias
