import ImportAlias.Path

/-! Kinds of source files and the parsers that read them. -/
namespace ImportAlias

inductive SourceKind where
  | typeScript
  | tsx
  | javaScript
  /-- Single-file components, which no parser reads. -/
  | vue
  deriving DecidableEq, Repr

namespace SourceKind

def ofExtension? (ext : Text) : Option SourceKind :=
  match String.ofList ext with
  | "ts" | "mts" | "cts" => some typeScript
  | "tsx" => some tsx
  | "js" | "jsx" | "mjs" | "cjs" => some javaScript
  | "vue" => some vue
  | _ => none

def ofPath? (p : Path) : Option SourceKind := p.extension?.bind ofExtension?

def parserName? : SourceKind → Option String
  | typeScript => some "typescript"
  | tsx => some "tsx"
  | javaScript => some "babel"
  | vue => none

end SourceKind

def Path.parserName? (p : Path) : Option String :=
  (SourceKind.ofPath? p).bind SourceKind.parserName?

end ImportAlias
