import ImportAlias.Grammar.Expression

/-! Rules for statements: imports and exports, declarations, and control flow. -/
namespace ImportAlias.Grammar

open Phrase

namespace Phrase

def fromClause : Phrase := .seq [keyword "from", source]

def exportName : Phrase := .choice [name, string]

/-- A word that marks a type, if the rest fits behind it. -/
def typeMarked (d : Dialect) (p : Phrase) : Phrase :=
  if d.typed then .choice [.seq [keywords ["type", "typeof"], p], p] else p

def importSpecifier (d : Dialect) : Phrase :=
  named "import specifier" [typeMarked d (.choice [
    .seq [exportName, keyword "as", name],
    lexeme .identifier (Scan.wordExcept ["default"])])]

def importClause (d : Dialect) : Phrase :=
  named "import clause" [.choice [group, .seq [name, optional (.seq [mark ",", group])]]]
where
  group : Phrase := .choice [
    named "namespace import" [mark "*", keyword "as", name],
    named "named imports" [mark "\x7b", list (importSpecifier d), mark "\x7d"]]

def importStatement (d : Dialect) : Phrase :=
  .node .importStatement (.seq [keyword "import", typeMarked d (.choice [
    .seq [importClause d, fromClause],
    only d.typed
      (.seq [name, assign, keyword "require", mark "(", source, mark ")"]),
    source]), optional (named "attributes" [keyword "with", object d]), semicolon d])

def nestedName : Phrase := .chain name [member]

def importAlias (d : Dialect) : Phrase :=
  named "import alias" [keyword "import", name, assign, nestedName, semicolon d]

def exportClause (d : Dialect) : Phrase :=
  named "export clause" [mark "\x7b", list (named "export specifier" [typeMarked d
    (.seq [exportName, optional (.seq [keyword "as", exportName])])]), mark "\x7d"]

/-- A function or class with a name, which is a declaration. -/
def namedDefinition (d : Dialect) : Phrase :=
  .choice [.seq [optional (keyword "async"), keyword "function", optional (mark "*"), name],
    .seq [.many (decorator d), keyword "class", className]]

def exportStatement (d : Dialect) : Phrase :=
  .node .exportStatement (.seq [.many (decorator d), keyword "export", .choice [
    .seq [mark "*", optional (.seq [keyword "as", exportName]), fromClause, semicolon d],
    .seq [exportClause d, optional fromClause, semicolon d],
    .seq [keyword "default", .choice [.rule .declaration,
      .seq [.absent (namedDefinition d), ended expression, semicolon d]]],
    .rule .declaration,
    only d.typed (.choice [
      .seq [keyword "type", exportClause d, optional fromClause, semicolon d],
      importAlias d,
      .seq [assign, ended expression, semicolon d],
      .seq [keyword "as", keyword "namespace", name, semicolon d]])]])

def functionDeclaration (d : Dialect) : Phrase :=
  named "function declaration" [optional (keyword "async"), keyword "function",
    optional (mark "*"), name, signature d,
    .choice [.rule .block, only d.typed (signatureEnd d)]]

def declarator (d : Dialect) : Phrase :=
  named "declarator" [binding, when d.typed (optional (.seq [optional (mark "!"), typing])),
    optional initializer]

def variableDeclaration (d : Dialect) : Phrase :=
  named "variable declaration" [keywords ["const", "let", "var"], separated (declarator d),
    semicolon d]

def typedDeclaration (d : Dialect) : Phrase :=
  .choice [
    named "enumeration" [optional (keyword "const"), keyword "enum", name, mark "\x7b",
      list (.seq [propertyName, optional initializer]), mark "\x7d"],
    named "interface" [keyword "interface", name, optional typeParameters,
      optional (.seq [keyword "extends", separated type]), .rule .objectType],
    named "type alias" [keyword "type", name, optional typeParameters, assign, type,
      semicolon d],
    named "namespace" [keywords ["namespace", "module"], .choice [string, nestedName],
      optional (.rule .block)],
    named "class" [.many (decorator d), keyword "abstract", classFrom d false],
    named "ambient" [keyword "declare", .choice [.rule .declaration,
      .seq [keyword "global", .rule .block]]],
    importAlias d]

def declaration (d : Dialect) : Phrase :=
  .choice [functionDeclaration d, named "class" [.many (decorator d), classFrom d false],
    only d.typed (typedDeclaration d), variableDeclaration d]

def block : Phrase := named "block" [mark "\x7b", .many (.rule .statement), mark "\x7d"]

def statement : Phrase := .rule .statement

/-- What a loop goes through: the members of something, or its values. -/
def loopHead (d : Dialect) : Phrase :=
  .choice [
    .seq [.choice [
        .seq [keyword "var", binding, optional initializer],
        .seq [keywords ["let", "const"], binding],
        parenthesized d, .rule .pattern],
      keywords ["in", "of"], .rule .expressions],
    .seq [.choice [
        .seq [keywords ["const", "let", "var"], separated (declarator d), mark ";"],
        .seq [.rule .expressions, mark ";"], mark ";"],
      optional (.rule .expressions), mark ";", optional (.rule .expressions)]]

def controlFlow (d : Dialect) : Phrase :=
  .choice [
    named "if"
      [keyword "if", parenthesized d, statement, optional (.seq [keyword "else", statement])],
    named "return" [keyword "return", optional (.seq [goesOn d, ended (.rule .expressions)]),
      semicolon d],
    named "for" [keyword "for", optional (keyword "await"), mark "(", loopHead d, mark ")",
      statement],
    named "while" [keyword "while", parenthesized d, statement],
    named "do" [keyword "do", statement, keyword "while", parenthesized d, optional (mark ";")],
    named "switch" [keyword "switch", parenthesized d, mark "\x7b", .many (.seq [
        .choice [.seq [keyword "case", .rule .expressions], keyword "default"], mark ":",
        .many statement]), mark "\x7d"],
    named "try" [keyword "try", .rule .block,
      optional (.seq [keyword "catch", optional (.seq [mark "(", binding,
        when d.typed (optional typing), mark ")"]), .rule .block]),
      optional (.seq [keyword "finally", .rule .block])],
    named "throw" [keyword "throw", ended (.rule .expressions), semicolon d],
    named "jump" [keywords ["break", "continue"], optional (.seq [goesOn d, name]),
      semicolon d],
    named "debugger" [keyword "debugger", semicolon d],
    named "with" [keyword "with", parenthesized d, statement]]

/-- Words that start statements, and so no expression among them. -/
def statementWords : List String :=
  ["if", "else", "for", "while", "do", "switch", "case", "default", "try", "catch", "finally",
    "with", "break", "continue", "return", "throw", "debugger", "const", "var", "export"]

def statementRule (d : Dialect) : Phrase :=
  .choice [
    importStatement d, exportStatement d, .rule .declaration, .rule .block, controlFlow d, mark ";",
    .seq [.absent (.choice [keywords statementWords, namedDefinition d, mark "\x7b"]), .choice [
      named "labelled" [name, mark ":", statement],
      named "expression" [ended (.rule .expressions), semicolon d]]]]

end Phrase

end ImportAlias.Grammar
