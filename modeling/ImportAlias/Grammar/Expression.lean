import ImportAlias.Grammar.Type

/-! Rules for patterns, functions, classes and expressions. -/
namespace ImportAlias.Grammar

open Phrase

namespace Phrase

def expression : Phrase := .rule (.expression true)

def parenthesized (d : Dialect) : Phrase :=
  named "parenthesized" [mark "(", .rule .expressions, when d.typed (optional typing), mark ")"]

def decorator (d : Dialect) : Phrase :=
  named "decorator" [mark "@", .choice [parenthesized d,
    .chain name [member, (anyKind, .call,
      .seq [when d.typed (optional typeArguments), .rule .arguments])]]]

def restPattern : Phrase := named "rest" [mark "...", .rule .pattern]

def patternElement : Phrase := .seq [.rule .pattern, optional initializer]

def objectPattern : Phrase :=
  named "object pattern" [mark "\x7b", elements (.choice [restPattern,
    named "pair" [propertyName, mark ":", patternElement],
    .seq [lexeme (.other "property name") Scan.word, optional initializer]]), mark "\x7d"]

def arrayPattern : Phrase := named "array pattern" [mark "[", elements patternElement, mark "]"]

/-- What a declaration binds: a name, or a destructuring. -/
def binding : Phrase := .choice [objectPattern, arrayPattern, name]

/-- A target of an assignment: a rest, a destructuring, or a name with members. -/
def pattern : Phrase :=
  .choice [restPattern, objectPattern, arrayPattern, .chain name [member, subscript]]

def parameter (d : Dialect) : Phrase :=
  if d.typed then
    named "parameter" [.many (decorator d),
      .many (.seq [keywords ["public", "private", "protected", "override", "readonly"],
        .followed (.choice [name, mark "\x7b", mark "["])]),
      .choice [self, .rule .pattern], optional (mark "?"), optional typing,
      optional initializer]
  else named "parameter" [patternElement]

def parameters (d : Dialect) : Phrase :=
  named "parameters" [mark "(", list (parameter d), mark ")"]

def arguments : Phrase :=
  .node .arguments (.seq [mark "(", elements (.choice [spread, expression]), mark ")"])
where
  spread : Phrase := named "spread" [mark "...", expression]

def template : Phrase :=
  named "template" [mark "\x60",
    .many (.choice [.token (.other "characters") Scan.template,
      .token (.other "escape") Scan.escape,
      .seq [.token .mark (Scan.literal "$\x7b"), .rule .expressions, mark "\x7d"]]),
    .token .mark (Scan.literal "\x60")]

def functionExpression (d : Dialect) : Phrase :=
  named "function" [optional (keyword "async"), keyword "function", optional (mark "*"),
    optional name, signature d, .rule .block]

def arrow (d : Dialect) (annotated : Bool) : Phrase :=
  named "arrow function" [
    optional (.seq [keyword "async", .followed (.choice [name, mark "(", mark "<"])]),
    .choice [.seq [name, .followed (mark "=>")],
      .seq [when d.typed (optional typeParameters), .rule .parameters,
        when (d.typed && annotated) (optional resultTyping)]],
    mark "=>", .choice [.rule .block, .seq [.absent (mark "\x7b"), .rule (.expression annotated)]]]

def heritage (d : Dialect) : Phrase :=
  if d.typed then
    .seq [optional (.seq [keyword "extends",
        separated (.seq [.rule (.postfixed true), optional typeArguments])]),
      optional (.seq [keyword "implements", separated type])]
  else optional (.seq [keyword "extends", .rule (.postfixed true)])

def className : Phrase := lexeme .identifier (Scan.wordExcept ["extends", "implements"])

/-- A class from its keyword on; a declaration has to have a name. -/
def classFrom (d : Dialect) (nameless : Bool) : Phrase :=
  .seq [keyword "class", if nameless then optional className else className,
    when d.typed (optional typeParameters), heritage d, .rule .classBody]

def classMember (d : Dialect) : Phrase :=
  .choice [
    named "static block" [keyword "static", .rule .block],
    named "member" [.many (decorator d), modifiers (memberModifiers d), .choice [
      only d.typed (.seq [indexSignature, ends]),
      .seq [propertyName, when d.typed (optional (.choice [mark "?", sign "!" "="])), .choice [
        .seq [signature d, .choice [.seq [.rule .block, optional (mark ";")],
          only d.typed (.choice [signatureEnd d, mark ","])]],
        .seq [when d.typed (optional typing), optional initializer, ends]]]]],
    mark ";"]
where
  ends : Phrase := .choice [semicolon d, only d.typed (mark ",")]

def classBody (d : Dialect) : Phrase :=
  named "class body" [mark "\x7b", .many (classMember d), mark "\x7d"]

def objectMember (d : Dialect) : Phrase :=
  .choice [named "spread" [mark "...", expression],
    named "pair" [propertyName, mark ":", expression],
    named "method" [modifiers (memberModifiers d), propertyName, signature d, .rule .block],
    .seq [lexeme (.other "property name") Scan.word, .followed (.choice [mark ",", mark "\x7d"])]]

/-- An object, or a destructuring that could not be one. -/
def object (d : Dialect) : Phrase :=
  .choice [named "object" [mark "\x7b", elements (objectMember d), mark "\x7d"],
    .seq [objectPattern, .followed assign]]

def array : Phrase :=
  .choice [named "array" [mark "[", elements (.choice [arguments.spread, expression]), mark "]"],
    .seq [arrayPattern, .followed assign]]

/-- Words that start an expression of their own. -/
def expressionWords : List String :=
  ["function", "class", "new", "typeof", "void", "delete", "await", "yield", "this", "super",
    "null", "true", "false", "undefined", "import"]

def identifier : Phrase := lexeme .identifier (Scan.wordExcept expressionWords)

/-- An object made by a constructor, or the constructor that was called. -/
def construction (d : Dialect) : Phrase :=
  .choice [
    named "meta property" [keyword "new", mark ".", keyword "target"],
    named "new" [keyword "new", .rule .construction, when d.typed (optional typeArguments),
      optional (.rule .arguments)]]

def primary (d : Dialect) (annotated : Bool) : Phrase :=
  .choice [
    arrow d annotated, functionExpression d, identifier, string, number, template,
    lexeme (.other "literal")
      (Scan.keywords ["this", "super", "null", "true", "false", "undefined"]),
    parenthesized d, object d, array,
    named "class" [.many (decorator d), classFrom d true], construction d,
    named "meta property" [keyword "import", mark ".", keyword "meta"], moduleLoad,
    lexeme (.other "regular expression") Scan.regex, only d.markup (.rule .markup)]

def nonNull (d : Dialect) : (Kind → Bool) × Kind × Phrase :=
  (anyKind, .other "non-null", .seq [goesOn d, sign "!" "="])

/-- What `new` is applied to. -/
def constructed (d : Dialect) : Phrase :=
  .choice [construction d, .chain (primary d true)
    ([member, subscript, tagged] ++ if d.typed then [nonNull d] else [])]

def isAssignable : Kind → Bool
  | .identifier => true
  | .other name => ["member", "subscript", "parenthesized", "object", "array", "object pattern",
      "array pattern", "non-null"].contains name
  | _ => false

def assignment : Phrase :=
  .choice (assign :: ["**=", ">>>=", "&&=", "||=", "??=", "<<=", ">>=", "+=", "-=", "*=", "/=",
    "%=", "&=", "^=", "|="].map mark)

/-- Can type arguments that nothing is called with end here? -/
def endsTypeArguments (t : Text) : Bool :=
  match Scan.skim .code false t with
  | (_, []) => true
  | (_, c :: _) => ")],;:\x7d?=&|".toList.contains c

def postfixed (d : Dialect) (annotated : Bool) : Phrase :=
  .chain (primary d annotated) ([
    (anyKind, .call, .seq [typeArguments?, .rule .arguments]), member, subscript,
    (anyKind, .call, .seq [sign "?." "0123456789", typeArguments?, .rule .arguments]),
    (anyKind, .other "tagged template", .seq [typeArguments?, .rule .template]),
    (anyKind, .other "update", .seq [goesOn d, .choice [mark "++", mark "--"]]),
    (isAssignable, .other "assignment", .seq [assignment, .rule (.expression annotated)])] ++
    if d.typed then
      [nonNull d, (anyKind, .other "instantiation",
        .seq [typeArguments, .check endsTypeArguments])]
    else [])
where
  typeArguments? : Phrase := when d.typed (optional typeArguments)

def operand (d : Dialect) (annotated : Bool) : Phrase :=
  .choice [
    named "unary" [.choice [sign "!" "", sign "~" "", mark "++", mark "--", sign "+" "",
      sign "-" "", keywords ["typeof", "void", "delete", "await"]], .rule (.operand annotated)],
    named "yield" [keyword "yield", .choice [.seq [mark "*", .rule (.expression annotated)],
      optional (.seq [goesOn d, .rule (.expression annotated)])]],
    .rule (.postfixed annotated),
    .seq [privateName, .followed (keyword "in")],
    named "using" [keyword "using", name, assign, .rule (.expression annotated)],
    only (d == .typeScript) (named "type assertion" [typeArguments, .rule (.operand annotated)])]

def binaryOperator : Phrase :=
  .choice [
    sign "&&" "=", sign "||" "=", sign "??" "=", sign ">>>" "=", sign ">>" "=", sign "<<" "=",
    mark "===", mark "!==", mark "==", mark "!=", mark "<=", sign ">=" "", sign "**" "=",
    sign "&" "&=", sign "|" "|=", sign "^" "=", sign "+" "+=", sign "-" "-=", sign "*" "*=",
    sign "/" "=", sign "%" "=", sign "<" "<=", sign ">" ">=", keywords ["instanceof", "in"]]

/-- The mark of a conditional, which starts neither another operator nor a chain. -/
def questionMark : Phrase :=
  lexeme .mark fun
    | '?' :: '?' :: _ => none
    | '?' :: '.' :: c :: _ => if c.isDigit then some 1 else none
    | '?' :: _ => some 1
    | _ => none

/-- Operands between operators, perhaps under a condition. -/
def expressionRule (d : Dialect) (annotated : Bool) : Phrase :=
  .chain (.rule (.operand annotated)) ([
    (anyKind, .other "binary", .seq [operation, .many operation]),
    (anyKind, .other "conditional", .seq [questionMark, .rule (.expression true), mark ":",
      .rule (.expression annotated)])] ++
    if d.typed then [
      (anyKind, .other "conditional", .seq [questionMark, .followed (mark "("),
        .rule (.expression false), mark ":", .rule (.expression annotated)]),
      (anyKind, .other "cast", .seq [goesOn d, .choice [
        .seq [keyword "as", .choice [.seq [keyword "const", .absent (sign "." "")], type]],
        .seq [keyword "satisfies", type]]])]
    else [])
where
  operation : Phrase := .seq [binaryOperator, .rule (.operand annotated)]

def expressions : Phrase := separated expression

end Phrase

end ImportAlias.Grammar
