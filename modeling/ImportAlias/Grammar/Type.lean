import ImportAlias.Grammar.Rule

/-! Rules for types. -/
namespace ImportAlias.Grammar

open Phrase

namespace Phrase

def type : Phrase := .rule .type

def typeArguments : Phrase :=
  named "type arguments" [sign "<" "<=", separated type, optional (mark ","), mark ">"]

def typeParameter : Phrase :=
  named "type parameter" [
    .many (.seq [keywords ["const", "in", "out"], .followed name]), typeName,
    optional (.seq [.choice [keyword "extends", mark ":"], type]), optional (.seq [assign, type])]
where
  typeName : Phrase := lexeme (.other "type name") Scan.word

def typeParameters : Phrase :=
  named "type parameters" [mark "<", separated typeParameter, optional (mark ","), mark ">"]

def self : Phrase := lexeme (.other "this") (Scan.keyword "this")

def predicate : Phrase := named "predicate" [.choice [self, name], keyword "is", type]

def resultType : Phrase :=
  .choice [named "assertion" [keyword "asserts", .choice [predicate, self, name]], predicate, type]

def typing : Phrase := named "typing" [mark ":", type]

def resultTyping : Phrase := named "typing" [mark ":", resultType]

def signature (d : Dialect) : Phrase :=
  .seq [when d.typed (optional typeParameters), .rule .parameters,
    when d.typed (optional resultTyping)]

def functionType : Phrase :=
  named "function type" [optional typeParameters, .rule .parameters, mark "=>", resultType]

def constructorType : Phrase :=
  named "constructor type" [optional (keyword "abstract"), keyword "new", optional typeParameters,
    .rule .parameters, mark "=>", type]

def typeName : Phrase :=
  named "type name" [lexeme (.other "type name") Scan.word,
    .many (.seq [sign "." ".", lexeme (.other "type name") Scan.word]),
    optional typeArguments]

def typedValue (d : Dialect) (base : Phrase) : Phrase :=
  .chain base [(anyKind, .call, .seq [goesOn d, .rule .arguments]), member]

def moduleLoad : Phrase :=
  .seq [lexeme (.other "import") (Scan.keyword "import"), .followed (mark "(")]

def typeTemplate : Phrase :=
  named "type template" [mark "\x60",
    .many (.choice [.token (.other "characters") Scan.template,
      .token (.other "escape") Scan.escape,
      .seq [.token .mark (Scan.literal "$\x7b"), type, mark "\x7d"]]),
    .token .mark (Scan.literal "\x60")]

def primaryType (d : Dialect) : Phrase :=
  .choice [
    named "parenthesized type" [mark "(", type, mark ")"],
    .rule .objectType,
    named "tuple type" [mark "[", elements tupleMember, mark "]"],
    string, number, named "number" [keywordSign, number], typeTemplate,
    .seq [typedValue d moduleLoad, optional typeArguments],
    self, lexeme (.other "any") (Scan.literal "*"), typeName]
where
  keywordSign : Phrase := .choice [mark "-", mark "+"]
  /-- An element with a label, a spread or an optional mark. -/
  tupleMember : Phrase :=
    .seq [optional (mark "..."),
      .choice [.seq [name, optional (mark "?"), typing], .seq [type, optional (mark "?")]]]

def typeOperand (d : Dialect) : Phrase :=
  .choice [
    functionType, constructorType,
    named "type operator" [keywords ["keyof", "readonly", "unique"], .rule .typeOperand],
    named "inferred type" [keyword "infer", name,
      optional (.seq [keyword "extends", .rule .typeOperand, .absent (mark "?")])],
    .seq [.node (.other "type query") (.seq [keyword "typeof",
      typedValue d (.choice [moduleLoad, self, name]), optional typeArguments]), arrays],
    .chain (primaryType d) [array]]
where
  array : (Kind → Bool) × Kind × Phrase :=
    (anyKind, .other "array type", .seq [goesOn d, mark "[", optional type, mark "]"])
  arrays : Phrase := .many (.seq [goesOn d, mark "[", optional type, mark "]"])

def typeRule : Phrase :=
  .chain (.node (.other "type") (.seq [union, optional (mark "|"), intersection,
      .many (.seq [union, mark "|", intersection])]))
    [(anyKind, .other "conditional type",
      .seq [keyword "extends", type, mark "?", type, mark ":", type])]
where
  union : Phrase := .absent (mark "||")
  intersection : Phrase :=
    .seq [optional (sign "&" "&"), .rule .typeOperand,
      .many (.seq [sign "&" "&", .rule .typeOperand])]

/-- A name of an index, or the names that a mapped type goes through. -/
def indexSignature : Phrase :=
  named "index signature" [
    optional (.seq [optional (.choice [mark "-", mark "+"]), keyword "readonly"]), mark "[", name,
    .choice [typing, .seq [keyword "in", type, optional (.seq [keyword "as", type])]], mark "]",
    optional (.choice [mark "?", mark "-?", mark "+?"]), optional typing]

def memberModifiers (d : Dialect) : List String :=
  if d.typed then
    ["static", "async", "get", "set", "public", "private", "protected", "readonly", "abstract",
      "override", "declare", "accessor"]
  else ["static", "async", "get", "set"]

def typeMember (d : Dialect) : Phrase :=
  .choice [indexSignature,
    named "construct signature" [optional (keyword "abstract"), keyword "new", signature d],
    named "call signature" [signature d],
    named "member signature" [modifiers (memberModifiers d), propertyName, optional (mark "?"),
      .choice [signature d, optional typing]]]

/-- Members between commas, semicolons or line ends. -/
def objectType (d : Dialect) : Phrase :=
  named "object type" [mark "\x7b", optional separator,
    .many (.seq [typeMember d, .choice [separator, .check (endsHere d)]]), mark "\x7d"]
where
  separator : Phrase := .choice [mark ",", mark ";"]

end Phrase

end ImportAlias.Grammar
