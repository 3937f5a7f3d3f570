import ImportAlias.Grammar.Type

/-! Rules for markup inside expressions. -/
namespace ImportAlias.Grammar.Phrase

def markupName : Phrase := lexeme .identifier Scan.markupName

def elementName (d : Dialect) : Phrase :=
  named "element name" [markupName, .choice [.seq [mark ":", markupName],
    .many (.seq [mark ".", markupName])], when d.typed (optional typeArguments)]

/-- An expression between braces, or nothing but comments. -/
def embedded : Phrase :=
  named "embedded" [mark "\x7b", optional (.choice [
    .seq [mark "...", .rule (.expression true)], .rule .expressions]), mark "\x7d"]

def markupAttribute : Phrase :=
  .choice [embedded, named "attribute" [markupName, optional (.seq [mark ":", markupName]),
    optional (.seq [mark "=",
      .choice [lexeme .string Scan.attributeString, embedded, .rule .markup]])]]

def markupChild : Phrase :=
  .choice [.token (.other "text") Scan.markupText, .token (.other "reference") Scan.reference,
    embedded, .rule .markup]

/-- An element with its attributes and children, or a fragment without a name. -/
def markup (d : Dialect) : Phrase :=
  named "element" [sign "<" "/<", .choice [
    .seq [elementName d, .many markupAttribute, .choice [.seq [mark "/", mark ">"], content]],
    content]]
where
  content : Phrase :=
    .seq [mark ">", .many (.seq [.absent (mark "</"), markupChild]), mark "</",
      optional (elementName d), mark ">"]

end ImportAlias.Grammar.Phrase
