import ImportAlias.Proofs.Grammar.Strings

/-! All rules of modules read sources, and strings among arguments, as string tokens. The values of
markup attributes are read otherwise, but they stand below a node of their own. -/
namespace ImportAlias.Grammar

namespace Kind

@[simp] theorem holdsArguments_arguments : arguments.holdsArguments = true := rfl

@[simp] theorem holdsArguments_call : call.holdsArguments = false := rfl

@[simp] theorem holdsArguments_importStatement : importStatement.holdsArguments = false := rfl

@[simp] theorem holdsArguments_exportStatement : exportStatement.holdsArguments = false := rfl

@[simp] theorem holdsArguments_other (name : String) : (other name).holdsArguments = false := rfl

end Kind

namespace Phrase

variable {top : Bool}

theorem scansStrings_string : ScansStrings Scan.string := fun _ _ h => isString_of_scan h

theorem quotes_lexeme {kind : Kind} {scan : Scanner} : Quotes top (lexeme kind scan) ↔
    (kind = .source ∨ kind = .string ∧ top = true → ScansStrings scan) := by
  simp [lexeme, trivia]

@[simp] theorem quotes_mark (s : String) : Quotes top (mark s) := by simp [mark, quotes_lexeme]

@[simp] theorem quotes_sign (s next : String) : Quotes top (sign s next) := by
  simp [sign, quotes_lexeme]

@[simp] theorem quotes_keyword (s : String) : Quotes top (keyword s) := by
  simp [keyword, quotes_lexeme]

@[simp] theorem quotes_keywords (words : List String) : Quotes top (keywords words) := by
  simp [keywords, quotes_lexeme]

@[simp] theorem quotes_name : Quotes top name := by simp [name, quotes_lexeme]

@[simp] theorem quotes_string : Quotes top string := by
  simp [string, quotes_lexeme, scansStrings_string]

@[simp] theorem quotes_source : Quotes top source := by
  simp [source, quotes_lexeme, scansStrings_string]

@[simp] theorem quotes_number : Quotes top number := by simp [number, quotes_lexeme]

@[simp] theorem quotes_optional {p : Phrase} : Quotes top (optional p) ↔ Quotes top p := by
  simp [optional, empty]

@[simp] theorem quotes_when {b : Bool} {p : Phrase} :
    Quotes top (when b p) ↔ (b = true → Quotes top p) := by
  cases b <;> simp [when, empty]

@[simp] theorem quotes_only {b : Bool} {p : Phrase} :
    Quotes top (only b p) ↔ (b = true → Quotes top p) := by
  cases b <;> simp [only]

@[simp] theorem quotes_named {s : String} {parts : List Phrase} :
    Quotes top (named s parts) ↔ QuotesAll false parts := by
  simp [named]

@[simp] theorem quotes_elements {item : Phrase} : Quotes top (elements item) ↔ Quotes top item := by
  simp [elements]

@[simp] theorem quotes_separated {item : Phrase} :
    Quotes top (separated item) ↔ Quotes top item := by
  simp [separated]

@[simp] theorem quotes_list {item : Phrase} : Quotes top (list item) ↔ Quotes top item := by
  simp [list]

@[simp] theorem quotes_ite {b : Prop} [Decidable b] {p q : Phrase} :
    Quotes top (if b then p else q) ↔ (b → Quotes top p) ∧ (¬b → Quotes top q) := by
  by_cases h : b <;> simp [h]

theorem quotesSteps_ite {c : Prop} [Decidable c] {a b : List ((Kind → Bool) × Kind × Phrase)} :
    QuotesSteps (if c then a else b) ↔ (c → QuotesSteps a) ∧ (¬c → QuotesSteps b) := by
  by_cases h : c <;> simp [h]

/-! Parts that several rules share -/

@[simp] theorem quotes_privateName : Quotes top privateName := by simp [privateName, quotes_lexeme]

@[simp] theorem quotes_semicolon (d : Dialect) : Quotes top (semicolon d) := by
  simp [semicolon]

@[simp] theorem quotes_assign : Quotes top assign := by simp [assign]

@[simp] theorem quotes_ended {p : Phrase} : Quotes top (ended p) ↔ Quotes top p := by
  simp [ended]

@[simp] theorem quotes_initializer : Quotes top initializer := by
  simp [initializer]

@[simp] theorem quotes_propertyName : Quotes top propertyName := by
  simp [propertyName, quotes_lexeme]

@[simp] theorem quotes_modifiers (words : List String) : Quotes top (modifiers words) := by
  simp [modifiers]

@[simp] theorem quotesSteps_member {rest : List ((Kind → Bool) × Kind × Phrase)} :
    QuotesSteps (member :: rest) ↔ QuotesSteps rest := by
  simp [member, member.optionalDot, quotes_lexeme]

@[simp] theorem quotesSteps_subscript {rest : List ((Kind → Bool) × Kind × Phrase)} :
    QuotesSteps (subscript :: rest) ↔ QuotesSteps rest := by
  simp [subscript]

@[simp] theorem quotes_type : Quotes top type := by simp [type]

@[simp] theorem quotes_typeArguments : Quotes top typeArguments := by
  simp [typeArguments]

@[simp] theorem quotes_typeParameters : Quotes top typeParameters := by
  simp [typeParameters, typeParameter, typeParameter.typeName, quotes_lexeme]

@[simp] theorem quotes_self : Quotes top self := by simp [self, quotes_lexeme]

@[simp] theorem quotes_resultType : Quotes top resultType := by
  simp [resultType, predicate]

@[simp] theorem quotes_typing : Quotes top typing := by simp [typing]

@[simp] theorem quotes_signature (d : Dialect) : Quotes top (signature d) := by
  simp [signature, resultTyping]

@[simp] theorem quotes_indexSignature : Quotes top indexSignature := by
  simp [indexSignature]

@[simp] theorem quotes_moduleLoad : Quotes top moduleLoad := by
  simp [moduleLoad, quotes_lexeme]

@[simp] theorem quotes_expression : Quotes top expression := by simp [expression]

@[simp] theorem quotes_parenthesized (d : Dialect) : Quotes top (parenthesized d) := by
  simp [parenthesized]

@[simp] theorem quotes_decorator (d : Dialect) : Quotes top (decorator d) := by
  simp [decorator]

@[simp] theorem quotes_patternElement : Quotes top patternElement := by
  simp [patternElement]

@[simp] theorem quotes_objectPattern : Quotes top objectPattern := by
  simp [objectPattern, restPattern, quotes_lexeme]

@[simp] theorem quotes_arrayPattern : Quotes top arrayPattern := by simp [arrayPattern]

@[simp] theorem quotes_binding : Quotes top binding := by simp [binding]

@[simp] theorem quotes_className : Quotes top className := by simp [className, quotes_lexeme]

@[simp] theorem quotes_classFrom (d : Dialect) (nameless : Bool) :
    Quotes top (classFrom d nameless) := by
  simp [classFrom, heritage]

@[simp] theorem quotes_object (d : Dialect) : Quotes top (object d) := by
  simp [object, objectMember, quotes_lexeme]

@[simp] theorem quotes_template : Quotes top template := by simp [template]

@[simp] theorem quotes_construction (d : Dialect) : Quotes top (construction d) := by
  simp [construction]

@[simp] theorem quotes_primary (d : Dialect) (annotated : Bool) :
    Quotes top (primary d annotated) := by
  simp [primary, arrow, resultTyping, functionExpression, identifier, array, arguments.spread,
    quotes_lexeme]

@[simp] theorem quotes_nestedName : Quotes top nestedName := by
  simp [nestedName]

@[simp] theorem quotes_importAlias (d : Dialect) : Quotes top (importAlias d) := by
  simp [importAlias]

@[simp] theorem quotes_declarator (d : Dialect) : Quotes top (declarator d) := by
  simp [declarator]

@[simp] theorem quotes_typeMarked {d : Dialect} {p : Phrase} :
    Quotes top (typeMarked d p) ↔ Quotes top p := by
  by_cases h : d.typed <;> simp [typeMarked, h]

@[simp] theorem quotes_exportName : Quotes top exportName := by
  simp [exportName]

@[simp] theorem quotes_fromClause : Quotes top fromClause := by
  simp [fromClause]

@[simp] theorem quotes_exportClause (d : Dialect) : Quotes top (exportClause d) := by
  simp [exportClause]

theorem quotes_importStatement (d : Dialect) : Quotes top (importStatement d) := by
  simp [importStatement, importClause, importClause.group, importSpecifier, quotes_lexeme]

theorem quotes_exportStatement (d : Dialect) : Quotes top (exportStatement d) := by
  simp [exportStatement]

theorem quotes_controlFlow (d : Dialect) : Quotes top (controlFlow d) := by
  simp [controlFlow, loopHead, statement, goesOn]

theorem quotes_typedDeclaration (d : Dialect) : Quotes top (typedDeclaration d) := by
  simp [typedDeclaration]

theorem quotes_embedded : Quotes top embedded := by simp [embedded]

theorem quotes_elementName (d : Dialect) : Quotes top (elementName d) := by
  simp [elementName, markupName, quotes_lexeme]

end Phrase

open Phrase

theorem quotes_rules (d : Dialect) (r : Rule) : Quotes true (d.rules r) := by
  cases r with
  | statement =>
    simp [Dialect.rules, statementRule, quotes_importStatement, quotes_exportStatement,
      quotes_controlFlow, statement]
  | declaration =>
    simp [Dialect.rules, declaration, functionDeclaration, signatureEnd, quotes_typedDeclaration,
      variableDeclaration]
  | block => simp [Dialect.rules, block]
  | expressions => simp [Dialect.rules, expressions]
  | expression annotated =>
    simp [Dialect.rules, expressionRule, expressionRule.operation, binaryOperator, questionMark,
      goesOn, quotes_lexeme, quotesSteps_ite]
  | operand annotated => simp [Dialect.rules, operand, goesOn]
  | postfixed annotated =>
    simp [Dialect.rules, postfixed, postfixed.typeArguments?, assignment, nonNull, goesOn,
      quotesSteps_ite]
  | construction =>
    simp [Dialect.rules, constructed, tagged, nonNull, goesOn, quotesSteps_ite]
  | arguments =>
    simp [Dialect.rules, arguments, arguments.spread]
  | template => simp [Dialect.rules]
  | pattern => simp [Dialect.rules, pattern, restPattern]
  | parameters => simp [Dialect.rules, parameters, parameter]
  | classBody =>
    simp [Dialect.rules, classBody, classMember, classMember.ends, signatureEnd]
  | markup =>
    simp [Dialect.rules, markup, markup.content, markupAttribute, markupChild, markupName,
      quotes_embedded, quotes_elementName, quotes_lexeme]
  | type =>
    simp [Dialect.rules, typeRule, typeRule.union, typeRule.intersection]
  | typeOperand =>
    simp [Dialect.rules, typeOperand, typeOperand.array, typeOperand.arrays, functionType,
      constructorType, typedValue, primaryType, primaryType.keywordSign, primaryType.tupleMember,
      typeTemplate, typeName, goesOn, quotes_lexeme]
  | objectType =>
    simp [Dialect.rules, objectType, objectType.separator, typeMember]

/-- The trees of a module are sound. -/
theorem soundAll_parse? {d : Dialect} {t : Text} {trees : List Tree} (h : parse? d t = some trees) :
    Tree.SoundAll trees := by
  have hp : Quotes false program := by simp [program, trivia]
  unfold parse? at h
  split at h
  · rename_i found hr
    obtain rfl : found = trees := Option.some.inj h
    exact (quoted_read (quotes_rules d) _ _ _ _ _ _ hp hr).1
  · simp at h

end ImportAlias.Grammar
