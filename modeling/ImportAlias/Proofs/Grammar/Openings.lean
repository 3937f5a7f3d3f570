import ImportAlias.Proofs.Grammar.Scanning

/-! How the rules of the language start: each of them refuses a text whose next word and next mark
are none of its own. -/
namespace ImportAlias.Grammar

open Phrase

variable {d : Dialect} {t : Text} {g : Phrase} {gs : List Phrase}

theorem refuses_seq_optional (h : Refuses d g t) (hs : Refuses d (.seq gs) t) :
    Refuses d (.seq (optional g :: gs)) t := refuses_seq_idle (idle_optional h) hs

theorem refuses_seq_many (h : Refuses d g t) (hs : Refuses d (.seq gs) t) :
    Refuses d (.seq (.many g :: gs)) t := refuses_seq_idle (idle_many h) hs

theorem refuses_choice_of_forall (h : ∀ g ∈ gs, Refuses d g t) : Refuses d (.choice gs) t := by
  induction gs with
  | nil => exact refuses_choice_nil
  | cons g gs ih =>
    exact refuses_choice_cons (h g List.mem_cons_self)
      (ih fun g hg => h g (List.mem_cons_of_mem _ hg))

/-! Declarations -/

theorem refuses_decorator (h : Clear [] ['@'] t) : Refuses d (decorator d) t :=
  refuses_node (refuses_seq_cons (h.literal (by decide)))

theorem refuses_functionDeclaration (h : Clear ["async", "function"] [] t) :
    Refuses d (functionDeclaration d) t :=
  refuses_node (refuses_seq_optional (h.keyword (by decide))
    (refuses_seq_cons (h.keyword (by decide))))

theorem refuses_class (h : Clear ["class"] ['@'] t) (nameless : Bool) :
    Refuses d (named "class" [.many (decorator d), classFrom d nameless]) t :=
  refuses_node (refuses_seq_many (refuses_decorator (h.mono (by decide) (by simp)))
    (refuses_seq_cons (refuses_seq_cons (h.keyword (by decide)))))

theorem refuses_importAlias (h : Clear ["import"] [] t) : Refuses d (importAlias d) t :=
  refuses_node (refuses_seq_cons (h.keyword (by decide)))

theorem refuses_variableDeclaration (h : Clear ["const", "let", "var"] [] t) :
    Refuses d (variableDeclaration d) t :=
  refuses_node (refuses_seq_cons (h.keywords (by decide)))

/-- What starts with `const enum` or `enum`. -/
def enumeration : Phrase :=
  named "enumeration" [optional (keyword "const"), keyword "enum", name, mark "\x7b",
    list (.seq [propertyName, optional initializer]), mark "\x7d"]

def typeAlias (d : Dialect) : Phrase :=
  named "type alias" [keyword "type", name, optional typeParameters, assign, type, semicolon d]

theorem refuses_enumeration (h : Clear ["const", "enum"] [] t) : Refuses d enumeration t :=
  refuses_node (refuses_seq_optional (h.keyword (by decide))
    (refuses_seq_cons (h.keyword (by decide))))

theorem refuses_typeAlias (h : Clear ["type"] [] t) : Refuses d (typeAlias d) t :=
  refuses_node (refuses_seq_cons (h.keyword (by decide)))

theorem refuses_typedDeclaration
    (h : Clear ["interface", "namespace", "module", "abstract", "declare", "import"] ['@'] t)
    (he : Refuses d enumeration t) (ha : Refuses d (typeAlias d) t) :
    Refuses d (typedDeclaration d) t := by
  refine refuses_choice_cons he (refuses_choice_cons ?_ (refuses_choice_cons ha
    (refuses_choice_of_forall ?_)))
  · exact refuses_node (refuses_seq_cons (h.keyword (by decide)))
  · simp only [List.forall_mem_cons, List.not_mem_nil, false_imp_iff, implies_true, and_true]
    refine ⟨?_, ?_, ?_, ?_⟩
    · exact refuses_node (refuses_seq_cons (h.keywords (by decide)))
    · exact refuses_node (refuses_seq_many (refuses_decorator (h.mono (by decide) (by simp)))
        (refuses_seq_cons (h.keyword (by decide))))
    · exact refuses_node (refuses_seq_cons (h.keyword (by decide)))
    · exact refuses_importAlias (h.mono (by decide) (by simp))

theorem refuses_importStatement (h : Clear ["import"] [] t) : Refuses d (importStatement d) t :=
  refuses_node (refuses_seq_cons (h.keyword (by decide)))

theorem refuses_exportStatement (h : Clear ["export"] ['@'] t) : Refuses d (exportStatement d) t :=
  refuses_node (refuses_seq_many (refuses_decorator (h.mono (by decide) (by simp)))
    (refuses_seq_cons (h.keyword (by decide))))

/-! Operands -/

def unary (annotated : Bool) : Phrase :=
  named "unary" [.choice [sign "!" "", sign "~" "", mark "++", mark "--", sign "+" "", sign "-" "",
    keywords ["typeof", "void", "delete", "await"]], .rule (.operand annotated)]

def yielded (d : Dialect) (annotated : Bool) : Phrase :=
  named "yield" [keyword "yield", .choice [.seq [mark "*", .rule (.expression annotated)],
    optional (.seq [goesOn d, .rule (.expression annotated)])]]

theorem refuses_unary (h : Clear ["typeof", "void", "delete", "await"] ['!', '~', '+', '-'] t)
    (annotated : Bool) : Refuses d (unary annotated) t := by
  refine refuses_node (refuses_seq_cons (refuses_choice_of_forall ?_))
  simp only [List.forall_mem_cons, List.not_mem_nil, false_imp_iff, implies_true, and_true]
  exact ⟨h.sign (by decide), h.sign (by decide), h.literal (by decide), h.literal (by decide),
    h.sign (by decide), h.sign (by decide), h.keywords (by decide)⟩

theorem refuses_yielded (h : Clear ["yield"] [] t) (annotated : Bool) :
    Refuses d (yielded d annotated) t :=
  refuses_node (refuses_seq_cons (h.keyword (by decide)))

theorem refuses_functionExpression (h : Clear ["async", "function"] [] t) :
    Refuses d (functionExpression d) t :=
  refuses_node (refuses_seq_optional (h.keyword (by decide))
    (refuses_seq_cons (h.keyword (by decide))))

theorem refuses_typeArguments (h : Clear [] ['<'] t) : Refuses d typeArguments t :=
  refuses_node (refuses_seq_cons (h.sign (by decide)))

theorem refuses_typeParameters (h : Clear [] ['<'] t) : Refuses d typeParameters t :=
  refuses_node (refuses_seq_cons (h.literal (by decide)))

theorem refuses_parameters (h : Clear [] ['('] t) : Refuses d (.rule .parameters) t :=
  refuses_rule (refuses_node (refuses_seq_cons (h.literal (by decide))))

theorem refuses_parenthesized (h : Clear [] ['('] t) : Refuses d (parenthesized d) t :=
  refuses_node (refuses_seq_cons (h.literal (by decide)))

theorem refuses_objectPattern (h : Clear [] ['\x7b'] t) : Refuses d objectPattern t :=
  refuses_node (refuses_seq_cons (h.literal (by decide)))

theorem refuses_arrayPattern (h : Clear [] ['['] t) : Refuses d arrayPattern t :=
  refuses_node (refuses_seq_cons (h.literal (by decide)))

theorem refuses_object (h : Clear [] ['\x7b'] t) : Refuses d (object d) t :=
  refuses_choice_cons (refuses_node (refuses_seq_cons (h.literal (by decide))))
    (refuses_choice_cons (refuses_seq_cons (refuses_objectPattern h)) refuses_choice_nil)

theorem refuses_array (h : Clear [] ['['] t) : Refuses d array t :=
  refuses_choice_cons (refuses_node (refuses_seq_cons (h.literal (by decide))))
    (refuses_choice_cons (refuses_seq_cons (refuses_arrayPattern h)) refuses_choice_nil)

theorem refuses_construction (h : Clear ["new"] [] t) : Refuses d (construction d) t :=
  refuses_choice_cons (refuses_node (refuses_seq_cons (h.keyword (by decide))))
    (refuses_choice_cons (refuses_node (refuses_seq_cons (h.keyword (by decide))))
      refuses_choice_nil)

theorem refuses_template (h : Clear [] ['\x60'] t) : Refuses d template t :=
  refuses_node (refuses_seq_cons (h.literal (by decide)))

theorem refuses_privateName (h : Clear [] ['#'] t) : Refuses d privateName t := by
  refine h.findsAt ?_ (by simp : ∀ c ∈ ['#'], c ∈ ['#'])
  refine ⟨by decide, fun t ht => ?_⟩
  split
  · simp at ht
  · rfl

theorem idle_when {b : Bool} (h : Idle d g t) : Idle d (Phrase.when b g) t := by
  cases b with
  | true => exact h
  | false => exact idle_seq_nil

theorem refuses_seq_when {b : Bool} (h : Refuses d g t) (hs : Refuses d (.seq gs) t) :
    Refuses d (.seq (Phrase.when b (optional g) :: gs)) t :=
  refuses_seq_idle (idle_when (idle_optional h)) hs

/-- An arrow function starts with a name, which may be followed, or with its parameters. -/
theorem refuses_arrow (h : Clear ["async"] ['<', '('] t)
    (hn : Refuses d (.seq [name, .followed (mark "=>")]) t) (annotated : Bool) :
    Refuses d (arrow d annotated) t := by
  refine refuses_node (refuses_seq_optional (refuses_seq_cons (h.keyword (by decide)))
    (refuses_seq_cons (refuses_choice_cons hn (refuses_choice_cons ?_ refuses_choice_nil))))
  exact refuses_seq_when (refuses_typeParameters (h.mono (by decide) (by simp)))
    (refuses_seq_cons (refuses_parameters (h.mono (by decide) (by simp))))

/-! What goes on behind an operand -/

/-- The marks that go on behind an operand. -/
def operators : List Char :=
  ['(', '<', '?', '.', '[', '\x60', '+', '-', '=', '*', '>', '&', '|', '/', '%', '^', '!']

/-- The words that go on behind an operand. -/
def operatorWords : List String := ["instanceof", "in", "as", "satisfies"]

variable (h : Clear operatorWords operators t)
include h

theorem refuses_typeArguments? (hs : Refuses d (.seq gs) t) :
    Refuses d (.seq (postfixed.typeArguments? d :: gs)) t :=
  refuses_seq_when (refuses_typeArguments (h.mono (by decide) (by simp [operators]))) hs

theorem refuses_arguments : Refuses d (.rule .arguments) t :=
  refuses_rule (refuses_node (refuses_seq_cons (h.literal (by decide))))

theorem refuses_member : Refuses d member.2.2 t :=
  refuses_seq_cons (refuses_choice_cons (h.sign (by decide))
    (refuses_choice_cons (h.sign (by decide)) refuses_choice_nil))

theorem refuses_subscript : Refuses d subscript.2.2 t :=
  refuses_seq_optional (h.sign (by decide)) (refuses_seq_cons (h.literal (by decide)))

theorem refuses_assignment : Refuses d assignment t := by
  refine refuses_choice_of_forall ?_
  simp only [List.map_cons, List.map_nil, List.forall_mem_cons, List.not_mem_nil, false_imp_iff,
    implies_true, and_true]
  refine ⟨h.sign (by decide), ?_⟩
  refine ⟨?_, ?_, ?_, ?_, ?_, ?_, ?_, ?_, ?_, ?_, ?_, ?_, ?_, ?_, ?_⟩ <;>
    exact h.literal (by decide)

theorem refuses_nonNull : Refuses d (nonNull d).2.2 t :=
  refuses_seq_idle idle_check (refuses_seq_cons (h.sign (by decide)))

theorem refuses_binaryOperator : Refuses d binaryOperator t := by
  refine refuses_choice_of_forall ?_
  simp only [List.forall_mem_cons, List.not_mem_nil, false_imp_iff, implies_true, and_true]
  refine ⟨?_, ?_, ?_, ?_, ?_, ?_, ?_, ?_, ?_, ?_, ?_, ?_, ?_, ?_, ?_, ?_, ?_, ?_, ?_, ?_, ?_, ?_,
    ?_, h.keywords (by decide)⟩
  all_goals first | exact h.sign (by decide) | exact h.literal (by decide)

theorem refuses_questionMark : Refuses d questionMark t := by
  refine h.findsAt ?_ (by simp [operators] : ∀ c ∈ ['?'], c ∈ operators)
  refine ⟨by decide, fun t ht => ?_⟩
  split <;> simp_all

def postfixedSteps (d : Dialect) (annotated : Bool) : List ((Kind → Bool) × Kind × Phrase) :=
  [(anyKind, .call, .seq [postfixed.typeArguments? d, .rule .arguments]), member, subscript,
    (anyKind, .call, .seq [sign "?." "0123456789", postfixed.typeArguments? d, .rule .arguments]),
    (anyKind, .other "tagged template", .seq [postfixed.typeArguments? d, .rule .template]),
    (anyKind, .other "update", .seq [goesOn d, .choice [mark "++", mark "--"]]),
    (isAssignable, .other "assignment", .seq [assignment, .rule (.expression annotated)])] ++
    if d.typed then
      [nonNull d, (anyKind, .other "instantiation",
        .seq [typeArguments, .check endsTypeArguments])]
    else []

omit h in
theorem postfixed_eq (d : Dialect) (annotated : Bool) :
    postfixed d annotated = .chain (primary d annotated) (postfixedSteps d annotated) := rfl

theorem refuses_postfixedSteps (annotated : Bool) :
    ∀ s ∈ postfixedSteps .typeScript annotated, Refuses .typeScript s.2.2 t := by
  have htemplate : Refuses .typeScript (.rule .template) t :=
    refuses_rule (refuses_template (h.mono (by decide) (by simp [operators])))
  have hupdate : Refuses .typeScript (.choice [mark "++", mark "--"]) t :=
    refuses_choice_cons (h.literal (by decide))
      (refuses_choice_cons (h.literal (by decide)) refuses_choice_nil)
  have hinstance : Refuses .typeScript typeArguments t :=
    refuses_typeArguments (h.mono (by decide) (by simp [operators]))
  simp only [postfixedSteps, Dialect.typed, if_true, List.cons_append, List.nil_append,
    List.forall_mem_cons, List.not_mem_nil, false_imp_iff, implies_true, and_true]
  exact ⟨refuses_typeArguments? h (refuses_seq_cons (refuses_arguments h)), refuses_member h,
    refuses_subscript h, refuses_seq_cons (h.sign (by decide)),
    refuses_typeArguments? h (refuses_seq_cons htemplate),
    refuses_seq_idle idle_check (refuses_seq_cons hupdate),
    refuses_seq_cons (refuses_assignment h), refuses_nonNull h, refuses_seq_cons hinstance⟩

def expressionSteps (d : Dialect) (annotated : Bool) : List ((Kind → Bool) × Kind × Phrase) :=
  [(anyKind, .other "binary",
      .seq [expressionRule.operation annotated, .many (expressionRule.operation annotated)]),
    (anyKind, .other "conditional", .seq [questionMark, .rule (.expression true), mark ":",
      .rule (.expression annotated)])] ++
    if d.typed then [
      (anyKind, .other "conditional", .seq [questionMark, .followed (mark "("),
        .rule (.expression false), mark ":", .rule (.expression annotated)]),
      (anyKind, .other "cast", .seq [goesOn d, .choice [
        .seq [keyword "as", .choice [.seq [keyword "const", .absent (sign "." "")], type]],
        .seq [keyword "satisfies", type]]])]
    else []

omit h in
theorem expressionRule_eq (d : Dialect) (annotated : Bool) :
    expressionRule d annotated =
      .chain (.rule (.operand annotated)) (expressionSteps d annotated) := rfl

theorem refuses_expressionSteps (annotated : Bool) :
    ∀ s ∈ expressionSteps .typeScript annotated, Refuses .typeScript s.2.2 t := by
  have hcast : Refuses .typeScript (.choice [
      .seq [keyword "as", .choice [.seq [keyword "const", .absent (sign "." "")], type]],
      .seq [keyword "satisfies", type]]) t :=
    refuses_choice_cons (refuses_seq_cons (h.keyword (by decide)))
      (refuses_choice_cons (refuses_seq_cons (h.keyword (by decide))) refuses_choice_nil)
  simp only [expressionSteps, Dialect.typed, if_true, List.cons_append, List.nil_append,
    List.forall_mem_cons, List.not_mem_nil, false_imp_iff, implies_true, and_true]
  exact ⟨refuses_seq_cons (refuses_seq_cons (refuses_binaryOperator h)),
    refuses_seq_cons (refuses_questionMark h), refuses_seq_cons (refuses_questionMark h),
    refuses_seq_idle idle_check (refuses_seq_cons hcast)⟩

omit h

/-! The end of a text -/

section End

variable {w : Text} (hw : Blank w)
include hw

theorem refuses_primary_blank (annotated : Bool) :
    Refuses .typeScript (primary .typeScript annotated) w := by
  have hc : ∀ words marks, Clear words marks w := fun _ _ => clear_blank hw
  have hb : Bare w := (hc [] []).bare
  have hn : nextWord w = none := nextWord_blank hw
  refine refuses_choice_of_forall ?_
  simp only [List.forall_mem_cons, List.not_mem_nil, false_imp_iff, implies_true, and_true]
  refine ⟨refuses_arrow (hc _ _) (refuses_seq_cons (refuses_word hb hn)) annotated,
    refuses_functionExpression (hc _ _), refuses_wordExcept hb hn _, ?_, ?_,
    refuses_template (hc _ _), ?_, refuses_parenthesized (hc _ _), refuses_object (hc _ _),
    refuses_array (hc _ _), refuses_class (hc _ _) true, refuses_construction (hc _ _), ?_, ?_, ?_,
    refuses_choice_nil⟩
  · exact (hc [] _).findsAt findsAt_string fun c hc => hc
  · exact (hc [] _).findsAt findsAt_number fun c hc => hc
  · exact (hc _ []).keywords fun k hk => hk
  · exact refuses_node (refuses_seq_cons ((hc ["import"] []).keyword (by decide)))
  · exact refuses_seq_cons ((hc ["import"] []).keyword (by decide))
  · exact (hc [] _).findsAt findsAt_regex fun c hc => hc

theorem refuses_expressions_blank : Refuses .typeScript (.rule .expressions) w := by
  have hc : ∀ words marks, Clear words marks w := fun _ _ => clear_blank hw
  have hoperand : Refuses .typeScript (operand .typeScript true) w := by
    refine refuses_choice_of_forall ?_
    simp only [List.forall_mem_cons, List.not_mem_nil, false_imp_iff, implies_true, and_true]
    refine ⟨refuses_unary (hc _ _) true, refuses_yielded (hc _ _) true,
      refuses_rule (refuses_chain (refuses_primary_blank hw true)),
      refuses_seq_cons (refuses_privateName (hc _ _)), ?_, ?_⟩
    · exact refuses_node (refuses_seq_cons ((hc ["using"] []).keyword (by decide)))
    · exact refuses_node (refuses_seq_cons (refuses_typeArguments (hc _ _)))
  exact refuses_rule (refuses_seq_cons (refuses_rule (refuses_chain (refuses_rule hoperand))))

theorem refuses_controlFlow_blank : Refuses d (controlFlow d) w := by
  have hc : ∀ words marks, Clear words marks w := fun _ _ => clear_blank hw
  refine refuses_choice_of_forall ?_
  simp only [List.forall_mem_cons, List.not_mem_nil, false_imp_iff, implies_true, and_true]
  refine ⟨?_, ?_, ?_, ?_, ?_, ?_, ?_, ?_, ?_, ?_, ?_⟩
  all_goals refine refuses_node (refuses_seq_cons ?_)
  all_goals first
    | exact (hc [_] []).keyword List.mem_cons_self
    | exact (hc _ []).keywords fun k hk => hk

theorem refuses_declaration_blank : Refuses .typeScript (.rule .declaration) w := by
  have hc : ∀ words marks, Clear words marks w := fun _ _ => clear_blank hw
  have htyped : Refuses .typeScript (typedDeclaration .typeScript) w :=
    refuses_typedDeclaration (hc _ _) (refuses_enumeration (hc _ _)) (refuses_typeAlias (hc _ _))
  exact refuses_rule (refuses_choice_cons (refuses_functionDeclaration (hc _ _))
    (refuses_choice_cons (refuses_class (hc _ _) false) (refuses_choice_cons htyped
      (refuses_choice_cons (refuses_variableDeclaration (hc _ _)) refuses_choice_nil))))

/-- No statement stands at the end of a text. -/
theorem refuses_statement_blank : Refuses .typeScript (.rule .statement) w := by
  have hc : ∀ words marks, Clear words marks w := fun _ _ => clear_blank hw
  have hb : Bare w := (hc [] []).bare
  have hblock : Refuses .typeScript (.rule .block) w :=
    refuses_rule (refuses_node (refuses_seq_cons ((hc [] ['\x7b']).literal (by decide))))
  refine refuses_rule (refuses_choice_of_forall ?_)
  simp only [List.forall_mem_cons, List.not_mem_nil, false_imp_iff, implies_true, and_true]
  refine ⟨refuses_importStatement (hc _ _), refuses_exportStatement (hc _ _),
    refuses_declaration_blank hw, hblock, refuses_controlFlow_blank hw,
    (hc [] [';']).literal (by decide), refuses_seq_idle idle_absent (refuses_seq_cons ?_)⟩
  exact refuses_choice_cons (refuses_node (refuses_seq_cons (refuses_word hb (nextWord_blank hw))))
    (refuses_choice_cons (refuses_node (refuses_seq_cons
      (refuses_seq_cons (refuses_expressions_blank hw)))) refuses_choice_nil)

end End

end ImportAlias.Grammar
