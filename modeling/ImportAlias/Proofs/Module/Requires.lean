import ImportAlias.Proofs.Module.Imports

/-! Declarations with a call of `require` as the grammar reads them. The argument of the call is a
literal that an alias may replace. -/
namespace ImportAlias.Grammar

open Phrase Header

variable {k : Nat} {t u w r : Text} {a : List Tree}

/-! Expressions -/

/-- An operand is an expression where nothing goes on behind it. -/
theorem Gives.expression (h : Gives .typeScript k (postfixed .typeScript true) t a u)
    (hunary : Refuses .typeScript (unary true) t)
    (hyield : Refuses .typeScript (yielded .typeScript true) t)
    (hu : Clear operatorWords operators u) :
    Gives .typeScript (k + 10) (.rule (.expression true)) t a u := by
  have hpostfixed : Gives .typeScript (k + 1) (.rule (.postfixed true)) t a u := Gives.rule h
  have hoperand : Gives .typeScript (k + 2) (operand .typeScript true) t a u :=
    Refuses.choice hunary (Refuses.choice hyield hpostfixed.choice)
  have hrule : Gives .typeScript (k + 3) (.rule (.operand true)) t a u := Gives.rule hoperand
  have hexpression : Gives .typeScript (k + 4) (expressionRule .typeScript true) t a u := by
    rw [expressionRule_eq]
    exact hrule.chain (refuses_expressionSteps hu true)
  exact Gives.mono (Gives.rule hexpression) (by omega)

/-- A string as an argument. -/
theorem gives_argument (hw : Blank w) (s : PlainSource) (hr : Clear operatorWords operators r) :
    Gives .typeScript 20 (.rule (.expression true)) (w ++ sourceText s r)
      (tokenTrees .string w (quotedText s.mark s.specifier)) r := by
  have hclear : ∀ words marks, (marks.contains '"' || marks.contains '\x27') = false →
      Clear words marks (w ++ sourceText s r) := by
    intro words marks hm
    refine clear_mark hw s.isMark ?_ _
    simp only [Bool.or_eq_false_iff, List.contains_eq_mem, decide_eq_false_iff_not] at hm
    rcases s.isQuote with hq | hq <;> rw [hq]
    · exact hm.1
    · exact hm.2
  have hbare : Bare (w ++ sourceText s r) := (hclear [] [] rfl).bare
  have hword : nextWord (w ++ sourceText s r) = none := nextWord_mark hw s.isMark _
  have harrow : Refuses .typeScript (arrow .typeScript true) (w ++ sourceText s r) :=
    refuses_arrow (hclear _ _ rfl) (refuses_seq_cons (refuses_word hbare hword)) true
  have hfunction : Refuses .typeScript (functionExpression .typeScript) (w ++ sourceText s r) :=
    refuses_functionExpression (hclear _ _ rfl)
  have hidentifier : Refuses .typeScript identifier (w ++ sourceText s r) :=
    refuses_wordExcept hbare hword _
  have hprimary : Gives .typeScript 5 (primary .typeScript true) (w ++ sourceText s r)
      (tokenTrees .string w (quotedText s.mark s.specifier)) r :=
    Refuses.choice harrow (Refuses.choice hfunction (Refuses.choice hidentifier
      (gives_quoted hw s r).choice))
  have hpostfixed := hprimary.chain (refuses_postfixedSteps hr true)
  rw [← postfixed_eq] at hpostfixed
  exact (hpostfixed.expression (refuses_unary (hclear _ _ rfl) true)
    (refuses_yielded (hclear _ _ rfl) true) hr).mono (by omega)

def argumentText (call : Call) (s : PlainSource) (r : Text) : Text :=
  call.afterWord.text ++ '(' :: (call.beforeSource.text ++ sourceText s (closeText call r))

def argumentTrees (v w x : Text) (s : PlainSource) : List Tree :=
  wrap .arguments (tokenTrees .mark v ['('] ++
    (tokenTrees .string w (quotedText s.mark s.specifier) ++ tokenTrees .mark x [')']))

theorem gives_mark {c : Char} {s : String} (hs : s.toList = [c]) (hw : Blank w) (hc : IsMark c)
    (r : Text) :
    Gives .typeScript 4 (mark s) (w ++ c :: r) (tokenTrees .mark w [c]) r := by
  have hscan := literal_append s r
  rw [hs] at hscan
  exact gives_token hw (hc.starts []) hscan

theorem gives_arguments (call : Call) (s : PlainSource) (r : Text) :
    Gives .typeScript 40 (.rule .arguments) (argumentText call s r)
      (argumentTrees call.afterWord.text call.beforeSource.text call.afterSource.text s) r := by
  have hclose : Clear operatorWords operators (closeText call r) :=
    clear_mark call.afterSource.isBlank (by decide) (by decide) r
  have hspread : Refuses .typeScript arguments.spread
      (call.beforeSource.text ++ sourceText s (closeText call r)) := by
    have hdots : Clear [] ['.'] (call.beforeSource.text ++ sourceText s (closeText call r)) := by
      refine clear_mark call.beforeSource.isBlank s.isMark ?_ _
      rcases s.isQuote with hq | hq <;> rw [hq] <;> decide
    exact refuses_node (refuses_seq_cons (hdots.literal (by decide)))
  have hargument : Gives .typeScript 21 (.choice [arguments.spread, expression]) _ _ _ :=
    Refuses.choice hspread (gives_argument call.beforeSource.isBlank s hclose).choice
  have hcomma : Refuses .typeScript
      (.seq [mark ",", optional (.choice [arguments.spread, expression])]) (closeText call r) :=
    refuses_seq_cons (refuses_mark call.afterSource.isBlank (by decide) (by decide) r)
  have helements : Gives .typeScript 30 (elements (.choice [arguments.spread, expression])) _ _ _ :=
    (Gives.seq (Gives.choice hargument) (hcomma.repeats.many.seq gives_seq_nil)).mono (by decide)
  have hopen : Gives .typeScript 4 (mark "(") _ _ _ :=
    gives_mark (c := '(') rfl call.afterWord.isBlank (by decide)
      (call.beforeSource.text ++ sourceText s (closeText call r))
  have hend : Gives .typeScript 4 (mark ")") _ _ _ :=
    gives_mark (c := ')') rfl call.afterSource.isBlank (by decide) r
  have hnode : Gives .typeScript 39 arguments _ _ r :=
    (hopen.seq (helements.seq (hend.seq gives_seq_nil))).node.mono (by decide)
  have hrule : Gives .typeScript 40 (.rule .arguments) _ _ r := Gives.rule hnode
  simpa [argumentTrees, argumentText, closeText] using hrule

theorem isMark_paren : IsMark '(' := by decide

theorem apart_arguments (call : Call) (s : PlainSource) (r : Text) :
    Apart (argumentText call s r) :=
  (isMark_paren.apart _).blank call.afterWord.isBlank

/-- `require` is an identifier that is called. -/
theorem gives_require (hw : Blank w) (call : Call) (s : PlainSource)
    (hr : Clear operatorWords operators r) :
    Gives .typeScript 60 (.rule (.expression true))
      (w ++ ("require".toList ++ argumentText call s r))
      (wrap .call (tokenTrees .identifier w "require".toList ++
        argumentTrees call.afterWord.text call.beforeSource.text call.afterSource.text s)) r := by
  have hword : IsWord "require".toList := by decide
  have hapart := apart_arguments call s r
  have hclear : ∀ words marks, "require" ∉ words → marks.all (fun c => !isWordStart c) = true →
      Clear words marks (w ++ ("require".toList ++ argumentText call s r)) :=
    fun words marks hk hm => clear_word hw hword hapart hk hm
  have hname : Refuses .typeScript (.seq [name, .followed (mark "=>")])
      (w ++ ("require".toList ++ argumentText call s r)) := by
    have hsign : Refuses .typeScript (mark "=>") (argumentText call s r) :=
      refuses_mark call.afterWord.isBlank isMark_paren (by decide) _
    exact (settles_word hw hword hapart).refuses_seq (refuses_seq_cons (refuses_followed hsign))
  have harrow : Refuses .typeScript (arrow .typeScript true) _ :=
    refuses_arrow (hclear _ _ (by decide) rfl) hname true
  have hfunction : Refuses .typeScript (functionExpression .typeScript) _ :=
    refuses_functionExpression (hclear _ _ (by decide) rfl)
  have hidentifier :
      Gives .typeScript 4 identifier _ (tokenTrees .identifier w "require".toList) _ :=
    gives_token hw hword.starts (wordExcept_append hword (by decide) hapart)
  have hprimary : Gives .typeScript 5 (primary .typeScript true) _ _ _ :=
    Refuses.choice harrow (Refuses.choice hfunction hidentifier.choice)
  have hnone : Refuses .typeScript typeArguments (argumentText call s r) :=
    refuses_typeArguments (clear_mark call.afterWord.isBlank isMark_paren (by decide) _)
  have hstep : Gives .typeScript 42 (.seq [postfixed.typeArguments? .typeScript, .rule .arguments])
      _ _ r :=
    (hnone.optional.seq ((gives_arguments call s r).seq gives_seq_nil)).mono (by decide)
  have hpostfixed : Gives .typeScript 44 (postfixed .typeScript true) _ _ r :=
    (hprimary.chain_step (by simp [tokenTrees, anyKind]) hstep
      (refuses_postfixedSteps hr true)).mono (by decide)
  have hexpression := hpostfixed.expression (refuses_unary (hclear _ _ (by decide) rfl) true)
    (refuses_yielded (hclear _ _ (by decide) rfl) true) hr
  simpa using hexpression.mono (by decide)

theorem isSpaces_spaces (w : Text) : IsSpaces (spaces w) := by
  intro t ht
  unfold spaces at ht
  split at ht
  · simp at ht
  · exact ⟨w, by simpa using ht⟩

theorem argumentTrees_eq (v w x : Text) (s : PlainSource) : argumentTrees v w x s =
    spaces v ++ [.node .arguments (.leaf .mark ['('] ::
      (tokenTrees .string w (quotedText s.mark s.specifier) ++ tokenTrees .mark x [')']))] := by
  have h := wrap_spaces (isSpaces_spaces v) .arguments .mark ['('] rfl
    (tokenTrees .string w (quotedText s.mark s.specifier) ++ tokenTrees .mark x [')'])
  rw [← h]
  simp [argumentTrees, tokenTrees]

/-- The node of the arguments, with the literal alone between its marks. -/
theorem concreteOf_argumentTrees (front v w x : Text) (id : Nat) (s : PlainSource) :
    ∃ list opening string closing : Concrete.Label,
      Tree.concreteOf (Text.byteSize front) id (argumentTrees v w x s) =
        [.node list [.node opening [], .node string [], .node closing []]] ∧
      (list.kind = "arguments" ∧ list.named = true ∧ list.field = some "arguments") ∧
      opening.named = false ∧ closing.named = false ∧
      string.kind = "string" ∧ string.named = true ∧
      string.span = ⟨Text.byteSize (front ++ (v ++ '(' :: w)), Text.byteSize
        (front ++ (v ++ '(' :: w)) + Text.byteSize (quotedText s.mark s.specifier)⟩ := by
  rw [argumentTrees_eq, Tree.concreteOf_append, (isSpaces_spaces v).concreteOf]
  simp only [Tree.concreteOf, Tree.concrete, tokenTrees, Tree.concreteOf_append,
    (isSpaces_spaces _).concreteOf, textOf_spaces, Tree.textOf_append]
  refine ⟨_, _, _, _, rfl, ⟨rfl, rfl, rfl⟩, rfl, rfl, rfl, rfl, ?_⟩
  simp [Tree.byteSize, Tree.text, Text.byteSize, Nat.add_assoc]

section

open Concrete (Label mentions? mentionsOf? requireLiteral? formKinds)

/-- The literal of a call of `require` is the first of its arguments. -/
theorem requireLiteral?_call {source : Text} {callee list opening string closing : Label}
    {l : Literal} (hcallee : callee.kind = "identifier" ∧ callee.field = some "function" ∧
      callee.text source = "require".toList)
    (hlist : list.kind = "arguments" ∧ list.named = true ∧ list.field = some "arguments")
    (hopening : opening.named = false)
    (hstring : string.kind = "string" ∧ string.named = true ∧ string.literal? source = some l) :
    requireLiteral? source [.node callee [],
      .node list [.node opening [], .node string [], .node closing []]] = some l := by
  obtain ⟨hkind, hfield, htext⟩ := hcallee
  obtain ⟨hlist, hnamed, hfield'⟩ := hlist
  refine Concrete.requireLiteral?_eq_some.mpr ⟨.node callee [],
    .node list [.node opening [], .node string [], .node closing []], .node string [],
    ?_, ?_, ?_, hkind, htext, hnamed, hlist, hstring.1, hstring.2.2⟩
  · simp [Concrete.inField?, hfield]
  · simp [Concrete.inField?, hfield, hfield']
  · simp [hopening, hstring.2.1]

/-- There are no mentions below it. -/
theorem mentionsOf?_call (source : Text) {callee list opening string closing : Label}
    (hcallee : callee.kind = "identifier") (hlist : list.kind = "arguments")
    (hopening : opening.named = false) (hclosing : closing.named = false)
    (hstring : string.kind = "string") :
    mentionsOf? source [.node callee [],
      .node list [.node opening [], .node string [], .node closing []]] = some [] := by
  have hcallee' : mentions? source (.node callee []) = some [] :=
    Concrete.mentions?_leaf source callee (by simp [hcallee])
  have hstring' : mentions? source (.node string []) = some [] :=
    Concrete.mentions?_leaf source string (by simp [hstring])
  have hbelow : mentionsOf? source [.node opening [], .node string [], .node closing []] =
      some [] := by
    simp [mentionsOf?, hopening, hclosing, hstring']
  have hlist' : mentions? source
      (.node list [.node opening [], .node string [], .node closing []]) = some [] := by
    rw [mentions?, hbelow, hlist]
    rfl
  simp [mentionsOf?, hcallee', hlist']

end

theorem textOf_argumentTrees (v w x : Text) (s : PlainSource) :
    Tree.textOf (argumentTrees v w x s) =
      v ++ '(' :: (w ++ (quotedText s.mark s.specifier ++ (x ++ [')']))) := by
  simp [argumentTrees_eq, tokenTrees, Tree.textOf, Tree.text, textOf_spaces]

/-- The node of a call of `require`, with what is called in front of the arguments. -/
theorem concreteOf_require (front v x y : Text) (id : Nat) (s : PlainSource) :
    ∃ (span : Span) (callee list opening string closing : Concrete.Label),
      Tree.concreteOf (Text.byteSize front) id
          [.node .call (.leaf .identifier "require".toList :: argumentTrees v x y s)] =
        [.node ⟨id, Kind.call.ofNode, true, Kind.call.nodeField?, span⟩ [.node callee [],
          .node list [.node opening [], .node string [], .node closing []]]] ∧
      (callee.kind = "identifier" ∧ callee.field = some "function" ∧ callee.span =
        ⟨Text.byteSize front, Text.byteSize front + Text.byteSize "require".toList⟩) ∧
      (list.kind = "arguments" ∧ list.named = true ∧ list.field = some "arguments") ∧
      opening.named = false ∧ closing.named = false ∧
      string.kind = "string" ∧ string.named = true ∧
      string.span = ⟨Text.byteSize (front ++ ("require".toList ++ (v ++ '(' :: x))),
        Text.byteSize (front ++ ("require".toList ++ (v ++ '(' :: x))) +
          Text.byteSize (quotedText s.mark s.specifier)⟩ := by
  obtain ⟨list, opening, string, closing, hc, hlabels⟩ :=
    concreteOf_argumentTrees (front ++ "require".toList) v x y (id + 1 + 1) s
  have hsize : Text.byteSize (front ++ "require".toList) =
      Text.byteSize front + (Tree.leaf .identifier "require".toList).byteSize :=
    Text.byteSize_append front _
  rw [hsize] at hc
  rw [List.append_assoc front] at hlabels
  simp only [Tree.concreteOf, Tree.concrete, Tree.count, hc]
  exact ⟨_, _, list, opening, string, closing, rfl, ⟨rfl, rfl, rfl⟩, hlabels⟩

theorem shows_require (w v x y : Text) (s : PlainSource) :
    Shows (.literal .required (w ++ ("require".toList ++ (v ++ '(' :: x))) s.mark s.specifier)
      (wrap .call (tokenTrees .identifier w "require".toList ++ argumentTrees v x y s)) := by
  have hwrap := wrap_spaces (isSpaces_spaces w) .call .identifier "require".toList rfl
    (argumentTrees v x y s)
  intro front back id
  rw [tokenTrees, List.append_assoc, List.singleton_append, hwrap,
    (silent_spaces w).mentionsAt_append, textOf_spaces, ← Text.byteSize_append]
  obtain ⟨span, callee, list, opening, string, closing, hc, ⟨hidentifier, hfunction, hcallee⟩,
    hlist, hopening, hclosing, hkind, hnamed, hstring⟩ :=
    concreteOf_require (front ++ w) v x y (id + Tree.countOf (spaces w)) s
  have hsource : front ++ (Tree.textOf (spaces w ++
      [.node .call (.leaf .identifier "require".toList :: argumentTrees v x y s)]) ++ back) =
      front ++ w ++ ("require".toList ++ (v ++ '(' :: (x ++ (quotedText s.mark s.specifier ++
        (y ++ ')' :: back))))) := by
    simp [Tree.textOf, Tree.text, textOf_spaces, textOf_argumentTrees]
  have htext : callee.text (front ++ w ++ ("require".toList ++ (v ++ '(' :: (x ++
      (quotedText s.mark s.specifier ++ (y ++ ')' :: back)))))) = "require".toList := by
    rw [Concrete.Label.text, hcallee, Text.slice?_append]
    rfl
  have hliteral := literal?_of_span (y ++ ')' :: back) hstring
  rw [hsource]
  refine mentionsAt_node hc (by decide)
    (mentionsOf?_call _ hidentifier hlist.1 hopening hclosing hkind)
    (Concrete.own?_call (requireLiteral?_call ⟨hidentifier, hfunction, htext⟩ hlist hopening
      ⟨hkind, hnamed, ?_⟩))
  simpa [quotedText, Nat.add_assoc] using hliteral

/-! Declarations -/

theorem reads_require (hw : Blank w) (call : Call) (s : PlainSource)
    (hr : Clear operatorWords operators r) :
    Reads 60 (.rule (.expression true)) (w ++ ("require".toList ++ argumentText call s r))
      (.literal .required
        (w ++ ("require".toList ++ (call.afterWord.text ++ '(' :: call.beforeSource.text)))
        s.mark s.specifier) r :=
  ⟨_, gives_require hw call s hr, shows_require _ _ _ _ s⟩

/-- The end of a statement, where nothing goes on. -/
theorem clear_semicolon (g : Padding) (r : Text) {words : List String} {marks : List Char}
    (h : ';' ∉ marks) : Clear words marks (g.text ++ ';' :: r) :=
  clear_mark g.isBlank (by decide) h r

theorem reads_initializer (call : Call) (s : PlainSource) (before : Padding) (r : Text) :
    Reads 70 initializer (call.lead ++ sourceText s (closeText call (before.text ++ ';' :: r)))
      (.literal .required call.lead s.mark s.specifier) (before.text ++ ';' :: r) := by
  have hbrackets : Clear [] ['(', '['] (before.text ++ ';' :: r) :=
    clear_semicolon before r (by simp)
  have hnone : Refuses .typeScript (.choice [mark "(", mark "["]) (before.text ++ ';' :: r) :=
    refuses_choice_cons (hbrackets.literal (by decide))
      (refuses_choice_cons (hbrackets.literal (by decide)) refuses_choice_nil)
  have hvalue := (reads_require call.afterSign.isBlank call s
    (clear_semicolon before r (by decide))).seq_nothing (reads_absent hnone).single
  have hsign := reads_assign call.beforeSign.isBlank (head?_afterSign call.afterSign
    (argumentText call s (before.text ++ ';' :: r)))
  have hseq := hsign.seq (w := call.beforeSign.text ++ ['=']) (by simp) hvalue.single
  have hall : Reads 70 initializer _ _ _ := hseq.mono (by decide)
  simpa [Found.after, Call.lead, argumentText] using hall

theorem reads_binding (hw : Blank w) (b : Bound) (hr : Apart r) :
    Reads 70 binding (w ++ (b.text ++ r)) .nothing r := by
  cases b with
  | name n =>
    have hclear : ∀ marks, marks.all (fun c => !isWordStart c) = true →
        Clear [] marks (w ++ (n.text ++ r)) := fun marks hm => clear_name hw n hr (by simp) hm
    exact (((reads_name hw n hr).final.skip (refuses_arrayPattern (hclear _ rfl))).skip
      (refuses_objectPattern (hclear _ rfl))).mono (by omega)
  | pattern names oneLine =>
    have hpattern : Reads 70 binding _ .nothing r :=
      (reads_objectPattern hw names r).choice.mono (by omega)
    simpa [Bound.text] using hpattern

theorem reads_declarator (hw : Blank w) (b : Bound) (call : Call) (s : PlainSource)
    (before : Padding) (r : Text) : Reads 80 (declarator .typeScript)
      (w ++ (b.text ++ (call.lead ++ sourceText s (closeText call (before.text ++ ';' :: r)))))
      (.literal .required (w ++ (b.text ++ call.lead)) s.mark s.specifier)
        (before.text ++ ';' :: r) := by
  have hsign : Clear [] ['!', ':']
      (call.lead ++ sourceText s (closeText call (before.text ++ ';' :: r))) := by
    rw [call_lead_append]
    exact clear_mark call.beforeSign.isBlank (by decide) (by simp) _
  have hnone : Refuses .typeScript (.seq [optional (mark "!"), typing])
      (call.lead ++ sourceText s (closeText call (before.text ++ ';' :: r))) :=
    refuses_seq_optional (hsign.literal (by decide))
      (refuses_seq_cons (refuses_node (refuses_seq_cons (hsign.literal (by decide)))))
  have hvalue := (reads_optional hnone).seq (w := []) rfl
    (reads_initializer call s before r).optional.single
  have hseq := (reads_binding hw b (apart_call call _)).seq (w := w ++ b.text) (by simp) hvalue
  have hnode : Reads 80 (declarator .typeScript) _ _ _ :=
    (hseq.named (by simp [Found.after])).mono (by omega)
  simpa [Found.after] using hnode

def declarationWords : List String := ["const", "let", "var"]

theorem isWord_declarationWord {keyword : String} (h : keyword ∈ declarationWords) :
    IsWord keyword.toList := by
  simp only [declarationWords, List.mem_cons, List.not_mem_nil, or_false] at h
  rcases h with rfl | rfl | rfl <;> decide

section Declared

variable {keyword : String} (hk : keyword ∈ declarationWords) (hw : Blank w) (word : Separator)
include hk hw

theorem clear_declaration {words : List String} {marks : List Char}
    (hwords : ∀ k ∈ declarationWords, k ∉ words)
    (hm : marks.all (fun c => !isWordStart c) = true) (r : Text) :
    Clear words marks (w ++ (keyword.toList ++ (word.text ++ r))) :=
  clear_word hw (isWord_declarationWord hk) (word.apart r) (by simpa using hwords keyword hk) hm

/-- `const` may also start an enumeration. -/
theorem refuses_enumeration_declared (hr : Clear ["enum"] [] (word.text ++ r)) :
    Refuses .typeScript enumeration (w ++ (keyword.toList ++ (word.text ++ r))) := by
  have henum : Clear ["enum"] [] (w ++ (keyword.toList ++ (word.text ++ r))) :=
    clear_declaration hk hw word (by decide) rfl r
  by_cases hconst : keyword = "const"
  · subst hconst
    exact refuses_node ((settles_keyword hw (by decide) (word.apart r)).refuses_optional
      (refuses_seq_cons (hr.keyword (by decide))) (refuses_seq_cons (henum.keyword (by decide))))
  · have hclear : Clear ["const", "enum"] [] (w ++ (keyword.toList ++ (word.text ++ r))) := by
      refine clear_word hw (isWord_declarationWord hk) (word.apart r) ?_ rfl
      have hne : keyword ≠ "enum" := by
        rintro rfl
        exact absurd hk (by decide)
      simp [hconst, hne]
    exact refuses_enumeration hclear

theorem reads_variableDeclaration (b : Bound) (call : Call) (s : PlainSource) (before : Padding)
    (r : Text) : Reads 100 (variableDeclaration .typeScript)
      (w ++ (keyword.toList ++ (word.text ++ (b.text ++ (call.lead ++
        sourceText s (closeText call (before.text ++ ';' :: r)))))))
      (.literal .required (w ++ (keyword.toList ++ (word.text ++ (b.text ++ call.lead))))
        s.mark s.specifier) r := by
  have hcomma : Refuses .typeScript (.seq [mark ",", declarator .typeScript])
      (before.text ++ ';' :: r) :=
    refuses_seq_cons (refuses_mark before.isBlank (by decide) (by decide) r)
  have hdeclarators : Reads 90 (separated (declarator .typeScript)) _ _ _ :=
    ((reads_declarator word.isBlank b call s before r).seq_nothing
      (reads_many hcomma).single).mono (by omega)
  have hword : Reads 4 (keywords ["const", "let", "var"]) _ .nothing _ :=
    reads_keywords hw (isWord_declarationWord hk) hk
      (word.apart
        (b.text ++ (call.lead ++ sourceText s (closeText call (before.text ++ ';' :: r)))))
  have hseq := hword.seq (w := w ++ keyword.toList) (by simp)
    (hdeclarators.seq_nothing (reads_semicolon before r).single)
  have hnode : Reads 100 (variableDeclaration .typeScript) _ _ r :=
    (hseq.named (by simp [Found.after])).mono (by omega)
  simpa [Found.after] using hnode

theorem refuses_typedDeclaration_declared (hr : Clear ["enum"] [] (word.text ++ r)) :
    Refuses .typeScript (typedDeclaration .typeScript)
      (w ++ (keyword.toList ++ (word.text ++ r))) :=
  refuses_typedDeclaration (clear_declaration hk hw word (by decide) rfl r)
    (refuses_enumeration_declared hk hw word hr)
    (refuses_typeAlias (clear_declaration hk hw word (by decide) rfl r))

omit hk hw in
theorem clear_bound (word : Separator) (b : Bound) (hr : Apart r) :
    Clear ["enum"] [] (word.text ++ (b.text ++ r)) := by
  cases b with
  | name n => exact clear_name word.isBlank n hr (by decide) rfl
  | pattern names oneLine => exact clear_mark word.isBlank (by decide) (by simp) _

theorem reads_declaration (b : Bound) (call : Call) (s : PlainSource) (before : Padding)
    (r : Text) :
    Reads 140 (.rule .statement)
      (w ++ (keyword.toList ++ (word.text ++ (b.text ++ (call.lead ++
        sourceText s (closeText call (before.text ++ ';' :: r)))))))
      (.literal .required (w ++ (keyword.toList ++ (word.text ++ (b.text ++ call.lead))))
        s.mark s.specifier) r := by
  have hbound := clear_bound word b
    (apart_call call (sourceText s (closeText call (before.text ++ ';' :: r))))
  have hvariable := reads_variableDeclaration hk hw word b call s before r
  have hdeclaration : Reads 110 (declaration .typeScript) _ _ r :=
    (((hvariable.final.skip (refuses_typedDeclaration_declared hk hw word hbound)).skip
      (refuses_class (clear_declaration hk hw word (by decide) rfl _) false)).skip
      (refuses_functionDeclaration (clear_declaration hk hw word (by decide) rfl _))).mono
      (by omega)
  have hrule : Reads 111 (.rule .declaration) _ _ r := Reads.rule hdeclaration
  have hstatement : Reads 112 (statementRule .typeScript) _ _ r :=
    (hrule.choice.skip
      (refuses_exportStatement (clear_declaration hk hw word (by decide) rfl _))).skip
      (refuses_importStatement (clear_declaration hk hw word (by decide) rfl _))
  have hall : Reads 113 (.rule .statement) _ _ r := Reads.rule hstatement
  exact hall.mono (by omega)

end Declared

end ImportAlias.Grammar
