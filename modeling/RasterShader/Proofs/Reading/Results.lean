import Mathlib
import RasterShader.Proofs.Reading.Rounds
import RasterShader.Proofs.Typing.Marks

/-!
# What the grammar gives

A rule of the grammar gives something with a property if all it can give has it, whatever the parser
it runs on (`ParserM.Gives`).  Such properties are passed on from one step to the next, and through
loops by an invariant of their rounds.

Expressions and statements are read by rules that put together what checks give, and so they are
marked (`Grammar.gives_assignment`, `Grammar.gives_statement`).
-/

namespace RasterShader

namespace SessionM

variable {α β : Type} {Q : α → Prop} {Q' : β → Prop} {x : SessionM α} {f : α → SessionM β}

/-- Whatever the session, what the step gives has the property. -/
def Gives (Q : α → Prop) (x : SessionM α) : Prop := ∀ s, Q (x.run s).1

theorem gives_pure {a : α} (h : Q a) : Gives Q (pure a) := fun _ => h

theorem gives_bind (h : Gives Q x) (hf : ∀ a, Q a → Gives Q' (f a)) : Gives Q' (x >>= f) :=
  fun s => hf (x.run s).1 (h s) (x.run s).2

theorem gives_then (hf : ∀ a, Gives Q' (f a)) : Gives Q' (x >>= f) :=
  gives_bind (Q := fun _ => True) (fun _ => trivial) fun a _ => hf a

theorem gives_check {c : Checked α} (h : c.Always Q) : Gives Q (check c) := fun _ => h

end SessionM

namespace ParserM

variable {α β σ : Type} {Q : α → Prop} {Q' : β → Prop} {step : ParserM α}

/-- Whatever the parser, what the step gives has the property, if it gives anything. -/
def Gives (Q : α → Prop) (step : ParserM α) : Prop := ∀ p, ∀ a ∈ (step.runOn p).1, Q a

/-! ## Steps one after the other -/

theorem gives_pure {a : α} (h : Q a) : Gives Q (pure a) := fun _ _ ha => Option.some.inj ha ▸ h

theorem gives_failure : Gives Q failure := fun _ _ => nofun

theorem gives_any (step : ParserM α) : Gives (fun _ => True) step := fun _ _ _ => trivial

theorem gives_bind {f : α → ParserM β} (h : Gives Q step) (hf : ∀ a, Q a → Gives Q' (f a)) :
    Gives Q' (step >>= f) := by
  intro p
  have hstep := h p
  rw [runOn_bind]
  rcases hrun : step.runOn p with ⟨_ | a, q⟩ <;> rw [hrun] at hstep
  · exact nofun
  · exact hf a (hstep a rfl) q

/-- What the first step gives does not matter. -/
theorem gives_then {f : α → ParserM β} (hf : ∀ a, Gives Q' (f a)) : Gives Q' (step >>= f) :=
  gives_bind (gives_any step) fun a _ => hf a

theorem gives_failure_bind (f : α → ParserM β) : Gives Q' (failure >>= f) :=
  gives_bind (Q := fun _ => False) gives_failure fun _ => False.elim

theorem gives_map {g : α → β} (h : Gives Q step) (hg : ∀ a, Q a → Q' (g a)) :
    Gives Q' (g <$> step) := by
  rw [map_eq_pure_bind]
  exact gives_bind h fun a ha => gives_pure (hg a ha)

theorem gives_attempt (h : Gives Q step) : Gives (fun o => ∀ a ∈ o, Q a) (attempt step) := by
  intro p o ho
  rw [runOn_attempt] at ho
  obtain rfl := Option.some.inj ho
  exact h p

theorem gives_ensuring (h : Gives Q step) (after : Parser → Parser) :
    Gives Q (ensuring step after) := fun p => by
  rw [runOn_ensuring]
  exact h p

theorem gives_nested (h : Gives Q step) : Gives Q (nested step) := fun p => by
  rw [runOn_nested]
  exact h p

theorem gives_inSession {x : SessionM α} (h : x.Gives Q) : Gives Q (inSession x) :=
  fun p _ ha => Option.some.inj ha ▸ h p.session

theorem gives_check {c : Checked α} (h : c.Always Q) : Gives Q (check c) :=
  gives_inSession (SessionM.gives_check h)

theorem gives_inScope (h : Gives Q step) : Gives Q (inScope step) :=
  gives_then fun _ => gives_ensuring h _

/-! ## Loops -/

variable {I : σ → Prop} {round : σ → ParserM (σ ⊕ α)}

/-- Every round keeps the invariant, and the last one gives something with the property. -/
theorem gives_iterate (h : ∀ state, I state → Gives (Sum.elim I Q) (round state)) (fuel : Nat)
    {state : σ} (hstate : I state) : Gives Q (iterate round fuel state) := by
  induction fuel generalizing state with
  | zero => exact gives_failure
  | succ fuel ih =>
    refine gives_bind (h state hstate) fun r hr => ?_
    cases r with
    | inl next => exact ih hr
    | inr result => exact gives_pure hr

theorem gives_loop (h : ∀ state, I state → Gives (Sum.elim I Q) (round state)) {state : σ}
    (hstate : I state) : Gives Q (loop state round) :=
  gives_then fun _ => gives_iterate h _ hstate

end ParserM

namespace Grammar

open ParserM Typing

/-! ## Postfix expressions -/

/-- The rules for expressions that others recurse into give marked expressions. -/
structure ExprRulesMarked (rules : ExprRules) : Prop where
  expression : rules.expression.Gives (Expr.Marked .read)
  assignment : rules.assignment.Gives (Expr.Marked .read)
  unary : rules.unary.Gives (Expr.Marked .read)

/-- A value at the start of a postfix expression is marked. -/
def Term.Marked : Term → Prop
  | .value e => e.Marked .read
  | .type .. | .functions .. => True

theorem intLiteral_marked (token : Token) : (intLiteral token).value.Marked .read := by
  unfold intLiteral
  dsimp only
  split_ifs <;> first | exact .literal _ _ | exact .poison _

theorem floatLiteral_marked (token : Token) : (floatLiteral token).value.Marked .read := by
  unfold floatLiteral
  split
  · exact .literal _ _
  · exact .poison _

theorem gives_finishTerm {t : Term} (h : t.Marked) : (finishTerm t).Gives (Expr.Marked .read) := by
  cases t with
  | value e => exact gives_pure h
  | type ty span => exact gives_then fun _ => gives_pure (.poison _)
  | functions overloads span => exact gives_then fun _ => gives_pure (.poison _)

variable {rules : ExprRules}

theorem gives_arguments (h : ExprRulesMarked rules) :
    (arguments rules).Gives fun found => ∀ e ∈ found.1, e.Marked .read := by
  refine gives_then fun close => ?_
  cases close with
  | some close => exact gives_pure (List.forall_mem_nil _)
  | none =>
    refine gives_bind (Q := fun (es : List Expr) => ∀ e ∈ es, e.Marked .read)
      (gives_loop (I := fun (es : List Expr) => ∀ e ∈ es, e.Marked .read) (fun found hfound => ?_)
        (List.forall_mem_nil _)) fun found hfound => gives_then fun _ => gives_pure hfound
    refine gives_bind h.assignment fun e he => gives_then fun comma => ?_
    have hall := List.forall_mem_append.2 ⟨hfound, List.forall_mem_singleton.2 he⟩
    cases comma <;> exact gives_pure hall

theorem gives_literal {x : Checked Expr} (h : x.value.Marked .read) :
    (term.literal x).Gives (Expr.Marked .read) := gives_then fun _ => gives_pure h

theorem gives_term (h : ExprRulesMarked rules) : (term rules).Gives Term.Marked := by
  refine gives_then fun token => ?_
  dsimp only
  split
  · refine gives_then fun p => ?_
    split
    · exact gives_pure trivial
    · exact gives_pure trivial
    · exact gives_bind (gives_check (identifier_marked _ _ _)) fun e he => gives_pure he
  · exact gives_bind (gives_literal (intLiteral_marked token)) fun e he => gives_pure he
  · exact gives_bind (gives_literal (floatLiteral_marked token)) fun e he => gives_pure he
  · exact gives_pure (Expr.Marked.literal _ _)
  · exact gives_pure (Expr.Marked.literal _ _)
  · refine gives_then fun _ => gives_bind h.expression fun e he => ?_
    exact gives_then fun close => gives_pure (he.withSpan _)
  · exact gives_then fun _ => gives_failure

theorem gives_typeSuffix (rules : ExprRules) (opening : Token) (ty : Ty) (span : Span) :
    (typeSuffix rules opening ty span).Gives Term.Marked := by
  refine gives_then fun dialect => gives_then fun close => ?_
  cases close with
  | some close => exact gives_then fun _ => gives_pure trivial
  | none =>
    exact gives_then fun _ => gives_then fun _ => gives_then fun _ => gives_pure trivial

theorem gives_indexSuffix (h : ExprRulesMarked rules) (opening : Token) {base : Expr}
    (hbase : base.Marked .read) : (indexSuffix rules opening base).Gives (Expr.Marked .read) := by
  refine gives_then fun close => ?_
  cases close with
  | some close => exact gives_then fun _ => gives_pure (.poison _)
  | none =>
    refine gives_bind h.expression fun i hi => gives_then fun close => ?_
    exact gives_check (element_marked hbase hi _)

theorem gives_dotSuffix (h : ExprRulesMarked rules) {base : Expr} (hbase : base.Marked .read) :
    (dotSuffix rules base).Gives (Expr.Marked .read) := by
  refine gives_then fun name => gives_then fun call => ?_
  cases call with
  | true =>
    exact gives_bind (gives_arguments h) fun found hfound =>
      gives_check (callMethod_marked hfound _ _ _)
  | false => exact gives_then fun dialect => gives_check (member_marked hbase _ _)

theorem gives_digitSwizzle (token : Token) {base : Expr} (hbase : base.Marked .read) :
    (digitSwizzle token base).Gives (Expr.Marked .read) := by
  refine gives_then fun raw => ?_
  split
  · exact gives_then fun dialect => gives_check (swizzle_marked hbase _ _)
  · exact gives_then fun _ => gives_then fun dialect => gives_check (swizzle_marked hbase _ _)

theorem gives_suffix (h : ExprRulesMarked rules) {t : Term} (ht : t.Marked) :
    (suffix rules t).Gives Term.Marked := by
  refine gives_then fun token => ?_
  have args := gives_arguments h
  split
  · refine gives_bind args fun found hfound => gives_then fun dialect => ?_
    exact gives_bind (gives_check (construct_marked hfound _ _)) fun e he => gives_pure he
  · refine gives_bind args fun found hfound => ?_
    exact gives_bind (gives_check (call_marked hfound _ _)) fun e he => gives_pure he
  · refine gives_then fun found => ?_
    have failed (span : Span) : Term.Marked (.value (.poison span)) := Expr.Marked.poison _
    dsimp only
    split
    · exact gives_then fun _ => gives_pure (failed _)
    · exact gives_pure (failed _)
  · exact gives_typeSuffix rules _ _ _
  · exact gives_then fun _ => gives_then fun _ => gives_pure (Expr.Marked.poison _)
  · exact gives_then fun _ => gives_then fun _ => gives_pure (Expr.Marked.poison _)
  · exact gives_bind (gives_indexSuffix h _ ht) fun e he => gives_pure he
  · exact gives_bind (gives_dotSuffix h ht) fun e he => gives_pure he
  · exact gives_bind (gives_digitSwizzle _ ht) fun e he => gives_pure he
  · exact gives_bind (gives_check (postfixOperation_marked ht rfl _)) fun e he => gives_pure he
  · exact gives_bind (gives_check (postfixOperation_marked ht rfl _)) fun e he => gives_pure he
  · exact gives_then fun _ => gives_pure ht

theorem gives_postfixExpression (h : ExprRulesMarked rules) :
    (postfixExpression rules).Gives (Expr.Marked .read) := by
  rw [postfixExpression_eq]
  refine gives_nested (gives_bind (gives_term h) fun first hfirst => ?_)
  refine gives_iterate (I := Term.Marked) (fun t ht => ?_) _ hfirst
  refine gives_then fun token => ?_
  split
  · exact gives_then fun _ => gives_bind (gives_suffix h ht) fun t ht => gives_pure ht
  · exact gives_bind (gives_finishTerm ht) fun e he => gives_pure he

/-! ## Operations -/

theorem gives_unaryExpression (h : ExprRulesMarked rules) :
    (unaryExpression rules).Gives (Expr.Marked .read) := by
  refine gives_nested (gives_then fun token => ?_)
  have operation : ParserM.Gives (Expr.Marked .read) (do
      let op ← ofOption (Operator.ofToken? token.kind)
      let _ ← nextToken
      enter
      let operand ← rules.unary
      check (Typing.prefixOperation (← dialect) token.span op operand)) := by
    refine gives_then fun op => gives_then fun _ => gives_then fun _ => ?_
    refine gives_bind h.unary fun operand hoperand => gives_then fun dialect => ?_
    exact gives_check (prefixOperation_marked hoperand _ _)
  split
  on_goal 7 => exact gives_postfixExpression h
  all_goals exact operation

theorem gives_binaryExpression (h : ExprRulesMarked rules) (levels : List (List TokenKind)) :
    (binaryExpression rules levels).Gives (Expr.Marked .read) := by
  induction levels with
  | nil => exact gives_unaryExpression h
  | cons operators tighter ih =>
    rw [binaryExpression_cons]
    refine gives_nested (gives_bind ih fun first hfirst => gives_loop (fun left hleft => ?_) hfirst)
    refine gives_then fun token => ?_
    split
    · exact gives_pure hleft
    · refine gives_then fun op => gives_then fun _ => gives_then fun _ => ?_
      refine gives_bind ih fun right hright => gives_then fun dialect => ?_
      exact gives_bind (gives_check (binary_marked hleft op hright)) fun e he => gives_pure he

theorem gives_ternaryExpression (h : ExprRulesMarked rules) :
    (ternaryExpression rules).Gives (Expr.Marked .read) := by
  refine gives_nested (gives_bind (gives_binaryExpression h _) fun test htest => ?_)
  refine gives_then fun question => ?_
  cases question with
  | none => exact gives_pure htest
  | some question =>
    refine gives_then fun _ => gives_bind h.expression fun ifTrue htrue => gives_then fun _ => ?_
    refine gives_bind h.assignment fun ifFalse hfalse => gives_then fun dialect => ?_
    exact gives_check (ternary_marked htest htrue hfalse _)

theorem gives_assignmentExpression (h : ExprRulesMarked rules) :
    (assignmentExpression rules).Gives (Expr.Marked .read) := by
  refine gives_nested (gives_bind (gives_ternaryExpression h) fun left hleft => ?_)
  refine gives_then fun kind => ?_
  split
  · split
    · refine gives_then fun _ => gives_then fun _ => gives_bind h.assignment fun right hright => ?_
      exact gives_then fun dialect => gives_check (binary_marked hleft _ hright)
    · exact gives_pure hleft
  · exact gives_pure hleft

theorem gives_commaExpression (h : ExprRulesMarked rules) :
    (commaExpression rules).Gives (Expr.Marked .read) := by
  refine gives_nested (gives_bind (gives_assignmentExpression h) fun first hfirst => ?_)
  refine gives_loop (fun left hleft => gives_then fun comma => ?_) hfirst
  split
  · exact gives_pure hleft
  · refine gives_then fun _ => gives_bind (gives_assignmentExpression h) fun right hright => ?_
    refine gives_then fun dialect => ?_
    exact gives_bind (gives_check (binary_marked hleft _ hright)) fun e he => gives_pure he

theorem exprRulesMarked_exprRules (n : Nat) : ExprRulesMarked (exprRules n) := by
  induction n with
  | zero => exact ⟨gives_failure, gives_failure, gives_failure⟩
  | succ n ih =>
    exact ⟨gives_commaExpression ih, gives_assignmentExpression ih, gives_unaryExpression ih⟩

theorem gives_expression : expression.Gives (Expr.Marked .read) :=
  (exprRulesMarked_exprRules _).expression

theorem gives_assignment : assignment.Gives (Expr.Marked .read) :=
  (exprRulesMarked_exprRules _).assignment

/-! ## Declarations -/

theorem gives_declareVariable {value : Option Expr} (h : ∀ e ∈ value, e.Marked .read)
    (span : Span) (modifiers : Modifiers) (ty : Ty) (name : String) (storage : Storage) :
    (declareVariable span modifiers ty name value storage).Gives Stmt.Marked := by
  refine SessionM.gives_then fun s => SessionM.gives_then fun _ => SessionM.gives_then fun ok => ?_
  split
  · exact SessionM.gives_pure (.nop _)
  · refine SessionM.gives_bind (SessionM.gives_check (initializer_marked h _ _ _ _))
      fun checked hchecked => ?_
    cases checked with
    | none => exact SessionM.gives_pure (.nop _)
    | some value =>
      refine SessionM.gives_then fun id => SessionM.gives_then fun declared => ?_
      split
      · exact SessionM.gives_pure (.declare _ _ (hchecked value rfl))
      · exact SessionM.gives_pure (.nop _)

/-- What is declared has a property if it has one given a marked initializer. -/
theorem gives_declarators {α : Type} {Q : α → Prop} (start : DeclarationStart) (declare : Declare α)
    (h : ∀ span modifiers ty name value, (∀ e ∈ value, e.Marked .read) →
      (declare span modifiers ty name value).Gives Q) :
    (declarators start declare).Gives fun found => ∀ a ∈ found, Q a := by
  rw [declarators_eq]
  refine gives_bind (Q := fun found => ∀ a ∈ found, Q a)
    (gives_loop (I := fun state => ∀ a ∈ state.2, Q a) (fun state hstate => ?_)
      (List.forall_mem_nil _)) fun found hfound => gives_then fun _ => gives_pure hfound
  refine gives_then fun ty => ?_
  have declared {value : Option Expr} (hvalue : ∀ e ∈ value, e.Marked .read) :
      (declareName start declare state.1 state.2 ty value).Gives
        (Sum.elim (fun state => ∀ a ∈ state.2, Q a) fun found => ∀ a ∈ found, Q a) := by
    refine gives_bind (gives_inSession (h _ _ _ _ _ hvalue)) fun a ha => gives_then fun comma => ?_
    have hall := List.forall_mem_append.2 ⟨hstate, List.forall_mem_singleton.2 ha⟩
    split
    · exact gives_then fun name => gives_pure hall
    · exact gives_pure hall
  refine gives_then fun assigned => ?_
  dsimp only
  split
  · exact gives_bind (gives_map gives_assignment fun _ => forall_mem_some) fun _ => declared
  · exact declared forall_mem_none

/-! ## Statements -/

theorem gives_expressionStatement : expressionStatement.Gives Stmt.Marked :=
  gives_bind gives_expression fun _ he =>
    gives_then fun _ => gives_pure (expressionStatement_marked he)

theorem gives_localDeclarations (start : DeclarationStart) :
    (localDeclarations start).Gives Stmt.Marked := by
  refine gives_bind (gives_declarators (Q := Stmt.Marked) start _ fun _ _ _ _ _ h =>
    gives_declareVariable h _ _ _ _ _) fun statements h => ?_
  split
  · exact gives_pure (h _ (List.mem_singleton_self _))
  · exact gives_pure (.block _ _ h)

theorem gives_declarationOrExpression : declarationOrExpression.Gives Stmt.Marked := by
  refine gives_then fun token => ?_
  split
  · exact gives_then fun start => gives_localDeclarations start
  · refine gives_then fun p => ?_
    split
    · refine gives_then fun start => ?_
      split
      · exact gives_localDeclarations _
      · exact gives_expressionStatement
    · exact gives_expressionStatement

theorem gives_condition : condition.Gives (Expr.Marked .read) :=
  gives_then fun _ => gives_bind gives_expression fun _ he => gives_then fun _ => gives_pure he

theorem gives_expressionUnless (kind : TokenKind) :
    (expressionUnless kind).Gives fun o => ∀ e ∈ o, e.Marked .read := by
  refine gives_then fun next => ?_
  split
  · exact gives_pure forall_mem_none
  · exact gives_bind gives_expression fun _ he => gives_pure (forall_mem_some he)

variable {inner : ParserM Stmt}

theorem gives_blockContents (h : inner.Gives Stmt.Marked) (opening : Token) :
    (blockContents inner opening).Gives Stmt.Marked := by
  rw [blockContents_eq]
  refine gives_loop (I := fun (found : List Stmt) => ∀ s ∈ found, s.Marked) (fun found hfound => ?_)
    (List.forall_mem_nil _)
  refine gives_then fun token => ?_
  split
  · exact gives_then fun _ => gives_pure (Stmt.Marked.block _ _ hfound)
  · exact gives_then fun _ => gives_failure
  · refine gives_then fun p => gives_bind (gives_attempt h) fun result hresult => ?_
    have skipped : ParserM.Gives
        (Sum.elim (fun found => ∀ s ∈ found, Stmt.Marked s) Stmt.Marked) (do
        if (← get).cursor == p.cursor then
          let _ ← nextToken
        return .inl found) := by
      refine gives_then fun q => ?_
      split
      · exact gives_then fun _ => gives_pure hfound
      · exact gives_pure hfound
    refine gives_then fun q => ?_
    dsimp only
    split
    · exact gives_failure_bind _
    cases result with
    | some s =>
      exact gives_pure
        (List.forall_mem_append.2 ⟨hfound, List.forall_mem_singleton.2 (hresult s rfl)⟩)
    | none => exact skipped

theorem gives_block (h : inner.Gives Stmt.Marked) : (block inner).Gives Stmt.Marked :=
  gives_nested (gives_then fun opening => gives_then fun _ =>
    gives_inScope (gives_blockContents h opening))

theorem gives_ifStatement (h : inner.Gives Stmt.Marked) :
    (ifStatement inner).Gives Stmt.Marked := by
  refine gives_then fun start => gives_bind gives_condition fun test htest => ?_
  refine gives_bind h fun ifTrue htrue => gives_then fun otherwise => ?_
  split
  · refine gives_bind h fun ifFalse hfalse => gives_then fun dialect => ?_
    exact gives_check (branch_marked htest htrue (forall_mem_some hfalse) _)
  · exact gives_then fun dialect => gives_check (branch_marked htest htrue forall_mem_none _)

theorem gives_loopBody (h : inner.Gives Stmt.Marked) : (loopBody inner).Gives Stmt.Marked :=
  gives_then fun _ => gives_ensuring h _

theorem gives_forStatement (h : inner.Gives Stmt.Marked) :
    (forStatement inner).Gives Stmt.Marked := by
  refine gives_then fun start => gives_then fun _ => gives_inScope ?_
  have rest {initializer : Option Stmt} (hinitializer : ∀ s ∈ initializer, s.Marked) :
      ParserM.Gives Stmt.Marked (do
        let test ← expressionUnless .semicolon
        let _ ← expect .semicolon
        let next ← expressionUnless .rightParen
        let _ ← expect .rightParen
        let body ← loopBody inner
        check (forLoop (← dialect) (start.span.join body.span) initializer test next body)) := by
    refine gives_bind (gives_expressionUnless _) fun test htest => gives_then fun _ => ?_
    refine gives_bind (gives_expressionUnless _) fun next hnext => gives_then fun _ => ?_
    refine gives_bind (gives_loopBody h) fun body hbody => gives_then fun dialect => ?_
    exact gives_check (forLoop_marked hinitializer htest hnext hbody _)
  refine gives_then fun empty => ?_
  dsimp only
  split
  · exact rest forall_mem_none
  · exact gives_bind (gives_map gives_declarationOrExpression fun _ => forall_mem_some)
      fun _ => rest

theorem gives_whileStatement (h : inner.Gives Stmt.Marked) :
    (whileStatement inner).Gives Stmt.Marked := by
  refine gives_then fun start => gives_bind gives_condition fun test htest => ?_
  refine gives_bind (gives_loopBody h) fun body hbody => gives_then fun dialect => ?_
  exact gives_check (whileLoop_marked htest hbody _)

theorem gives_doStatement (h : inner.Gives Stmt.Marked) :
    (doStatement inner).Gives Stmt.Marked := by
  refine gives_then fun start => gives_bind (gives_loopBody h) fun body hbody => ?_
  refine gives_then fun _ => gives_bind gives_condition fun test htest => ?_
  exact gives_then fun stop => gives_then fun dialect => gives_check (doLoop_marked hbody htest _)

theorem gives_caseBody (h : inner.Gives Stmt.Marked) :
    (caseBody inner).Gives fun found => ∀ s ∈ found, s.Marked := by
  rw [caseBody_eq]
  refine gives_loop (I := fun (found : List Stmt) => ∀ s ∈ found, s.Marked) (fun found hfound => ?_)
    (List.forall_mem_nil _)
  refine gives_then fun kind => ?_
  split
  on_goal 5 =>
    exact gives_bind h fun s hs =>
      gives_pure (List.forall_mem_append.2 ⟨hfound, List.forall_mem_singleton.2 hs⟩)
  all_goals exact gives_pure hfound

theorem gives_switchCases (h : inner.Gives Stmt.Marked) :
    (switchCases inner).Gives fun found => ∀ c ∈ found.1, c.Marked := by
  have added {cases : List RawCase} (hcases : ∀ c ∈ cases, c.Marked) {c : RawCase}
      (hc : c.Marked) : ∀ c' ∈ cases ++ [c], c'.Marked :=
    List.forall_mem_append.2 ⟨hcases, List.forall_mem_singleton.2 hc⟩
  rw [switchCases_eq]
  refine gives_bind (Q := fun (cases : List RawCase) => ∀ c ∈ cases, c.Marked)
    (gives_loop (I := fun (cases : List RawCase) => ∀ c ∈ cases, c.Marked) (fun found hfound => ?_)
      (List.forall_mem_nil _)) fun cases hcases => ?_
  · refine gives_then fun token => ?_
    split
    · exact gives_pure hfound
    · refine gives_bind gives_expression fun value hvalue => gives_then fun _ => ?_
      refine gives_bind (gives_caseBody h) fun body hbody => gives_pure (added hfound ?_)
      exact ⟨forall_mem_some hvalue, hbody⟩
  · have closed {cases : List RawCase} (hcases : ∀ c ∈ cases, c.Marked) :
        ParserM.Gives (fun found => ∀ c ∈ found.1, c.Marked)
          (do return (cases, ← expect .rightBrace)) :=
      gives_then fun _ => gives_pure hcases
    refine gives_then fun token => ?_
    cases token with
    | none => exact closed hcases
    | some token =>
      refine gives_then fun _ => gives_bind (gives_caseBody h) fun body hbody => ?_
      exact closed (added hcases ⟨forall_mem_none, hbody⟩)

theorem gives_switchStatement (h : inner.Gives Stmt.Marked) :
    (switchStatement inner).Gives Stmt.Marked := by
  refine gives_then fun start => gives_bind gives_condition fun value hvalue => ?_
  refine gives_then fun _ => gives_then fun _ => ?_
  refine gives_bind (gives_ensuring (gives_inScope (gives_switchCases h)) _) fun found hfound => ?_
  exact gives_then fun dialect => gives_check (switch_marked hvalue hfound _)

theorem gives_returnStatement : returnStatement.Gives Stmt.Marked := by
  refine gives_then fun start => gives_bind (gives_expressionUnless _) fun value hvalue => ?_
  exact gives_then fun stop => gives_then fun p =>
    gives_check (returnStatement_marked hvalue _ _)

theorem gives_jumpStatement (permitted : Session → Bool) (issue : Issue) {build : Span → Stmt}
    (h : ∀ span, (build span).Marked) :
    (jumpStatement permitted issue build).Gives Stmt.Marked :=
  gives_then fun _ => gives_then fun _ => gives_then fun _ => gives_check (jump_marked (h _) _ _ _)

theorem gives_statementOf (h : inner.Gives Stmt.Marked) :
    (statementOf inner).Gives Stmt.Marked := by
  refine gives_nested (gives_then fun _ => gives_then fun token => ?_)
  split
  · exact gives_ifStatement h
  · exact gives_forStatement h
  · exact gives_doStatement h
  · exact gives_whileStatement h
  · exact gives_switchStatement h
  · exact gives_returnStatement
  · exact gives_jumpStatement _ _ .breaks
  · exact gives_jumpStatement _ _ .continues
  · exact gives_jumpStatement _ _ .discards
  · exact gives_block h
  · exact gives_then fun _ => gives_pure (.nop _)
  on_goal 6 => exact gives_expressionStatement
  all_goals exact gives_declarationOrExpression

theorem gives_statement : statement.Gives Stmt.Marked := by
  have at_ (n : Nat) : (statementAt n).Gives Stmt.Marked := by
    induction n with
    | zero => exact gives_failure
    | succ n ih => exact gives_statementOf ih
  exact at_ _

end Grammar

end RasterShader
