import Mathlib
import RasterShader.Proofs.Reading.Rounds

/-!
# Steps that do nothing to the session but report

A step relays its reports (`ParserM.Relays`) if these are all it does to the session, and neither
what it gives nor where it stops depends on what the sink holds.  Such a step may be run while a
buffer is open: when the buffer is discarded nothing is left of the reports, and when it is passed
on they have been made as if there had been none.

Tokens, expressions, modifiers, types and the start of a declaration are read by such steps.  There
is a lemma for each way of putting steps together, and one for each rule of the grammar.
-/

namespace RasterShader

namespace Sink

variable {α : Type}

theorem reportAll_append (sink : Sink α) (first second : List α) :
    sink.reportAll (first ++ second) = (sink.reportAll first).reportAll second :=
  List.foldl_append

/-- While no buffer is open, reports reach the reader. -/
theorem reportAll_of_no_buffer (delivered entries : List α) :
    (⟨delivered, []⟩ : Sink α).reportAll entries = ⟨delivered ++ entries, []⟩ := by
  induction entries generalizing delivered with
  | nil => simp [reportAll]
  | cons entry entries ih =>
    show (⟨delivered ++ [entry], []⟩ : Sink α).reportAll entries = _
    rw [ih, List.append_assoc, List.singleton_append]

/-- While a buffer is open, reports are put into it. -/
theorem reportAll_of_buffer (delivered buffer : List α) (outer : List (List α))
    (entries : List α) :
    (⟨delivered, buffer :: outer⟩ : Sink α).reportAll entries =
      ⟨delivered, (buffer ++ entries) :: outer⟩ := by
  induction entries generalizing buffer with
  | nil => simp [reportAll]
  | cons entry entries ih =>
    show (⟨delivered, (buffer ++ [entry]) :: outer⟩ : Sink α).reportAll entries = _
    rw [ih, List.append_assoc, List.singleton_append]

theorem reportAll_beginBuffer (sink : Sink α) (entries : List α) :
    sink.beginBuffer.reportAll entries = ⟨sink.delivered, entries :: sink.buffers⟩ :=
  reportAll_of_buffer sink.delivered [] sink.buffers entries

/-- A buffer that is discarded leaves the sink as it was. -/
theorem discardBuffer_reportAll_beginBuffer (sink : Sink α) (entries : List α) :
    (sink.beginBuffer.reportAll entries).discardBuffer = sink := by
  rw [reportAll_beginBuffer]
  rfl

/-- A buffer that is passed on might as well not have been opened. -/
theorem commitBuffer_reportAll_beginBuffer (sink : Sink α) (entries : List α) :
    (sink.beginBuffer.reportAll entries).commitBuffer = sink.reportAll entries := by
  rw [reportAll_beginBuffer]
  rfl

end Sink

/-- The parser with another sink. -/
def Parser.withSink (p : Parser) (sink : Sink Report) : Parser := { p with session.sink := sink }

namespace Parser

variable (p : Parser) (sink sink' : Sink Report)

@[simp, grind =] theorem withSink_withSink : (p.withSink sink).withSink sink' = p.withSink sink' :=
  rfl

@[simp] theorem withSink_self : p.withSink p.session.sink = p := rfl

@[simp, grind =] theorem fatal_withSink : (p.withSink sink).fatal = p.fatal := rfl

@[simp, grind =] theorem depth_withSink : (p.withSink sink).depth = p.depth := rfl

@[simp, grind =] theorem size_withSink : (p.withSink sink).size = p.size := rfl

@[simp, grind =] theorem symbols_withSink :
    (p.withSink sink).session.symbols = p.session.symbols := rfl

@[simp, grind =] theorem dialect_withSink :
    (p.withSink sink).session.dialect = p.session.dialect := rfl

@[simp, grind =] theorem allowsPrivate_withSink :
    (p.withSink sink).session.allowsPrivate = p.session.allowsPrivate := rfl

/-- The parser has moved on in its text, with the same session. -/
structure Moved (p q : Parser) : Prop where
  size : q.size = p.size
  session : q.session = p.session

theorem Moved.refl (p : Parser) : p.Moved p := ⟨rfl, rfl⟩

theorem Moved.trans {p q r : Parser} (h : p.Moved q) (h' : q.Moved r) : p.Moved r :=
  ⟨h'.size.trans h.size, h'.session.trans h.session⟩

end Parser

namespace ParserM

variable {α β σ : Type}

/-- A step that does nothing to the session but report.  On every sink it gives the same, stops at
the same place and makes the same reports. -/
def Relays (step : ParserM α) : Prop :=
  ∀ p : Parser, ∃ (result : Option α) (q : Parser) (reports : List Report), p.Moved q ∧
    ∀ sink, step.runOn (p.withSink sink) = (result, q.withSink (sink.reportAll reports))

variable {step : ParserM α}

/-! ## Steps one after the other -/

@[grind ←] theorem relays_bind {f : α → ParserM β} (h : Relays step) (hf : ∀ a, Relays (f a)) :
    Relays (step >>= f) := by
  intro p
  obtain ⟨_ | a, q, reports, hmoved, hrun⟩ := h p
  · exact ⟨none, q, reports, hmoved, fun sink => by rw [runOn_bind, hrun]⟩
  · obtain ⟨result, r, more, hmoved', hrun'⟩ := hf a q
    refine ⟨result, r, reports ++ more, hmoved.trans hmoved', fun sink => ?_⟩
    rw [runOn_bind, hrun]
    dsimp only
    rw [hrun', Sink.reportAll_append]

@[grind ←] theorem relays_pure (a : α) : Relays (pure a) := fun p =>
  ⟨some a, p, [], .refl p, fun _ => rfl⟩

@[grind ←] theorem relays_failure : Relays (failure : ParserM α) := fun p =>
  ⟨none, p, [], .refl p, fun _ => rfl⟩

@[grind ←] theorem relays_ofOption (o : Option α) : Relays (ofOption o) := fun p =>
  ⟨o, p, [], .refl p, fun _ => rfl⟩

@[grind ←] theorem relays_map {g : α → β} (h : Relays step) : Relays (g <$> step) := by
  rw [map_eq_pure_bind]
  exact relays_bind h fun _ => relays_pure _

/-- What is done with the state may depend on everything but the sink. -/
@[grind ←] theorem relays_get_bind {f : Parser → ParserM β} (hf : ∀ p, Relays (f p))
    (hsink : ∀ p sink, f (p.withSink sink) = f p) : Relays (get >>= f) := by
  intro p
  obtain ⟨result, q, reports, hmoved, hrun⟩ := hf p p
  exact ⟨result, q, reports, hmoved, fun sink => by rw [runOn_get_bind, hsink, hrun]⟩

theorem relays_modify {f : Parser → Parser} (hmoved : ∀ p : Parser, p.Moved (f p))
    (hsink : ∀ p sink, f (p.withSink sink) = (f p).withSink sink) : Relays (modify f) := fun p =>
  ⟨some (), f p, [], hmoved p, fun sink => congrArg (Prod.mk _) (hsink p sink)⟩

@[grind ←] theorem relays_attempt (h : Relays step) : Relays (attempt step) := by
  intro p
  obtain ⟨result, q, reports, hmoved, hrun⟩ := h p
  exact ⟨some result, q, reports, hmoved, fun sink => by rw [runOn_attempt, hrun]⟩

@[grind ←] theorem relays_nested (h : Relays step) : Relays (nested step) := by
  intro p
  obtain ⟨result, q, reports, hmoved, hrun⟩ := h p
  refine ⟨result, { q with depth := p.depth }, reports, ⟨hmoved.size, hmoved.session⟩,
    fun sink => ?_⟩
  rw [runOn_nested, hrun]
  rfl

@[grind ←] theorem relays_iterate {round : σ → ParserM (σ ⊕ α)} (h : ∀ a, Relays (round a))
    (fuel : Nat) (a : σ) : Relays (iterate round fuel a) := by
  induction fuel generalizing a with
  | zero => exact relays_failure
  | succ fuel ih =>
    refine relays_bind (h a) fun r => ?_
    cases r with
    | inl next => exact ih next
    | inr result => exact relays_pure result

@[grind ←] theorem relays_loop {round : σ → ParserM (σ ⊕ α)} (h : ∀ a, Relays (round a))
    (a : σ) : Relays (loop a round) :=
  relays_get_bind (fun _ => relays_iterate h _ a) fun _ _ => rfl

/-- A trial of a step that relays its reports.  One that succeeds is that step, and one that fails
leaves the parser as it was. -/
theorem Relays.runOn_speculate (h : Relays step) (p : Parser) :
    (speculate step).runOn p =
      match step.runOn p with
      | (some a, q) => (some (some a), q)
      | (none, _) => (some none, p) := by
  obtain ⟨result, q, reports, hmoved, hrun⟩ := h p
  have hplain := hrun p.session.sink
  rw [Parser.withSink_self] at hplain
  rw [ParserM.runOn_speculate, ← Parser.withSink, hrun, hplain]
  cases result with
  | some a => simp only [Parser.withSink, Sink.commitBuffer_reportAll_beginBuffer]
  | none =>
    simp only [Parser.withSink, Sink.discardBuffer_reportAll_beginBuffer, hmoved.size,
      hmoved.session]

/-- A trial relays the reports it makes if it succeeds. -/
theorem relays_speculate (h : Relays step) : Relays (speculate step) := by
  intro p
  obtain ⟨result, q, reports, hmoved, hrun⟩ := h p
  cases result with
  | none => exact ⟨some none, p, [], .refl p, fun sink => by rw [h.runOn_speculate, hrun]; rfl⟩
  | some a => exact ⟨some (some a), q, reports, hmoved, fun sink => by
      rw [h.runOn_speculate, hrun]⟩

/-! ## Reports and tokens -/

@[grind ←] theorem relays_check (x : Checked α) : Relays (check x) := fun p =>
  ⟨some x.value, p, x.reports, .refl p, fun _ => rfl⟩

@[grind ←] theorem relays_dialect : Relays dialect :=
  relays_get_bind (fun _ => relays_pure _) fun _ _ => rfl

@[grind ←] theorem relays_report (span : Span) (issue : Issue) : Relays (report span issue) := by
  refine relays_get_bind (fun p => ?_) fun _ _ => rfl
  split
  · exact fun q => ⟨some (), q, [⟨span, issue⟩], .refl q, fun _ => rfl⟩
  · exact relays_pure _

@[grind ←] theorem relays_reportFatal (span : Span) (issue : Issue) :
    Relays (reportFatal span issue) :=
  relays_bind (relays_report span issue) fun _ => relays_modify (fun _ => ⟨rfl, rfl⟩) fun _ _ => rfl

@[grind ←] theorem relays_pushBack (token : Token) : Relays (pushBack token) :=
  relays_modify (fun _ => ⟨rfl, rfl⟩) fun _ _ => rfl

theorem relays_takePushback : Relays takePushback := fun p =>
  ⟨some p.pushback, { p with pushback := none }, [], ⟨rfl, rfl⟩, fun _ => rfl⟩

@[grind ←] theorem relays_nextRawToken : Relays nextRawToken := by
  refine relays_bind relays_takePushback fun o => ?_
  cases o with
  | some token => exact relays_pure token
  | none => exact fun p => ⟨some p.lexer.next.1, { p with lexer := p.lexer.next.2 }, [],
      ⟨rfl, rfl⟩, fun _ => rfl⟩

theorem relays_freshToken : Relays freshToken := by
  refine relays_bind (fun p => ⟨some p.lexer.nextSignificant.1,
    { p with lexer := p.lexer.nextSignificant.2 }, [], ⟨rfl, rfl⟩, fun _ => rfl⟩) fun token => ?_
  grind

@[grind ←] theorem relays_nextToken : Relays nextToken := by
  refine relays_bind relays_takePushback fun o => ?_
  have := relays_freshToken
  grind

@[grind ←] theorem relays_peek : Relays peek := by
  unfold peek
  grind

@[grind ←] theorem relays_peekKind : Relays peekKind :=
  relays_bind relays_peek fun _ => relays_pure _

@[grind ←] theorem relays_accept? (kind : TokenKind) : Relays (accept? kind) := by
  refine relays_bind relays_peek fun t => ?_
  split
  · exact relays_bind (relays_modify (fun _ => ⟨rfl, rfl⟩) fun _ _ => rfl) fun _ => relays_pure _
  · exact relays_pure _

@[grind ←] theorem relays_accepts (kind : TokenKind) : Relays (accepts kind) :=
  relays_bind (relays_accept? kind) fun _ => relays_pure _

@[grind ←] theorem relays_expect (wanted : Wanted) : Relays (expect wanted) := by
  unfold expect
  grind

@[grind ←] theorem relays_expectName : Relays expectName := by
  unfold expectName
  grind

@[grind ←] theorem relays_enter : Relays enter := by
  refine relays_bind (relays_modify (fun _ => ⟨rfl, rfl⟩) fun _ _ => rfl) fun _ => ?_
  grind

end ParserM

namespace Grammar

open ParserM

/-! ## Expressions -/

/-- The rules for expressions that others recurse into relay their reports. -/
structure ExprRulesRelay (rules : ExprRules) : Prop where
  expression : Relays rules.expression
  assignment : Relays rules.assignment
  unary : Relays rules.unary

attribute [grind →] ExprRulesRelay.expression ExprRulesRelay.assignment ExprRulesRelay.unary

variable {rules : ExprRules}

@[grind ←] theorem relays_finishTerm (t : Term) : Relays (finishTerm t) := by
  unfold finishTerm
  grind

@[grind ←] theorem relays_arguments (h : ExprRulesRelay rules) : Relays (arguments rules) := by
  unfold arguments
  grind

@[grind ←] theorem relays_literal (x : Checked Expr) : Relays (term.literal x) := by
  have reports (rs : List Report) : Relays (rs.forM fun r => report r.span r.issue) := by
    induction rs with
    | nil => exact relays_pure _
    | cons r rs ih => exact relays_bind (relays_report _ _) fun _ => ih
  exact relays_bind (reports x.reports) fun _ => relays_pure _

theorem relays_term (h : ExprRulesRelay rules) : Relays (term rules) := by
  refine relays_bind relays_nextToken fun t => ?_
  dsimp only
  split <;> grind

theorem relays_typeSuffix (h : ExprRulesRelay rules) (opening : Token) (ty : Ty) (span : Span) :
    Relays (typeSuffix rules opening ty span) := by
  unfold typeSuffix
  grind

theorem relays_indexSuffix (h : ExprRulesRelay rules) (opening : Token) (base : Expr) :
    Relays (indexSuffix rules opening base) := by
  unfold indexSuffix
  grind

theorem relays_dotSuffix (h : ExprRulesRelay rules) (base : Expr) :
    Relays (dotSuffix rules base) := by
  unfold dotSuffix
  grind

theorem relays_digitSwizzle (token : Token) (base : Expr) : Relays (digitSwizzle token base) := by
  unfold digitSwizzle
  grind

theorem relays_suffix (h : ExprRulesRelay rules) (t : Term) : Relays (suffix rules t) := by
  refine relays_bind relays_nextToken fun token => ?_
  split <;> grind [relays_typeSuffix, relays_indexSuffix, relays_dotSuffix, relays_digitSwizzle]

@[grind ←] theorem relays_postfixExpression (h : ExprRulesRelay rules) :
    Relays (postfixExpression rules) := by
  rw [postfixExpression_eq]
  have := relays_term h
  have := relays_suffix h
  unfold suffixStep
  grind

@[grind ←] theorem relays_unaryExpression (h : ExprRulesRelay rules) :
    Relays (unaryExpression rules) := by
  refine relays_nested (relays_bind relays_peek fun token => ?_)
  split <;> grind

@[grind ←] theorem relays_binaryExpression (h : ExprRulesRelay rules)
    (levels : List (List TokenKind)) : Relays (binaryExpression rules levels) := by
  induction levels with
  | nil => exact relays_unaryExpression h
  | cons operators tighter ih =>
    rw [binaryExpression_cons]
    refine relays_nested (relays_bind ih fun first => relays_loop (fun left => ?_) first)
    unfold binaryStep
    grind

@[grind ←] theorem relays_ternaryExpression (h : ExprRulesRelay rules) :
    Relays (ternaryExpression rules) := by
  refine relays_nested (relays_bind (relays_binaryExpression h _) fun test => ?_)
  refine relays_bind (relays_accept? _) fun question => ?_
  grind

@[grind ←] theorem relays_assignmentExpression (h : ExprRulesRelay rules) :
    Relays (assignmentExpression rules) := by
  refine relays_nested (relays_bind (relays_ternaryExpression h) fun left => ?_)
  refine relays_bind relays_peekKind fun kind => ?_
  grind

theorem relays_commaExpression (h : ExprRulesRelay rules) : Relays (commaExpression rules) := by
  refine relays_nested (relays_bind (relays_assignmentExpression h) fun first => ?_)
  refine relays_loop (fun left => relays_bind (relays_accepts _) fun comma => ?_) first
  grind

theorem exprRulesRelay_exprRules (n : Nat) : ExprRulesRelay (exprRules n) := by
  induction n with
  | zero => exact ⟨relays_failure, relays_failure, relays_failure⟩
  | succ n ih =>
    exact ⟨relays_commaExpression ih, relays_assignmentExpression ih, relays_unaryExpression ih⟩

@[grind ←] theorem relays_expression : Relays expression := (exprRulesRelay_exprRules _).expression

@[grind ←] theorem relays_assignment : Relays assignment := (exprRulesRelay_exprRules _).assignment

/-! ## Modifiers, types and declared names -/

@[grind ←] theorem relays_layoutQualifier (layout : Layout) (key : Token) :
    Relays (layoutQualifier layout key) := by
  unfold layoutQualifier
  grind

theorem relays_qualifierStep (layout : Layout) : Relays (qualifierStep layout) := by
  refine relays_bind relays_nextToken fun key => ?_
  refine relays_bind (relays_attempt (relays_layoutQualifier layout key)) fun o => ?_
  grind

@[grind ←] theorem relays_layoutQualifiers (layout : Layout) :
    Relays (layoutQualifiers layout) := by
  rw [layoutQualifiers_eq]
  refine relays_bind relays_nextToken fun _ => ?_
  grind [relays_qualifierStep]

theorem relays_modifierStep (found : Modifiers) : Relays (modifierStep found) := by
  unfold modifierStep
  grind

@[grind ←] theorem relays_modifiers : Relays modifiers := by
  rw [modifiers_eq]
  grind [relays_modifierStep]

theorem relays_sizeStep (kind : ProgramKind) (ty : Ty) : Relays (sizeStep kind ty) := by
  refine relays_bind (relays_accept? _) fun opening => ?_
  grind

@[grind ←] theorem relays_arraySuffix (base : Ty) : Relays (arraySuffix base) := by
  rw [arraySuffix_eq]
  grind [relays_sizeStep]

@[grind ←] theorem relays_type : Relays type := by
  unfold type
  grind

@[grind ←] theorem relays_declarationStart : Relays declarationStart := by
  unfold declarationStart
  grind

end Grammar

end RasterShader
