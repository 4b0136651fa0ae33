import Mathlib
import RasterShader.Library.Modules
import RasterShader.Proofs.Reading.Relays

/-!
# Declarations on trial

Where a statement starts with a type it may be a declaration or an expression.  Modifiers, a type
and a name are read on trial then, with a buffer for the reports; if that fails, the statement is
read as an expression from where it started.

What is read on trial relays its reports (`relays_declarationStart`), so that a trial that fails
leaves the parser as it was when the trial began.  By then the first token has been looked at, and
a reserved word has been reported.  That makes no difference either, since declarations and
expressions begin by looking at it themselves (`ParserM.PeeksFirst`).
-/

namespace RasterShader

namespace ParserM

variable {α β : Type} {step : ParserM α}

/-- It makes no difference whether the next token has been looked at before. -/
def PeeksFirst (step : ParserM α) : Prop := ∀ p, step.runOn (peek.runOn p).2 = step.runOn p

/-- A token that has been looked at is there to be looked at again. -/
theorem peeksFirst_peek : PeeksFirst peek := by
  intro p
  obtain ⟨t, q, hrun, ht, -⟩ := exists_runOn_peek p
  rw [hrun]
  exact runOn_peek_of_pushback rfl ht

theorem peeksFirst_bind (h : PeeksFirst step) (f : α → ParserM β) : PeeksFirst (step >>= f) :=
  fun p => by rw [runOn_bind, runOn_bind, h]

theorem peeksFirst_nested (h : PeeksFirst step) : PeeksFirst (nested step) := by
  intro p
  obtain ⟨t, q, hrun, -, hdepth⟩ := exists_runOn_peek p
  have hsame := h p
  rw [hrun] at hsame ⊢
  rw [runOn_nested, runOn_nested, hsame]
  exact congrArg (fun depth => (_, { (step.runOn p).2 with depth })) hdepth

end ParserM

namespace Grammar

open ParserM

/-! ## Rules that begin by looking at the next token -/

theorem peeksFirst_unaryExpression (rules : ExprRules) : PeeksFirst (unaryExpression rules) :=
  peeksFirst_nested (peeksFirst_bind peeksFirst_peek _)

theorem peeksFirst_binaryExpression (rules : ExprRules) (levels : List (List TokenKind)) :
    PeeksFirst (binaryExpression rules levels) := by
  induction levels with
  | nil => exact peeksFirst_unaryExpression rules
  | cons operators tighter ih => exact peeksFirst_nested (peeksFirst_bind ih _)

theorem peeksFirst_expression : PeeksFirst expression := by
  show PeeksFirst (commaExpression (exprRules Parser.maxDepth))
  have ternary : PeeksFirst (ternaryExpression (exprRules Parser.maxDepth)) :=
    peeksFirst_nested (peeksFirst_bind (peeksFirst_binaryExpression _ _) _)
  have assignment : PeeksFirst (assignmentExpression (exprRules Parser.maxDepth)) :=
    peeksFirst_nested (peeksFirst_bind ternary _)
  exact peeksFirst_nested (peeksFirst_bind assignment _)

theorem peeksFirst_expressionStatement : PeeksFirst expressionStatement :=
  peeksFirst_bind peeksFirst_expression _

theorem peeksFirst_declarationStart : PeeksFirst declarationStart :=
  peeksFirst_bind (peeksFirst_bind peeksFirst_peek _) _

/-! ## Trials -/

/-- The next token starts a type, so that a declaration is tried. -/
def triesDeclaration (p : Parser) : Bool :=
  match peek.runOn p with
  | (some token, q) => startsType q.session.symbols token
  | (none, _) => false

/-- The start of a declaration, as it is read on trial. -/
def declarationTrial (p : Parser) : Option DeclarationStart :=
  let q := (peek.runOn p).2
  (declarationStart.runOn (q.withSink q.session.sink.beginBuffer)).1

theorem declarationTrial_eq (p : Parser) : declarationTrial p = (declarationStart.runOn p).1 := by
  obtain ⟨result, q, reports, hmoved, hrun⟩ := relays_declarationStart (peek.runOn p).2
  have hplain := hrun (peek.runOn p).2.session.sink
  rw [Parser.withSink_self, peeksFirst_declarationStart] at hplain
  rw [declarationTrial, hrun, hplain]

/-- Where a declaration is tried, the trial begins after the first token has been looked at. -/
theorem runOn_declarationOrExpression {p : Parser} (h : triesDeclaration p = true) :
    declarationOrExpression.runOn p = ParserM.runOn (do
      match ← speculate declarationStart with
      | some start => localDeclarations start
      | none => expressionStatement) (peek.runOn p).2 := by
  obtain ⟨token, q, hpeek, -⟩ := exists_runOn_peek p
  rw [triesDeclaration, hpeek] at h
  have hconst : (token.kind == .kwConst) = false := by
    rw [beq_eq_false_iff_ne]
    intro hkind
    simp [startsType, hkind] at h
  rw [declarationOrExpression, runOn_bind, hpeek]
  dsimp only at h ⊢
  rw [hconst, if_neg Bool.false_ne_true, runOn_get_bind]
  exact congrArg (ParserM.runOn · _) (if_pos h)

/-- A trial that fails leaves no trace: what comes of the statement, and of everything the parser
knows, is what comes of reading an expression right away.  A trial that succeeds might as well not
have been one. -/
theorem trial_leaves_no_trace (p : Parser) (h : triesDeclaration p = true) :
    (declarationTrial p = none → declarationOrExpression.runOn p = expressionStatement.runOn p) ∧
    (∀ start, declarationTrial p = some start →
      declarationOrExpression.runOn p = (declarationStart >>= localDeclarations).runOn p) := by
  rw [declarationTrial_eq, runOn_declarationOrExpression h, runOn_bind, runOn_bind,
    relays_declarationStart.runOn_speculate, peeksFirst_declarationStart]
  rcases declarationStart.runOn p with ⟨_ | start, q⟩
  · exact ⟨fun _ => peeksFirst_expressionStatement p, fun _ hsome => (by cases hsome)⟩
  · exact ⟨fun hnone => (by cases hnone), fun _ _ => rfl⟩

/-- A parser that begins a text within a function, with an error held back in an open buffer. -/
def withinBuffer (text : String) : Parser :=
  let session := Session.start ⟨.fragment, .standard⟩ Library.root.modules false 0
  .start text.toList { session with
    symbols := session.symbols.push
    sink := ⟨[], [[⟨.point 0, .bareTypeName⟩]]⟩ }

theorem trial_leaves_no_trace_reservedWord :
    let failing := withinBuffer "float[goto];"
    let succeeding := withinBuffer "float goto;"
    triesDeclaration failing = true ∧ triesDeclaration succeeding = true ∧
      -- The trial that fails has reported an error after which nothing more is reported.
      declarationTrial failing = none ∧ (declarationStart.runOn failing).2.fatal = true ∧
      (declarationTrial succeeding).isSome = true ∧
      declarationOrExpression.runOn failing = expressionStatement.runOn failing ∧
      declarationOrExpression.runOn succeeding =
        (declarationStart >>= localDeclarations).runOn succeeding := by
  intro failing succeeding
  have htries : triesDeclaration failing = true := by decide +kernel
  have htries' : triesDeclaration succeeding = true := by decide +kernel
  have hfails : declarationTrial failing = none := Option.isNone_iff_eq_none.1 (by decide +kernel)
  have hsucceeds : (declarationTrial succeeding).isSome = true := by decide +kernel
  obtain ⟨start, hstart⟩ := Option.isSome_iff_exists.1 hsucceeds
  exact ⟨htries, htries', hfails, by decide +kernel, hsucceeds,
    (trial_leaves_no_trace failing htries).1 hfails,
    (trial_leaves_no_trace succeeding htries').2 start hstart⟩

end Grammar

end RasterShader
