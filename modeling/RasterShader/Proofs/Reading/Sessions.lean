import Mathlib
import RasterShader.Grammar.Program
import RasterShader.Proofs.Reading.Relays
import RasterShader.Proofs.Reading.Results
import RasterShader.Proofs.Typing.Naming

/-!
# What reading does to the session

A `SessionOrder` is a relation between a session and those it may turn into that does not mind
reports.  Steps that go along with it keep to it when they are put together (`SessionM.Keeps`,
`ParserM.Keeps`), and steps that do nothing but report (`ParserM.Relays`) keep to every such
relation.

Statements open scopes and declare names in them.  They leave alone what is outside of the scopes of
their function (`Session.Inside`), and a block that has come to its end has left the session as it
was, but for reports and fresh identities (`Session.Beside`).
-/

namespace RasterShader

namespace Sink

variable {α : Type}

@[simp] theorem length_buffers_report (sink : Sink α) (entry : α) :
    (sink.report entry).buffers.length = sink.buffers.length := by
  unfold report
  split <;> simp_all

@[simp] theorem length_buffers_reportAll (sink : Sink α) (entries : List α) :
    (sink.reportAll entries).buffers.length = sink.buffers.length := by
  unfold reportAll
  induction entries generalizing sink with
  | nil => rfl
  | cons entry entries ih => rw [List.foldl_cons, ih, length_buffers_report]

@[simp] theorem length_buffers_beginBuffer (sink : Sink α) :
    sink.beginBuffer.buffers.length = sink.buffers.length + 1 := rfl

@[simp] theorem length_buffers_discardBuffer (sink : Sink α) :
    sink.discardBuffer.buffers.length = sink.buffers.length - 1 := List.length_tail

end Sink

/-- A way in which one session may have come from another: it composes, and reports do not matter
to it. -/
class SessionOrder (R : Session → Session → Prop) : Prop where
  refl : ∀ s, R s s
  trans : ∀ {s s' s''}, R s s' → R s' s'' → R s s''
  sink : ∀ (s : Session) (sink : Sink Report),
    sink.buffers.length = s.sink.buffers.length → R s { s with sink }

namespace SessionM

variable {α β : Type}

/-- A step of the session takes it to one that it may have come to. -/
def Keeps (R : Session → Session → Prop) (x : SessionM α) : Prop := ∀ s, R s (x.run s).2

variable {R : Session → Session → Prop} [SessionOrder R]

/-- What the first step gives, the second may rely on. -/
theorem keeps_bind_of_gives {x : SessionM α} {f : α → SessionM β} {Q : α → Prop} (h : Keeps R x)
    (hx : x.Gives Q) (hf : ∀ a, Q a → Keeps R (f a)) : Keeps R (x >>= f) := fun s =>
  SessionOrder.trans (h s) (hf (x.run s).1 (hx s) (x.run s).2)

@[grind ←] theorem keeps_bind {x : SessionM α} {f : α → SessionM β} (h : Keeps R x)
    (hf : ∀ a, Keeps R (f a)) : Keeps R (x >>= f) :=
  keeps_bind_of_gives (Q := fun _ => True) h (fun _ => trivial) fun a _ => hf a

@[grind ←] theorem keeps_pure (a : α) : Keeps R (pure a : SessionM α) :=
  fun s => SessionOrder.refl s

@[grind ←] theorem keeps_get : Keeps R (get : SessionM Session) := fun s => SessionOrder.refl s

@[grind ←] theorem keeps_report (span : Span) (issue : Issue) : Keeps R (report span issue) :=
  fun s => SessionOrder.sink s _ (Sink.length_buffers_report _ _)

@[grind ←] theorem keeps_check (x : Checked α) : Keeps R (check x) :=
  fun s => SessionOrder.sink s _ (Sink.length_buffers_reportAll _ _)

@[grind ←] theorem keeps_refuse (span : Span) (issue : Issue) :
    Keeps R (refuse span issue : SessionM (Option α)) :=
  keeps_bind (keeps_report span issue) fun _ => keeps_pure none

@[grind ←] theorem keeps_forM {xs : List α} {f : α → SessionM PUnit} (h : ∀ x, Keeps R (f x)) :
    Keeps R (xs.forM f) := by
  induction xs with
  | nil => exact keeps_pure _
  | cons x xs ih => exact keeps_bind (h x) fun _ => ih

@[grind ←] theorem keeps_checkModifiers (modifiers : Modifiers) (permitted : ModifierFlags) :
    Keeps R (checkModifiers modifiers permitted) :=
  keeps_forM fun _ => keeps_report _ _

end SessionM

namespace ParserM

variable {α β σ : Type}

/-- A step takes the session to one that it may have come to. -/
def Keeps (R : Session → Session → Prop) (step : ParserM α) : Prop :=
  ∀ p, R p.session (step.runOn p).2.session

variable {R : Session → Session → Prop} [SessionOrder R] {step : ParserM α}

/-! ## Steps one after the other -/

/-- What the first step gives, the second may rely on. -/
theorem keeps_bind_of_gives {f : α → ParserM β} {Q : α → Prop} (h : Keeps R step)
    (hstep : step.Gives Q) (hf : ∀ a, Q a → Keeps R (f a)) : Keeps R (step >>= f) := by
  intro p
  have hkept := h p
  have hgiven := hstep p
  rw [runOn_bind]
  rcases hrun : step.runOn p with ⟨_ | a, q⟩ <;> rw [hrun] at hkept hgiven
  · exact hkept
  · exact SessionOrder.trans hkept (hf a (hgiven a rfl) q)

@[grind ←] theorem keeps_bind {f : α → ParserM β} (h : Keeps R step) (hf : ∀ a, Keeps R (f a)) :
    Keeps R (step >>= f) :=
  keeps_bind_of_gives h (gives_any step) fun a _ => hf a

@[grind ←] theorem keeps_map {g : α → β} (h : Keeps R step) : Keeps R (g <$> step) := by
  rw [map_eq_pure_bind]
  exact keeps_bind h fun _ _ => SessionOrder.refl _

@[grind ←] theorem keeps_pure (a : α) : Keeps R (pure a) := fun _ => SessionOrder.refl _

@[grind ←] theorem keeps_failure : Keeps R (failure : ParserM α) := fun _ => SessionOrder.refl _

@[grind ←] theorem keeps_ofOption (o : Option α) : Keeps R (ofOption o) :=
  fun _ => SessionOrder.refl _

@[grind ←] theorem keeps_get : Keeps R get := fun _ => SessionOrder.refl _

omit [SessionOrder R] in
theorem keeps_modify {f : Parser → Parser} (h : ∀ p, R p.session (f p).session) :
    Keeps R (modify f) := h

omit [SessionOrder R] in
theorem keeps_inSession {x : SessionM α} (h : x.Keeps R) : Keeps R (inSession x) :=
  fun p => h p.session

omit [SessionOrder R] in
@[grind ←] theorem keeps_attempt (h : Keeps R step) : Keeps R (attempt step) := fun p => by
  rw [runOn_attempt]
  exact h p

theorem keeps_ensuring {after : Parser → Parser} (h : Keeps R step)
    (hafter : ∀ p, R p.session (after p).session) : Keeps R (ensuring step after) := fun p => by
  rw [runOn_ensuring]
  exact SessionOrder.trans (h p) (hafter _)

omit [SessionOrder R] in
@[grind ←] theorem keeps_nested (h : Keeps R step) : Keeps R (nested step) := fun p => by
  rw [runOn_nested]
  exact h p

@[grind ←] theorem keeps_iterate {round : σ → ParserM (σ ⊕ α)} (h : ∀ a, Keeps R (round a))
    (fuel : Nat) (a : σ) : Keeps R (iterate round fuel a) := by
  induction fuel generalizing a with
  | zero => exact keeps_failure
  | succ fuel ih =>
    refine keeps_bind (h a) fun r => ?_
    cases r with
    | inl next => exact ih next
    | inr result => exact keeps_pure result

@[grind ←] theorem keeps_loop {round : σ → ParserM (σ ⊕ α)} (h : ∀ a, Keeps R (round a)) (a : σ) :
    Keeps R (loop a round) :=
  keeps_bind keeps_get fun _ => keeps_iterate h _ a

/-! ## Steps that only report -/

/-- A step that does nothing but report keeps the session as it may. -/
theorem Relays.keeps (h : Relays step) : Keeps R step := by
  intro p
  obtain ⟨result, q, reports, hmoved, hrun⟩ := h p
  have hrun := hrun p.session.sink
  rw [Parser.withSink_self] at hrun
  rw [hrun, Parser.withSink, hmoved.session]
  exact SessionOrder.sink _ _ (Sink.length_buffers_reportAll _ _)

@[grind ←] theorem keeps_check (x : Checked α) : Keeps R (check x) := (relays_check x).keeps

@[grind ←] theorem keeps_dialect : Keeps R dialect := relays_dialect.keeps

@[grind ←] theorem keeps_report (span : Span) (issue : Issue) : Keeps R (report span issue) :=
  (relays_report span issue).keeps

@[grind ←] theorem keeps_reportFatal (span : Span) (issue : Issue) :
    Keeps R (reportFatal span issue) :=
  (relays_reportFatal span issue).keeps

@[grind ←] theorem keeps_pushBack (token : Token) : Keeps R (pushBack token) :=
  (relays_pushBack token).keeps

@[grind ←] theorem keeps_nextRawToken : Keeps R nextRawToken := relays_nextRawToken.keeps

@[grind ←] theorem keeps_nextToken : Keeps R nextToken := relays_nextToken.keeps

@[grind ←] theorem keeps_peek : Keeps R peek := relays_peek.keeps

@[grind ←] theorem keeps_peekKind : Keeps R peekKind := relays_peekKind.keeps

@[grind ←] theorem keeps_accept? (kind : TokenKind) : Keeps R (accept? kind) :=
  (relays_accept? kind).keeps

@[grind ←] theorem keeps_accepts (kind : TokenKind) : Keeps R (accepts kind) :=
  (relays_accepts kind).keeps

@[grind ←] theorem keeps_expect (wanted : Wanted) : Keeps R (expect wanted) :=
  (relays_expect wanted).keeps

@[grind ←] theorem keeps_expectName : Keeps R expectName := relays_expectName.keeps

@[grind ←] theorem keeps_enter : Keeps R enter := relays_enter.keeps

end ParserM

namespace Grammar

open ParserM

variable {R : Session → Session → Prop} [SessionOrder R]

@[grind ←] theorem keeps_expression : Keeps R expression := relays_expression.keeps

@[grind ←] theorem keeps_assignment : Keeps R assignment := relays_assignment.keeps

@[grind ←] theorem keeps_modifiers : Keeps R modifiers := relays_modifiers.keeps

@[grind ←] theorem keeps_arraySuffix (base : Ty) : Keeps R (arraySuffix base) :=
  (relays_arraySuffix base).keeps

@[grind ←] theorem keeps_type : Keeps R type := relays_type.keeps

@[grind ←] theorem keeps_declarationStart : Keeps R declarationStart :=
  relays_declarationStart.keeps

/-- Names are declared as their kind of variable is, with initializers that are marked. -/
theorem keeps_declaratorStep {α : Type} (start : DeclarationStart) (declare : Declare α)
    (h : ∀ span modifiers ty name value, (∀ e ∈ value, e.Marked .read) →
      Keeps R (inSession (declare span modifiers ty name value))) (state : Token × List α) :
    Keeps R (declaratorStep start declare state) := by
  refine keeps_bind (keeps_arraySuffix _) fun ty => keeps_bind (keeps_accepts _) fun assigned => ?_
  have declared {value : Option Expr} (hvalue : ∀ e ∈ value, e.Marked .read) :
      Keeps R (declareName start declare state.1 state.2 ty value) := by
    refine keeps_bind (h _ _ _ _ _ hvalue) fun a => ?_
    grind
  dsimp only
  split
  · exact keeps_bind_of_gives (keeps_map keeps_assignment)
      (gives_map gives_assignment fun _ => forall_mem_some) fun _ => declared
  · exact declared forall_mem_none

theorem keeps_declarators {α : Type} (start : DeclarationStart) (declare : Declare α)
    (h : ∀ span modifiers ty name value, (∀ e ∈ value, e.Marked .read) →
      Keeps R (inSession (declare span modifiers ty name value))) :
    Keeps R (declarators start declare) := by
  rw [declarators_eq]
  refine keeps_bind (keeps_loop (keeps_declaratorStep start declare h) _) fun found => ?_
  grind

end Grammar

/-! ## Sessions within a function -/

/-- What a session keeps while the body of a function is read: everything but the scopes that are
open for it. -/
structure Session.Within (s s' : Session) : Prop where
  elements : s'.elements = s.elements
  modules : s'.modules = s.modules
  isBuiltin : s'.isBuiltin = s.isBuiltin
  below : s'.symbols.below = s.symbols.below
  global : s'.symbols.layer.global = s.symbols.layer.global
  outer : s'.symbols.layer.inner.tail = s.symbols.layer.inner.tail
  open_ : s'.symbols.layer.inner ≠ []
  nextId : s.nextId ≤ s'.nextId
  buffers : s'.sink.buffers.length = s.sink.buffers.length

/-- As long as a scope of a function is open, the session keeps what is outside. -/
def Session.Inside (s s' : Session) : Prop := s.symbols.layer.inner ≠ [] → s.Within s'

open Session

instance : SessionOrder Inside where
  refl _ hopen := ⟨rfl, rfl, rfl, rfl, rfl, rfl, hopen, le_rfl, rfl⟩
  trans h h' hopen := by
    have hs := h hopen
    have hs' := h' hs.open_
    exact ⟨hs'.elements.trans hs.elements, hs'.modules.trans hs.modules,
      hs'.isBuiltin.trans hs.isBuiltin, hs'.below.trans hs.below, hs'.global.trans hs.global,
      hs'.outer.trans hs.outer, hs'.open_, hs.nextId.trans hs'.nextId,
      hs'.buffers.trans hs.buffers⟩
  sink _ _ hbuffers hopen := ⟨rfl, rfl, rfl, rfl, rfl, rfl, hopen, le_rfl, hbuffers⟩

namespace SessionM

@[grind ←] theorem inside_freshId : Keeps Inside freshId :=
  fun _ hopen => ⟨rfl, rfl, rfl, rfl, rfl, rfl, hopen, Nat.le_succ _, rfl⟩

@[grind ←] theorem inside_declare (span : Span) (name : String) (symbol : Symbol) :
    Keeps Inside (declare span name symbol) := by
  intro s hopen
  rw [run_declare]
  split
  · exact SessionOrder.sink (R := Inside) s _ (Sink.length_buffers_report _ _) hopen
  · obtain ⟨scope, outer, hinner⟩ := List.exists_cons_of_ne_nil hopen
    refine ⟨rfl, rfl, rfl, rfl, ?_, ?_, ?_, le_rfl, rfl⟩ <;>
      simp [SymbolTable.put, Layer.modifyCurrent, hinner]

end SessionM

/-- Parameters are declared in the scope that is opened for them. -/
theorem Typing.within_openFunction (s : Session) (f : FunctionDecl) :
    { s with symbols := s.symbols.push }.Within ((openFunction f).run s).2 := by
  have parameters : SessionM.Keeps Inside (f.parameters.forM fun p => do
      if !p.name.isEmpty then
        let _ ← SessionM.declare p.span p.name (.value p none)) :=
    SessionM.keeps_forM fun p => by grind
  have within := parameters { s with function := some f, symbols := s.symbols.push }
    (List.cons_ne_nil _ _)
  exact ⟨within.elements, within.modules, within.isBuiltin, within.below, within.global,
    within.outer, within.open_, within.nextId, within.buffers⟩

/-- A variable takes a fresh identity and a name. -/
theorem Typing.keeps_declareVariable {R : Session → Session → Prop} [SessionOrder R]
    (hfresh : SessionM.freshId.Keeps R)
    (hdeclare : ∀ span name v init, (SessionM.declare span name (.value v init)).Keeps R)
    (span : Span) (modifiers : Modifiers) (ty : Ty) (name : String) (value : Option Expr)
    (storage : Storage) :
    (declareVariable span modifiers ty name value storage).Keeps R := by
  refine SessionM.keeps_bind SessionM.keeps_get fun s => ?_
  refine SessionM.keeps_bind (SessionM.keeps_checkModifiers _ _) fun _ => ?_
  refine SessionM.keeps_bind (SessionM.keeps_check _) fun ok => ?_
  grind

/-! ## Names and functions -/

section

variable {R : Session → Session → Prop} [SessionOrder R]

/-- To declare a name changes the names in scope. -/
theorem SessionM.keeps_declare (hsymbols : ∀ f, (modifySymbols f).Keeps R) (span : Span)
    (name : String) (symbol : Symbol) : (declare span name symbol).Keeps R := by
  refine keeps_bind keeps_get fun s => ?_
  split
  · exact keeps_bind (hsymbols fun _ => _) fun _ => keeps_pure _
  · exact keeps_bind (keeps_report _ _) fun _ => keeps_pure _

namespace Typing

open SessionM

theorem keeps_settle (hsymbols : ∀ f, (modifySymbols f).Keeps R) (span : Span)
    (decl : FunctionDecl) (isDefinition : Bool) (earlier : List FunctionDecl) :
    (settle span decl isDefinition earlier).Keeps R := by
  induction earlier with
  | nil =>
    refine keeps_bind keeps_get fun s => ?_
    split
    · exact keeps_bind (hsymbols fun _ => _) fun _ => keeps_pure _
    · exact keeps_refuse _ _
  | cons e earlier ih =>
    refine keeps_bind keeps_get fun s => ?_
    split <;> grind

/-- To declare a function takes a fresh identity and changes the names in scope. -/
theorem keeps_declareFunction (hsymbols : ∀ f, (modifySymbols f).Keeps R)
    (hfresh : freshId.Keeps R) (span : Span) (modifiers : Modifiers) (returns : Ty)
    (name : String) (parameters : List Variable) (isDefinition : Bool) :
    (declareFunction span modifiers returns name parameters isDefinition).Keeps R := by
  have := keeps_settle hsymbols
  refine keeps_bind keeps_get fun s => keeps_bind (keeps_checkModifiers _ _) fun _ => ?_
  refine keeps_bind (keeps_check _) fun ok => ?_
  grind

end Typing

end

/-- What a session keeps while something is read that is done when it is left again: everything but
reports, settings and the like. -/
structure Session.Beside (s s' : Session) : Prop where
  elements : s'.elements = s.elements
  modules : s'.modules = s.modules
  isBuiltin : s'.isBuiltin = s.isBuiltin
  below : s'.symbols.below = s.symbols.below
  global : s'.symbols.layer.global = s.symbols.layer.global
  inner : s'.symbols.layer.inner = s.symbols.layer.inner
  nextId : s.nextId ≤ s'.nextId
  buffers : s'.sink.buffers.length = s.sink.buffers.length

instance : SessionOrder Beside where
  refl _ := ⟨rfl, rfl, rfl, rfl, rfl, rfl, le_rfl, rfl⟩
  trans h h' := ⟨h'.elements.trans h.elements, h'.modules.trans h.modules,
    h'.isBuiltin.trans h.isBuiltin, h'.below.trans h.below, h'.global.trans h.global,
    h'.inner.trans h.inner, h.nextId.trans h'.nextId, h'.buffers.trans h.buffers⟩
  sink _ _ hbuffers := ⟨rfl, rfl, rfl, rfl, rfl, rfl, le_rfl, hbuffers⟩

@[grind ←] theorem SessionM.beside_freshId : SessionM.Keeps Beside SessionM.freshId :=
  fun _ => ⟨rfl, rfl, rfl, rfl, rfl, rfl, Nat.le_succ _, rfl⟩

theorem Typing.beside_parameter (span : Span) (modifiers : Modifiers) (ty : Ty) (name : String) :
    SessionM.Keeps Beside (parameter span modifiers ty name) := by
  unfold parameter
  grind

namespace Session

/-- A scope that was opened is closed again. -/
theorem Within.pop {s s' : Session} (h : { s with symbols := s.symbols.push }.Within s') :
    s.Beside { s' with symbols := s'.symbols.pop } :=
  ⟨h.elements, h.modules, h.isBuiltin, h.below, h.global, h.outer, h.nextId, h.buffers⟩

/-- A function that was opened is closed again. -/
theorem Within.closeFunction {s s' : Session} (h : { s with symbols := s.symbols.push }.Within s') :
    s.Beside (Typing.closeFunction.run s').2 :=
  ⟨h.elements, h.modules, h.isBuiltin, h.below, h.global, h.outer, h.nextId, h.buffers⟩

/-- When a function is finished it is left, perhaps with a report, and its definition is added. -/
theorem exists_run_finishFunction (s : Session) (f : FunctionDecl) (body : Stmt) :
    ∃ s', (Typing.closeFunction.run s).2.Beside s' ∧ ((Typing.finishFunction f body).run s).2 =
      ((SessionM.addElement (.function ⟨f, body⟩)).run s').2 := by
  by_cases hreturn : (!f.returnType.isVoid && body.canExitWithoutReturning) = true
  · refine ⟨((SessionM.report f.span (.missingReturn f.name)).run
      (Typing.closeFunction.run s).2).2, SessionM.keeps_report _ _ _, ?_⟩
    simp only [Typing.finishFunction, hreturn]
    rfl
  · refine ⟨(Typing.closeFunction.run s).2, SessionOrder.refl _, ?_⟩
    simp only [Typing.finishFunction, hreturn]
    rfl

/-- A buffer for reports that was opened is closed again. -/
theorem Beside.ofBuffer {s s' : Session} (h : { s with sink := s.sink.beginBuffer }.Beside s')
    {sink : Sink Report} (hsink : sink.buffers.length = s'.sink.buffers.length - 1) :
    s.Beside { s' with sink } :=
  ⟨h.elements, h.modules, h.isBuiltin, h.below, h.global, h.inner, h.nextId, by
    rw [hsink, h.buffers, Sink.length_buffers_beginBuffer, Nat.add_sub_cancel]⟩

theorem Beside.inside {s s' : Session} (h : s.Beside s') : Inside s s' := fun hopen =>
  ⟨h.elements, h.modules, h.isBuiltin, h.below, h.global, by rw [h.inner], h.inner ▸ hopen,
    h.nextId, h.buffers⟩

end Session

namespace ParserM

variable {α : Type} {step : ParserM α}

theorem beside_inScope (h : Keeps Inside step) : Keeps Beside (inScope step) := by
  intro p
  rw [inScope, runOn_bind]
  show Beside p.session (ParserM.runOn (ensuring step _)
    { p with session.symbols := p.session.symbols.push }).2.session
  rw [runOn_ensuring]
  exact (h { p with session.symbols := p.session.symbols.push } (List.cons_ne_nil _ _)).pop

@[grind ←] theorem inside_inScope (h : Keeps Inside step) : Keeps Inside (inScope step) :=
  fun p => (beside_inScope h p).inside

end ParserM

namespace Grammar

open ParserM

/-! ## Statements -/

@[grind ←] theorem inside_localDeclarations (start : DeclarationStart) :
    Keeps Inside (localDeclarations start) := by
  refine keeps_bind (keeps_declarators start _ fun _ _ _ _ _ _ => ?_) fun statements => ?_
  · exact keeps_inSession (Typing.keeps_declareVariable SessionM.inside_freshId
      (fun _ _ _ _ => SessionM.inside_declare _ _ _) _ _ _ _ _ _)
  · grind

@[grind ←] theorem keeps_expressionStatement {R : Session → Session → Prop} [SessionOrder R] :
    Keeps R expressionStatement := by
  unfold expressionStatement
  grind

@[grind ←] theorem inside_declarationOrExpression : Keeps Inside declarationOrExpression := by
  have start : Keeps Inside (speculate declarationStart) :=
    (relays_speculate relays_declarationStart).keeps
  refine keeps_bind keeps_peek fun token => ?_
  grind

@[grind ←] theorem keeps_condition {R : Session → Session → Prop} [SessionOrder R] :
    Keeps R condition := by
  unfold condition
  grind

@[grind ←] theorem keeps_expressionUnless {R : Session → Session → Prop} [SessionOrder R]
    (kind : TokenKind) : Keeps R (expressionUnless kind) := by
  unfold expressionUnless
  grind

section

variable {inner : ParserM Stmt}

@[grind ←] theorem inside_blockContents (h : Keeps Inside inner) (opening : Token) :
    Keeps Inside (blockContents inner opening) := by
  refine keeps_loop (fun found => keeps_bind keeps_peek fun token => ?_) _
  split
  · grind
  · grind
  · refine keeps_bind keeps_get fun p => keeps_bind (keeps_attempt h) fun result => ?_
    grind

/-- A block leaves everything as it was but what is inside of it. -/
theorem beside_block (h : Keeps Inside inner) : Keeps Beside (block inner) := by
  refine keeps_nested (keeps_bind (keeps_expect _) fun opening => ?_)
  refine keeps_bind keeps_enter fun _ => ?_
  exact beside_inScope (inside_blockContents h opening)

@[grind ←] theorem inside_block (h : Keeps Inside inner) : Keeps Inside (block inner) :=
  fun p => (beside_block h p).inside

theorem inside_ifStatement (h : Keeps Inside inner) : Keeps Inside (ifStatement inner) := by
  refine keeps_bind keeps_nextToken fun start => keeps_bind keeps_condition fun test => ?_
  refine keeps_bind h fun ifTrue => ?_
  grind

@[grind ←] theorem inside_loopBody (h : Keeps Inside inner) : Keeps Inside (loopBody inner) := by
  refine keeps_bind (keeps_modify fun p hopen => ?_) fun _ => keeps_ensuring h fun p hopen => ?_ <;>
    exact ⟨rfl, rfl, rfl, rfl, rfl, rfl, hopen, le_rfl, rfl⟩

theorem inside_forStatement (h : Keeps Inside inner) : Keeps Inside (forStatement inner) := by
  refine keeps_bind keeps_nextToken fun start => keeps_bind (keeps_expect _) fun _ => ?_
  refine inside_inScope (keeps_bind (keeps_accepts _) fun empty => ?_)
  cases empty
  · refine keeps_bind (keeps_map inside_declarationOrExpression) fun initializer => ?_
    refine keeps_bind (keeps_expressionUnless _) fun test => keeps_bind (keeps_expect _) fun _ => ?_
    grind
  · refine keeps_bind (keeps_pure none) fun initializer => ?_
    refine keeps_bind (keeps_expressionUnless _) fun test => keeps_bind (keeps_expect _) fun _ => ?_
    grind

theorem inside_whileStatement (h : Keeps Inside inner) : Keeps Inside (whileStatement inner) := by
  refine keeps_bind keeps_nextToken fun start => ?_
  grind

theorem inside_doStatement (h : Keeps Inside inner) : Keeps Inside (doStatement inner) := by
  refine keeps_bind keeps_nextToken fun start => keeps_bind (inside_loopBody h) fun body => ?_
  grind

theorem inside_caseBody (h : Keeps Inside inner) : Keeps Inside (caseBody inner) := by
  rw [caseBody_eq]
  refine keeps_loop (fun found => ?_) _
  unfold caseStep
  grind

theorem inside_switchCases (h : Keeps Inside inner) : Keeps Inside (switchCases inner) := by
  have body := inside_caseBody h
  rw [switchCases_eq]
  refine keeps_bind (keeps_loop (fun found => ?_) _) fun cases => ?_
  · unfold switchStep
    grind
  · grind

theorem inside_switchStatement (h : Keeps Inside inner) : Keeps Inside (switchStatement inner) := by
  refine keeps_bind keeps_nextToken fun start => keeps_bind keeps_condition fun value => ?_
  refine keeps_bind (keeps_expect _) fun _ => ?_
  refine keeps_bind (keeps_modify fun p hopen => ?_) fun _ => ?_
  · exact ⟨rfl, rfl, rfl, rfl, rfl, rfl, hopen, le_rfl, rfl⟩
  · refine keeps_bind (keeps_ensuring (inside_inScope (inside_switchCases h)) fun p hopen => ?_) ?_
    · exact ⟨rfl, rfl, rfl, rfl, rfl, rfl, hopen, le_rfl, rfl⟩
    · grind

theorem inside_statementOf (h : Keeps Inside inner) : Keeps Inside (statementOf inner) := by
  refine keeps_nested (keeps_bind keeps_enter fun _ => keeps_bind keeps_peek fun token => ?_)
  unfold returnStatement jumpStatement
  have := inside_ifStatement h
  have := inside_forStatement h
  have := inside_whileStatement h
  have := inside_doStatement h
  have := inside_switchStatement h
  split <;> grind

end

theorem inside_statement : Keeps Inside statement := by
  have at_ (n : Nat) : Keeps Inside (statementAt n) := by
    induction n with
    | zero => exact keeps_failure
    | succ n ih => exact inside_statementOf ih
  exact at_ _

end Grammar

end RasterShader
