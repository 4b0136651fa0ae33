import Mathlib
import RasterShader.Proofs.Reading.Sessions
import RasterShader.Proofs.Reading.Termination

/-!
# What holds of every session

A source text acts on the session by its declarations alone.  A property that the declaration of a
name, of a function and of an element keeps, and that does not mind reports and fresh identities
(`Session.Invariant`), holds of the session after a source text if it held before
(`Session.Invariant.readChars`).  It may rely on the references of every element that is added being
marked.

The definition of a function takes two steps: its declaration, and the element that is added when
its body has been read.  What the first step brings about for the second is the invariant's
`Pending`.
-/

namespace RasterShader

open ParserM Session

/-- A property of sessions that every declaration keeps.  `Pending f` is what holds in addition when
the definition of `f` has been announced and its body is still to come. -/
structure Session.Invariant (I : Session → Prop) (Pending : FunctionDecl → Session → Prop) :
    Prop where
  beside : ∀ {s s'}, I s → s.Beside s' → I s'
  pending_beside : ∀ {f s s'}, Pending f s → s.Beside s' → Pending f s'
  of_pending : ∀ {f s}, Pending f s → I s
  declare : ∀ span name symbol, (∀ fs, symbol ≠ .functions fs) →
    (SessionM.declare span name symbol).Keeps fun s s' => I s → I s'
  declareFunction : ∀ span modifiers returns name parameters isDefinition,
    (Typing.declareFunction span modifiers returns name parameters isDefinition).Keeps
      fun s s' => I s → I s'
  pending : ∀ {span modifiers returns name parameters s s' f}, I s →
    (Typing.declareFunction span modifiers returns name parameters true).run s = (some f, s') →
    Pending f s'
  addElement : ∀ e : Element, e.definition? = none → e.Marked →
    (SessionM.addElement e).Keeps fun s s' => I s → I s'
  addFunction : ∀ {f s} {body : Stmt}, body.Marked → Pending f s →
    I ((SessionM.addElement (.function ⟨f, body⟩)).run s).2

section

variable {I : Session → Prop} {Pending : FunctionDecl → Session → Prop}

/-- To keep a property is a way of coming from one session to another. -/
theorem sessionOrder_of_invariant (h : Session.Invariant I Pending) :
    SessionOrder fun s s' => I s → I s' where
  refl _ := id
  trans h h' := h' ∘ h
  sink s sink hbuffers hs := h.beside hs (SessionOrder.sink s sink hbuffers)

end

/-! ## Declarations of variables and types -/

namespace Typing

open SessionM

variable {I : Session → Prop} {Pending : FunctionDecl → Session → Prop}

theorem keeps_freshId (h : Session.Invariant I Pending) :
    freshId.Keeps fun s s' => I s → I s' := fun s hs => h.beside hs (beside_freshId s)

theorem keeps_declareGlobal (h : Session.Invariant I Pending) (span : Span)
    (modifiers : Modifiers) (ty : Ty) (name : String) {value : Option Expr}
    (hvalue : ∀ e ∈ value, e.Marked .read) :
    (declareGlobal span modifiers ty name value).Keeps fun s s' => I s → I s' := by
  have := sessionOrder_of_invariant h
  refine keeps_bind_of_gives ?_ (Grammar.gives_declareVariable hvalue _ _ _ _ _)
    fun statement hstatement => ?_
  · exact keeps_declareVariable (keeps_freshId h) (fun _ _ _ _ => h.declare _ _ _ nofun) _ _ _ _ _ _
  · cases hstatement with
    | declare span v hvalue => exact h.addElement _ rfl hvalue
    | _ => exact keeps_pure _

theorem keeps_declareStruct (h : Session.Invariant I Pending) (span : Span) (name : String)
    (members : List Field) :
    (declareStruct span name members).Keeps fun s s' => I s → I s' := by
  have := sessionOrder_of_invariant h
  have added := h.addElement (.struct span (.struct name members false)) rfl trivial
  have declared := h.declare span name (.type (.struct name members false)) nofun
  unfold declareStruct
  grind

theorem keeps_declareMembers (h : Session.Invariant I Pending) (owner : Variable)
    (members : List (Field × Nat)) :
    (declareMembers owner members).Keeps fun s s' => I s → I s' := by
  have := sessionOrder_of_invariant h
  induction members with
  | nil => exact keeps_pure _
  | cons member members ih =>
    have declared := h.declare member.1.span member.1.name (.member owner member.2) nofun
    unfold declareMembers
    grind

theorem keeps_declareBlock (h : Session.Invariant I Pending) (span : Span) (modifiers : Modifiers)
    (typeName : String) (members : List Field) (instanceName : String) (size : Option Nat) :
    (declareBlock span modifiers typeName members instanceName size).Keeps
      fun s s' => I s → I s' := by
  have := sessionOrder_of_invariant h
  have added (v : Variable) :=
    h.addElement (.interfaceBlock span v typeName instanceName) rfl trivial
  have declared (v : Variable) := h.declare span instanceName (.value v none) nofun
  have := keeps_declareMembers h
  have := keeps_freshId h
  refine keeps_bind keeps_get fun s => ?_
  dsimp only
  grind

end Typing

/-! ## The grammar of programs -/

namespace Grammar

open ParserM

variable {I : Session → Prop} {Pending : FunctionDecl → Session → Prop}

/-- What is done beside declarations keeps the property. -/
theorem keeps_of_beside {α : Type} {step : ParserM α} (h : Session.Invariant I Pending)
    (hstep : Keeps Beside step) : Keeps (fun s s' => I s → I s') step :=
  fun p hp => h.beside hp (hstep p)

theorem beside_versionDirective (token : Token) : Keeps Beside (versionDirective token) := by
  have restrict : Keeps Beside
      (modify fun p => { p with session.dialect.settings.enforceEs2 := true }) :=
    keeps_modify fun p => ⟨rfl, rfl, rfl, rfl, rfl, rfl, le_rfl, rfl⟩
  refine keeps_bind (keeps_expect _) fun number => ?_
  dsimp only
  split
  · grind
  · refine keeps_bind keeps_dialect fun _ => ?_
    split
    · grind
    · refine keeps_bind keeps_peek fun next => ?_
      grind

theorem keeps_directive (h : Session.Invariant I Pending) (first : Bool) :
    Keeps (fun s s' => I s → I s') (directive first) := by
  have := sessionOrder_of_invariant h
  have version (token : Token) := keeps_of_beside h (beside_versionDirective token)
  have extension_ (token : Token) : Keeps (fun s s' => I s → I s') (extensionDirective token) := by
    refine keeps_bind (keeps_expect _) fun name => keeps_bind (keeps_expect _) fun _ => ?_
    refine keeps_bind (keeps_expect _) fun behavior => keeps_bind keeps_nextRawToken fun after => ?_
    refine keeps_bind (keeps_pushBack _) fun _ => ?_
    split
    · exact keeps_inSession (h.addElement _ rfl trivial)
    · exact keeps_report _ _
  refine keeps_bind keeps_nextToken fun token => ?_
  grind

theorem keeps_fields {R : Session → Session → Prop} [SessionOrder R] : Keeps R fields := by
  have names (modifiers : Modifiers) (base : Ty) (found : List Field) :
      Keeps R (fieldNames modifiers base found) := by
    rw [fieldNames_eq]
    refine keeps_loop (fun found => ?_) found
    refine keeps_bind keeps_expectName fun name => keeps_bind (keeps_arraySuffix _) fun ty => ?_
    refine keeps_bind (keeps_accept? _) fun value => ?_
    grind
  rw [fields_eq]
  refine keeps_loop (fun found => ?_) _
  unfold fieldStep
  grind

theorem keeps_globalDeclarations (h : Session.Invariant I Pending) (start : DeclarationStart) :
    Keeps (fun s s' => I s → I s') (globalDeclarations start) := by
  have := sessionOrder_of_invariant h
  refine keeps_bind (keeps_declarators start _ fun _ _ _ _ _ hvalue => ?_) fun _ => keeps_pure _
  exact keeps_inSession (Typing.keeps_declareGlobal h _ _ _ _ hvalue)

theorem keeps_structDeclaration (h : Session.Invariant I Pending) (modifiers : Modifiers) :
    Keeps (fun s s' => I s → I s') (structDeclaration modifiers) := by
  have := sessionOrder_of_invariant h
  have global := keeps_globalDeclarations h
  refine keeps_bind (keeps_nested ?_) fun ty => ?_
  · refine keeps_bind keeps_nextToken fun start => keeps_bind keeps_expectName fun name => ?_
    refine keeps_bind (keeps_expect _) fun _ => keeps_bind keeps_enter fun _ => ?_
    refine keeps_bind keeps_fields fun found => ?_
    refine keeps_bind (keeps_inSession (Typing.keeps_declareStruct h _ _ _)) fun _ => ?_
    exact keeps_ofOption _
  · grind

theorem keeps_interfaceBlock (h : Session.Invariant I Pending) (modifiers : Modifiers) :
    Keeps (fun s s' => I s → I s') (interfaceBlock modifiers) := by
  have := sessionOrder_of_invariant h
  have count : Keeps (fun s s' => I s → I s') instanceCount := by
    unfold instanceCount
    grind
  refine keeps_bind keeps_nextToken fun typeName => keeps_bind (keeps_accepts _) fun brace => ?_
  split
  · exact keeps_bind (keeps_report _ _) fun _ => keeps_failure
  · refine keeps_bind keeps_fields fun found => keeps_bind (keeps_accept? _) fun name => ?_
    cases name with
    | some name =>
      refine keeps_bind count fun size => keeps_bind (keeps_expect _) fun _ => ?_
      exact keeps_inSession (Typing.keeps_declareBlock h _ _ _ _ _ _)
    | none =>
      refine keeps_bind (keeps_expect _) fun _ => ?_
      exact keeps_inSession (Typing.keeps_declareBlock h _ _ _ _ _ _)

/-! ## Functions -/

/-- The kind of the next token is that of a token that is pushed back then. -/
theorem exists_runOn_peekKind (p : Parser) :
    ∃ (t : Token) (q : Parser),
      peekKind.runOn p = (some t.kind, { q with pushback := some t }) := by
  obtain ⟨t, q, hrun, -⟩ := exists_runOn_peek p
  refine ⟨t, q, ?_⟩
  rw [peekKind, runOn_bind, hrun]
  rfl

/-- A semicolon that is pushed back is the next token. -/
theorem runOn_accepts_of_pushback {p : Parser} {t : Token} (hpush : p.pushback = some t)
    (ht : t.kind = .semicolon) :
    ((accepts .semicolon).runOn p).1 = some true := by
  have hpeek := runOn_peek_of_pushback hpush (by rw [ht]; rfl)
  have haccept : (accept? .semicolon).runOn p = (some (some t), { p with pushback := none }) := by
    rw [accept?, runOn_bind, hpeek]
    dsimp only
    rw [if_pos (by simp [ht])]
    rfl
  rw [accepts, runOn_bind, haccept]
  rfl

theorem keeps_parameters (h : Session.Invariant I Pending) :
    Keeps (fun s s' => I s → I s') parameters := by
  have := sessionOrder_of_invariant h
  rw [parameters_eq]
  have round (found : List (Option Variable)) :
      Keeps (fun s s' => I s → I s') (parameterStep found) := by
    have one : Keeps Beside parameter :=
      keeps_bind keeps_declarationStart fun start => keeps_bind (keeps_arraySuffix _) fun ty =>
        keeps_inSession (Typing.beside_parameter _ _ _ _)
    refine keeps_bind (keeps_of_beside h one) fun found => ?_
    grind
  grind

/-- The body of a function whose definition is pending. -/
theorem invariant_functionBody (h : Session.Invariant I Pending) {f : FunctionDecl} {p : Parser}
    (hp : Pending f p.session) : I ((functionBody f).runOn p).2.session := by
  have hopen := Typing.within_openFunction p.session f
  have hbody := inside_block inside_statement
    { p with session := ((Typing.openFunction f).run p.session).2 } hopen.open_
  have within := SessionOrder.trans (R := Inside) (fun _ => hopen) (fun _ => hbody)
    (List.cons_ne_nil _ _)
  rw [functionBody, runOn_bind]
  show I (ParserM.runOn (attempt (block statement) >>= _)
    { p with session := ((Typing.openFunction f).run p.session).2 }).2.session
  rw [runOn_bind, runOn_attempt]
  have marked := gives_block gives_statement
    { p with session := ((Typing.openFunction f).run p.session).2 }
  rcases hrun : (block statement).runOn
    { p with session := ((Typing.openFunction f).run p.session).2 } with ⟨_ | body, q⟩ <;>
    rw [hrun] at within marked
  · exact h.beside (h.of_pending hp) within.closeFunction
  · obtain ⟨s', beside, hfinish⟩ := exists_run_finishFunction q.session f body
    show I ((Typing.finishFunction f body).run q.session).2
    rw [hfinish]
    exact h.addFunction (marked body rfl)
      (h.pending_beside hp (SessionOrder.trans within.closeFunction beside))

/-- The body of a function whose declaration failed is left as if it had not been there. -/
theorem beside_skippedBody : Keeps Beside skippedBody := by
  intro p
  let p' : Parser := { p with session.sink := p.session.sink.beginBuffer }
  have beside := beside_inScope (inside_block inside_statement) p'
  have hrun : (skippedBody.runOn p).2.session =
      { ((inScope (block statement)).runOn p').2.session with
        sink := ((inScope (block statement)).runOn p').2.session.sink.discardBuffer } := by
    rw [skippedBody, runOn_bind]
    show (ParserM.runOn (attempt (inScope (block statement)) >>= _) _).2.session = _
    rw [runOn_bind, runOn_attempt]
    rfl
  rw [hrun]
  exact beside.ofBuffer (Sink.length_buffers_discardBuffer _)

theorem invariant_functionEnd (h : Session.Invariant I Pending) {decl : Option FunctionDecl}
    {p : Parser} (hp : I p.session)
    (hdecl : ∀ f, decl = some f →
      Pending f p.session ∨ ∃ t, p.pushback = some t ∧ t.kind = .semicolon) :
    I ((functionEnd decl).runOn p).2.session := by
  have beside := keeps_accepts (R := Beside) .semicolon p
  have hsemicolon (t : Token) (hpush : p.pushback = some t) (ht : t.kind = .semicolon) :=
    runOn_accepts_of_pushback hpush ht
  unfold functionEnd
  rw [runOn_bind]
  rcases hrun : (accepts .semicolon).runOn p with ⟨_ | _ | _, q⟩ <;> rw [hrun] at beside
  · exact h.beside hp beside
  · cases hsome : decl with
    | none => exact keeps_of_beside h beside_skippedBody q (h.beside hp beside)
    | some f =>
      obtain hpending | ⟨t, hpush, ht⟩ := hdecl f hsome
      · exact invariant_functionBody h (h.pending_beside hpending beside)
      · have hfirst := hsemicolon t hpush ht
        rw [hrun] at hfirst
        cases hfirst
  · cases decl with
    | none => exact h.beside hp beside
    | some f => exact h.addElement (.prototype f) rfl trivial q.session (h.beside hp beside)

theorem keeps_function (h : Session.Invariant I Pending) (modifiers : Modifiers) (returns : Ty)
    (name : Token) : Keeps (fun s s' => I s → I s') (function modifiers returns name) := by
  have := sessionOrder_of_invariant h
  rw [function_eq]
  refine keeps_bind (keeps_parameters h) fun found => keeps_bind (keeps_expect _) fun close => ?_
  intro p hp
  obtain ⟨t, q, hpeek⟩ := exists_runOn_peekKind p
  have beside := keeps_peekKind (R := Beside) p
  rw [runOn_bind, hpeek]
  rw [hpeek] at beside
  dsimp only at beside ⊢
  have hq := h.beside hp beside
  split
  · let declare := Typing.declareFunction (modifiers.span.join (name.spanTo close)) modifiers
      returns name.text (found.filterMap id) (t.kind != .semicolon)
    show I ((functionEnd (declare.run q.session).1).runOn
      { q with pushback := some t, session := (declare.run q.session).2 }).2.session
    refine invariant_functionEnd h (h.declareFunction _ _ _ _ _ _ q.session hq) fun f hf => ?_
    by_cases ht : t.kind = .semicolon
    · exact .inr ⟨t, rfl, ht⟩
    · have hdefinition : (t.kind != .semicolon) = true := by simpa using ht
      have hrun : (Typing.declareFunction (modifiers.span.join (name.spanTo close)) modifiers
          returns name.text (found.filterMap id) true).run q.session =
            (some f, (declare.run q.session).2) := by
        rw [← hdefinition]
        exact Prod.ext hf rfl
      exact .inl (h.pending hq hrun)
  · show I ((functionEnd none).runOn { q with pushback := some t }).2.session
    exact invariant_functionEnd h hq (by simp)

/-! ## Whole sources -/

theorem keeps_typedDeclaration (h : Session.Invariant I Pending) (modifiers : Modifiers) :
    Keeps (fun s s' => I s → I s') (typedDeclaration modifiers) := by
  have := sessionOrder_of_invariant h
  have := keeps_function h
  have := keeps_globalDeclarations h
  unfold typedDeclaration
  grind

theorem keeps_declaration (h : Session.Invariant I Pending) :
    Keeps (fun s s' => I s → I s') declaration := by
  have := sessionOrder_of_invariant h
  have := keeps_typedDeclaration h
  have := keeps_structDeclaration h
  have := keeps_interfaceBlock h
  refine keeps_bind keeps_peek fun token => ?_
  split
  · grind
  · refine keeps_bind keeps_modifiers fun modifiers => keeps_bind keeps_peek fun token => ?_
    grind

theorem keeps_declarations (h : Session.Invariant I Pending) :
    Keeps (fun s s' => I s → I s') declarations := by
  have := sessionOrder_of_invariant h
  have := keeps_directive h
  have := keeps_declaration h
  rw [declarations_eq]
  refine keeps_loop (fun first => keeps_bind keeps_peek fun token => ?_) true
  split <;> grind

end Grammar

/-- What every declaration keeps, reading a source keeps. -/
theorem Session.Invariant.readChars {I : Session → Prop} {Pending : FunctionDecl → Session → Prop}
    (h : Session.Invariant I Pending) {session : Session} (hsession : I session)
    (source : List Char) : I (session.readChars source) :=
  Grammar.keeps_declarations h (.start source session) hsession

end RasterShader
