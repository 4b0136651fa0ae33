import Mathlib
import RasterShader.Grammar.Program
import RasterShader.Proofs.Reading.Rounds

/-!
# Reading comes to an end

The rules for directives, declarations and functions are treated as those for statements are, and
then everything is put together: whatever the source, reading it ends, no loop does so for want of
rounds, and no recursion for want of depth other than the limit that is reported.  The grammar
gives its loops as many rounds as the source has characters and its recursion as many as there are
levels of nesting; `reading_terminates` says that these numbers are never what stops it.
-/

namespace RasterShader

namespace Grammar

open ParserM

variable {lo hi : Nat} {deep : Bool}

/-! ## Directives -/

theorem advances_versionDirective (token : Token) :
    Advances lo hi deep (versionDirective token) fun _ => False := by
  refine (advances_expect (by decide)).bind_used fun number => ?_
  dsimp only
  split
  · exact advances_still (still_report _ _)
  · rename_i version _
    have restricted : Advances lo hi deep (if (version == .v100) = true then
        modify fun p => { p with session.dialect.settings.enforceEs2 := true }
        else pure ()) fun _ => False := by
      split
      · exact advances_still (still_modify fun p => ⟨_, p.fatal, rfl⟩)
      · exact advances_pure not_false
    refine still_dialect.bind_tracks fun _ => ?_
    split
    · exact advances_still (still_report _ _)
    · refine Tracks.bind advances_peek fun next => ?_
      split
      · exact Tracks.bind advances_nextToken.weaken fun _ => restricted.mono fun _ hb => hb.1.1
      · exact restricted.mono fun _ hb => hb.1

theorem advances_extensionDirective (token : Token) :
    Advances lo hi deep (extensionDirective token) fun _ => False := by
  refine (advances_expect (by decide)).bind_used fun name => ?_
  refine (advances_expect (by decide)).bind_used fun _ => ?_
  refine (advances_expect (by decide)).bind_used fun behavior => ?_
  refine tracks_nextRawToken_bind fun after => follows_pushBack ?_
  split
  · exact advances_still (still_inSession _)
  · exact advances_still (still_report _ _)

/-- A directive is read from its first token on, whatever becomes of it. -/
theorem tracksFrom_attempt_directive {t : Token} (ht : t.kind ≠ .endOfFile) (first : Bool) :
    TracksFrom (Ready lo hi t) hi deep (attempt (directive first)) (attempt (directive first))
      fun _ => True := by
  refine tracksFrom_attempt_nextToken ht fun token => ?_
  split
  · split
    · exact (still_report _ _).bind_tracks fun _ => advances_versionDirective token
    · exact advances_versionDirective token
  · exact advances_extensionDirective token
  · exact advances_still (still_report _ _)

/-! ## Structs and interface blocks -/

/-- One round of the loop over the names of one field declaration. -/
def fieldNameStep (modifiers : Modifiers) (base : Ty) (found : List Field) :
    ParserM (List Field ⊕ List Field) := do
  let name ← expectName
  let ty ← arraySuffix base
  if let some token ← accept? .assign then
    report token.span .fieldInitializer
    let _ ← assignment
  let found := found ++ [⟨name.text, ty, modifiers, modifiers.span.join name.span⟩]
  return if ← accepts .comma then .inl found else .inr found

theorem fieldNames_eq (modifiers : Modifiers) (base : Ty) (found : List Field) :
    fieldNames modifiers base found = loop found (fieldNameStep modifiers base) := rfl

theorem advances_fieldNameStep (hhi : Parser.maxDepth ≤ hi) (modifiers : Modifiers) (base : Ty)
    (found : List Field) :
    Advances lo hi deep (fieldNameStep modifiers base found) fun _ => True := by
  refine advances_expectName.bind_used fun name => ?_
  have following (found : List Field) : Advances lo hi deep
      (accepts .comma >>= fun comma => pure (if comma then .inl found else .inr found))
      fun _ : List Field ⊕ List Field => False :=
    Tracks.bind (advances_accepts (by decide)).weaken fun _ => advances_pure (by simp)
  refine Tracks.bind (advances_arraySuffix hhi _) fun ty => ?_
  refine Tracks.bind (advances_accept? (by decide)).weaken fun o => ?_
  cases o with
  | none => exact (following _).mono fun _ hb => hb.1.1
  | some token =>
    refine (still_report _ _).bind_tracks fun _ => ?_
    exact (advances_assignment hhi).bind_used fun _ => following _

/-- One round of the loop over field declarations. -/
def fieldStep (found : List Field) : ParserM (List Field ⊕ (List Field × Token)) := do
  match ← accept? .rightBrace with
  | some close => return .inr (found, close)
  | none =>
    let modifiers ← modifiers
    let base ← type
    let found ← fieldNames modifiers base found
    let _ ← expect .semicolon
    return .inl found

theorem fields_eq : fields = loop [] fieldStep := rfl

theorem advances_fieldStep (hhi : Parser.maxDepth ≤ hi) (found : List Field) :
    Advances lo hi deep (fieldStep found) fun r => r.isLeft = true := by
  refine Tracks.bind (advances_accept? (by decide)).weaken fun o => ?_
  cases o with
  | some close => exact advances_pure (by simp)
  | none =>
    refine Tracks.bind advances_modifiers fun modifiers => ?_
    refine TracksFrom.mono (S := fun _ => True) ?_ fun _ _ => trivial
    refine (advances_type hhi).bind_used fun base => ?_
    rw [fieldNames_eq]
    have named (found : List Field) : Advances lo hi deep (fieldNameStep modifiers base found)
        fun r => r.isLeft = true :=
      (advances_fieldNameStep hhi modifiers base found).mono fun _ _ => trivial
    refine Tracks.bind (tracks_loop named found) fun found => ?_
    exact Tracks.bind (advances_expect (by decide)).weaken fun _ => advances_pure (by simp)

theorem advances_fields (hhi : Parser.maxDepth ≤ hi) :
    Advances lo hi deep fields fun _ => False := by
  rw [fields_eq]
  exact tracks_loop (advances_fieldStep hhi) []

theorem advances_struct (hhi : Parser.maxDepth ≤ hi) :
    Advances lo hi deep struct fun _ => False := by
  refine Tracks.nested (Tracks.bind advances_nextToken.weaken fun start => ?_)
  refine advances_expectName.bind_used fun name => ?_
  refine (advances_expect (by decide)).bind_used fun _ => tracks_enter_bind hhi ?_
  refine Tracks.bind (advances_fields le_rfl) fun found => ?_
  exact (still_inSession _).bind_tracks fun _ =>
    (advances_still (still_ofOption _)).mono fun _ hb => hb.1

theorem advances_globalDeclarations (hhi : Parser.maxDepth ≤ hi) (start : DeclarationStart) :
    Advances lo hi deep (globalDeclarations start) fun _ => False :=
  (advances_declarators hhi start _).bind_used fun _ => advances_pure not_false

/-- A semicolon, and what is done after it. -/
theorem advances_semicolon {α : Type} {step : ParserM α} (h : Still step) :
    Advances lo hi deep (expect .semicolon >>= fun _ => step) fun _ => False :=
  (advances_expect (by decide)).bind_used fun _ => advances_still h

theorem advances_structDeclaration (hhi : Parser.maxDepth ≤ hi) (modifiers : Modifiers) :
    Advances lo hi deep (structDeclaration modifiers) fun _ => False := by
  refine Tracks.bind (advances_struct hhi) fun ty => ?_
  refine Tracks.bind (advances_accept? (by decide)).weaken fun o => ?_
  cases o with
  | some name => exact (advances_globalDeclarations hhi _).mono fun _ hb => hb.1.1
  | none => exact (advances_semicolon (still_pure _)).mono fun _ hb => hb.1.1

theorem advances_instanceCount : Advances lo hi deep instanceCount fun _ => False := by
  refine Tracks.bind (advances_accepts (by decide)).weaken fun bracket => ?_
  cases bracket with
  | false => exact advances_pure (by simp)
  | true =>
    refine (advances_expect (by decide)).bind_used fun size => ?_
    refine (advances_expect (by decide)).bind_used fun _ => ?_
    split
    · exact advances_pure not_false
    · exact (still_report _ _).bind_tracks fun _ => advances_failure

theorem advances_interfaceBlock (hhi : Parser.maxDepth ≤ hi) (modifiers : Modifiers) :
    Advances lo hi deep (interfaceBlock modifiers) fun _ => False := by
  refine Tracks.bind advances_nextToken.weaken fun typeName => ?_
  refine Tracks.bind (advances_accepts (by decide)).weaken fun brace => ?_
  cases brace with
  | false => exact (still_report _ _).bind_tracks fun _ => advances_failure
  | true =>
    refine TracksFrom.mono (S := fun _ => False) ?_ fun _ hb => hb.1.1
    refine Tracks.bind (advances_fields hhi) fun found => ?_
    refine Tracks.bind (advances_accept? (by decide)).weaken fun o => ?_
    refine TracksFrom.mono (S := fun _ => False) ?_ fun _ hb => hb.1.1
    cases o with
    | some name =>
      exact Tracks.bind advances_instanceCount fun count =>
        (advances_semicolon (still_inSession _)).mono fun _ hb => hb.1
    | none => exact advances_semicolon (still_inSession _)

/-! ## Functions -/

theorem advances_parameter (hhi : Parser.maxDepth ≤ hi) :
    Advances lo hi deep parameter fun _ => True := by
  refine (advances_declarationStart hhi).bind_used fun start => ?_
  refine Tracks.bind (advances_arraySuffix hhi _) fun ty => ?_
  exact (advances_still (still_inSession _)).mono fun _ hb => hb.1

/-- One round of the loop over parameters. -/
def parameterStep (found : List (Option Variable)) :
    ParserM (List (Option Variable) ⊕ List (Option Variable)) := do
  let found := found ++ [← parameter]
  return if ← accepts .comma then .inl found else .inr found

theorem parameters_eq : parameters = (do
    let token ← peek
    if isWord token "void" then
      let _ ← nextToken
      return []
    else if token.kind == .rightParen then return []
    else loop [] parameterStep) := rfl

theorem advances_parameterStep (hhi : Parser.maxDepth ≤ hi) (found : List (Option Variable)) :
    Advances lo hi deep (parameterStep found) fun _ => True :=
  (advances_parameter hhi).bind_used fun _ =>
    Tracks.bind (advances_accepts (by decide)).weaken fun _ => advances_pure (by simp)

theorem advances_parameters (hhi : Parser.maxDepth ≤ hi) :
    Advances lo hi deep parameters fun _ => False := by
  rw [parameters_eq]
  refine Tracks.bind advances_peek fun token => ?_
  refine TracksFrom.mono (S := fun _ => False) ?_ fun _ hb => hb.1
  split
  · exact Tracks.bind advances_nextToken.weaken fun _ => advances_pure (by simp)
  · split
    · exact advances_pure not_false
    · exact tracks_loop (fun found => (advances_parameterStep hhi found).mono fun _ _ => trivial) []

theorem advances_body (hhi : Parser.maxDepth ≤ hi) :
    Advances lo hi deep (block statement) fun _ => True :=
  tracks_block hhi (advances_statement le_rfl)

theorem advances_functionBody (hhi : Parser.maxDepth ≤ hi) (decl : FunctionDecl) :
    Advances lo hi deep (functionBody decl) fun _ => False := by
  refine (still_inSession _).bind_tracks fun _ => ?_
  refine Tracks.bind (advances_body hhi).attempt.weaken fun o => ?_
  cases o <;> exact (advances_still (still_inSession _)).mono fun _ hb => hb.1

theorem advances_skippedBody (hhi : Parser.maxDepth ≤ hi) :
    Advances lo hi deep skippedBody fun _ => False := by
  refine (still_modify fun p => ⟨_, p.fatal, rfl⟩).bind_tracks fun _ => ?_
  refine Tracks.bind (advances_body hhi).inScope.attempt.weaken fun _ => ?_
  exact (advances_still (still_modify fun p => ⟨_, p.fatal, rfl⟩)).mono fun _ hb => hb.1

/-- What stands behind the parameters of a function: a semicolon or its body. -/
def functionEnd (decl : Option FunctionDecl) : ParserM Unit := do
  if ← accepts .semicolon then
    if let some decl := decl then inSession (SessionM.addElement (.prototype decl))
  else
    match decl with
    | some decl => functionBody decl
    | none => skippedBody

theorem function_eq (modifiers : Modifiers) (returns : Ty) (name : Token) :
    function modifiers returns name = (do
      let found ← parameters
      let close ← expect .rightParen
      let isDefinition := (← peekKind) != .semicolon
      let decl ←
        if found.all Option.isSome then
          inSession (Typing.declareFunction (modifiers.span.join (name.spanTo close)) modifiers
            returns name.text (found.filterMap id) isDefinition)
        else pure none
      functionEnd decl) := rfl

theorem advances_functionEnd (hhi : Parser.maxDepth ≤ hi) (decl : Option FunctionDecl) :
    Advances lo hi deep (functionEnd decl) fun _ => False := by
  refine Tracks.bind (advances_accepts (by decide)).weaken fun semicolon => ?_
  refine TracksFrom.mono (S := fun _ => False) ?_ fun _ hb => hb.1
  cases semicolon <;> cases decl <;> simp only [Bool.false_eq_true, reduceIte]
  · exact advances_skippedBody hhi
  · exact advances_functionBody hhi _
  · exact advances_pure not_false
  · exact advances_still (still_inSession _)

theorem advances_function (hhi : Parser.maxDepth ≤ hi) (modifiers : Modifiers) (returns : Ty)
    (name : Token) : Advances lo hi deep (function modifiers returns name) fun _ => False := by
  rw [function_eq]
  refine Tracks.bind (advances_parameters hhi) fun found => ?_
  refine TracksFrom.mono (S := fun _ => False) ?_ fun _ hb => hb.1
  refine (advances_expect (by decide)).bind_used fun close => ?_
  refine Tracks.bind advances_peekKind fun kind => ?_
  refine TracksFrom.mono (S := fun _ => False) ?_ fun _ hb => hb.1
  exact Tracks.bind_either (advances_still (still_inSession _)) (advances_pure not_false)
    (advances_functionEnd hhi)

/-! ## Declarations -/

theorem advances_typedDeclaration (hhi : Parser.maxDepth ≤ hi) (modifiers : Modifiers) :
    Advances lo hi deep (typedDeclaration modifiers) fun _ => False := by
  refine (advances_type hhi).bind_used fun ty => advances_expectName.bind_used fun name => ?_
  refine Tracks.bind (advances_accepts (by decide)).weaken fun paren => ?_
  cases paren with
  | true => exact (advances_function hhi _ _ _).mono fun _ hb => hb.1
  | false => exact (advances_globalDeclarations hhi _).mono fun _ hb => hb.1

theorem advances_declaration (hhi : Parser.maxDepth ≤ hi) :
    Advances lo hi deep declaration fun _ => False := by
  refine Tracks.bind advances_peek fun token => ?_
  refine TracksFrom.mono (S := fun _ => False) ?_ fun _ hb => hb.1
  split
  · refine Tracks.bind advances_nextToken.weaken fun _ => ?_
    exact (still_report _ _).bind_tracks fun _ => advances_failure
  · refine Tracks.bind advances_modifiers fun modifiers => ?_
    refine TracksFrom.mono (S := fun _ => False) ?_ fun _ hb => hb.1
    refine Tracks.bind advances_peek fun token => ?_
    refine TracksFrom.mono (S := fun _ => False) ?_ fun _ hb => hb.1
    split
    · refine still_get.bind_tracks fun p => ?_
      split
      · exact advances_typedDeclaration hhi modifiers
      · exact advances_interfaceBlock hhi modifiers
    · exact advances_structDeclaration hhi modifiers
    · split
      · exact advances_typedDeclaration hhi modifiers
      · exact Tracks.bind advances_nextToken.weaken fun _ => advances_pure (by simp)
    · exact advances_typedDeclaration hhi modifiers

/-- One round of the loop over declarations. -/
def declarationStep (first : Bool) : ParserM (Bool ⊕ Unit) := do
  let token ← peek
  match token.kind with
  | .endOfFile => return .inr ()
  | .invalid =>
    report token.span .invalidToken
    return .inr ()
  | .directive =>
    let _ ← attempt (directive first)
    return .inl false
  | _ =>
    let before := (← get).cursor
    let _ ← attempt declaration
    if (← get).fatal then return .inr ()
    if (← get).cursor == before then
      let _ ← nextToken
    return .inl false

theorem declarations_eq : declarations = loop true declarationStep := rfl

theorem advances_declarationStep (hhi : Parser.maxDepth ≤ hi) (first : Bool) :
    Advances lo hi deep (declarationStep first) fun r => r.isLeft = true := by
  refine tracks_peek_bind fun t => ?_
  split
  · exact (advances_pure (by simp)).ready
  · exact ((still_report _ _).bind_tracks fun _ => advances_pure (by simp)).ready
  · rename_i hkind
    exact (tracksFrom_attempt_directive (by simp [hkind]) first).bind_used (fun _ hp => hp.1.1)
      fun _ => advances_pure not_false
  · rename_i hend _ _
    refine tracksFrom_get_bind fun p₀ => (advances_declaration hhi).attempt_bind
      (fun p hp => hp.1.1) ?_
    rintro p q o sound ⟨hp, rfl⟩ onward hdepth -
    rw [runOn_get_bind]
    split
    · exact .of_onward onward hdepth hp.1.2 fun _ ha hS => by simp [← Option.some.inj ha] at hS
    · exact progress_skip sound (hp.unread_ne_nil sound hend) onward hdepth hp.1.2 _

theorem advances_declarations (hhi : Parser.maxDepth ≤ hi) :
    Advances lo hi deep declarations fun _ => False := by
  rw [declarations_eq]
  exact tracks_loop (advances_declarationStep hhi) true

/-- A round over declarations does not fail. -/
theorem isSome_declarationStep {p : Parser} (first : Bool) (sound : p.Sound) :
    ((declarationStep first).runOn p).1.isSome = true := by
  obtain ⟨t, q, hpeek, taken⟩ := runOn_peek sound
  have onward := taken.onward_pushBack sound
  rw [declarationStep, runOn_bind, hpeek]
  dsimp only
  split
  · rfl
  · obtain ⟨session, hreport⟩ := runOn_report t.span .invalidToken { q with pushback := some t }
    rw [runOn_bind, hreport]
    rfl
  · rw [runOn_bind, runOn_attempt]
    rfl
  · have advances : Advances 0 (max q.depth Parser.maxDepth) false declaration fun _ => False :=
      advances_declaration (le_max_right ..)
    obtain ⟨-, progress⟩ := advances { q with pushback := some t } onward.sound
      ⟨Nat.zero_le _, le_max_left ..⟩
    rw [runOn_get_bind, runOn_bind, runOn_attempt]
    dsimp only
    rw [runOn_get_bind]
    split
    · rfl
    · rw [runOn_get_bind]
      split
      · obtain ⟨t', ht', -⟩ := taken_nextToken progress.onward.sound
        rw [runOn_bind]
        rcases h : nextToken.runOn (declaration.runOn { q with pushback := some t }).2 with ⟨o, r⟩
        rw [h] at ht'
        obtain rfl : o = some t' := ht'
        rfl
      · rfl

/-! ## All loops and all recursion -/

/-- The rounds of the loops of the grammar, with any number of rounds of recursion below.  That the
rules repeat these is said beside each of them (`declarations_eq`, `blockContents_eq` and so on). -/
inductive IsRound : {σ α : Type} → (σ → ParserM (σ ⊕ α)) → Prop
  | declarations : IsRound declarationStep
  | fields : IsRound fieldStep
  | fieldNames (modifiers : Modifiers) (base : Ty) : IsRound (fieldNameStep modifiers base)
  | parameters : IsRound parameterStep
  | blockContents (n : Nat) (opening : Token) : IsRound (blockStep (statementAt n) opening)
  | switchCases (n : Nat) : IsRound (switchStep (statementAt n))
  | caseBody (n : Nat) : IsRound (caseStep (statementAt n))
  | modifiers : IsRound modifierStep
  | layoutQualifiers : IsRound qualifierStep
  | arraySuffix (kind : ProgramKind) : IsRound (sizeStep kind)
  | declarators {α : Type} (start : DeclarationStart) (declare : Declare α) :
    IsRound (declaratorStep start declare)
  | arguments (n : Nat) : IsRound (argumentStep (exprRules n))
  | binary (n : Nat) (operators : List TokenKind) (tighter : List (List TokenKind)) :
    IsRound (binaryStep operators (binaryExpression (exprRules n) tighter))
  | comma (n : Nat) : IsRound (commaStep (exprRules n))

theorem IsRound.movesOn {σ α : Type} {round : σ → ParserM (σ ⊕ α)} (h : IsRound round) :
    MovesOn round := by
  refine movesOn_of_advances fun a hi hhi => ?_
  cases h with
  | declarations => exact advances_declarationStep hhi a
  | fields => exact advances_fieldStep hhi a
  | fieldNames modifiers base =>
    exact (advances_fieldNameStep hhi modifiers base a).mono fun _ _ => trivial
  | parameters => exact (advances_parameterStep hhi a).mono fun _ _ => trivial
  | blockContents n opening => exact tracks_blockStep (advances_statementAt hhi n) opening a
  | switchCases n => exact tracks_switchStep hhi (advances_statementAt hhi n) a
  | caseBody n => exact tracks_caseStep (advances_statementAt hhi n) a
  | modifiers => exact advances_modifierStep a
  | layoutQualifiers => exact advances_qualifierStep a
  | arraySuffix kind => exact advances_sizeStep hhi kind a
  | declarators start declare => exact advances_declaratorStep hhi start declare a
  | arguments n => exact tracks_argumentStep (track_exprRules_self hhi n) a
  | binary n operators tighter =>
    have hrules : (exprRules n).Track (0 + 1 + 1) Parser.maxDepth (exprRules n) :=
      track_exprRules_self le_rfl n
    exact tracks_binaryStep hhi (tracks_binaryExpression le_rfl hrules tighter) operators a
  | comma n => exact tracks_commaStep hhi (track_exprRules_self le_rfl n) a

/-- What a rule does at a level of nesting is settled by what the rules it recurses into do at
deeper levels within the limit: it comes to them only by entering a level. -/
def Guarded {ρ α : Type} (Agree : Nat → ρ → ρ → Prop) (rule : ρ → ParserM α) : Prop :=
  ∀ r r' p, p.Sound → Agree (p.depth + 1) r r' → (rule r').runOn p = (rule r).runOn p

theorem guarded_of_tracks {ρ α : Type} {Agree : Nat → ρ → ρ → Prop} {rule : ρ → ParserM α}
    (h : ∀ lo hi r r', Parser.maxDepth ≤ hi → Agree (lo + 1) r r' →
      Tracks lo hi false (rule r) (rule r') fun _ => True) : Guarded Agree rule := by
  intro r r' p sound hagree
  exact (h p.depth (max p.depth Parser.maxDepth) r r' (le_max_right ..) hagree p sound
    ⟨le_rfl, le_max_left ..⟩).1

/-- A rule that is guarded makes no difference between the rounds of a recursion that agree from
some level on. -/
theorem Guarded.runOn_rounds {ρ α : Type} {Agree : Nat → ρ → ρ → Prop} {rule : ρ → ParserM α}
    (h : Guarded Agree rule) {rounds : Nat → ρ}
    (hrounds : ∀ n m lo, n ≤ m → Parser.maxDepth ≤ lo + n → Agree (lo + 1) (rounds n) (rounds m))
    {p : Parser} (sound : p.Sound) {n : Nat} (hn : Parser.maxDepth ≤ p.depth + n) :
    (rule (rounds n)).runOn p = (rule (rounds Parser.maxDepth)).runOn p := by
  have hfrom {k : Nat} (hk : Parser.maxDepth ≤ p.depth + k) :=
    h (rounds k) (rounds (max k (max n Parser.maxDepth))) p sound
      (hrounds k _ p.depth (le_max_left ..) hk)
  have hmax : max n (max n Parser.maxDepth) = max Parser.maxDepth (max n Parser.maxDepth) := by
    omega
  rw [← hfrom hn, hmax, hfrom (Nat.le_add_left ..)]

/-- The rules of two records agree from a level on, up to the limit. -/
abbrev RulesAgree (lo : Nat) (rules rules' : ExprRules) : Prop :=
  rules.Track lo Parser.maxDepth rules'

/-- Two rules for statements agree from a level on, up to the limit. -/
abbrev StatementsAgree (lo : Nat) (statement statement' : ParserM Stmt) : Prop :=
  Tracks lo Parser.maxDepth false statement statement' fun _ => True

theorem guarded_commaExpression : Guarded RulesAgree commaExpression :=
  guarded_of_tracks fun _ _ _ _ hhi h => tracks_commaExpression hhi h

theorem guarded_assignmentExpression : Guarded RulesAgree assignmentExpression :=
  guarded_of_tracks fun _ _ _ _ hhi h => tracks_assignmentExpression hhi h

theorem guarded_unaryExpression : Guarded RulesAgree unaryExpression :=
  guarded_of_tracks fun _ _ _ _ hhi h => tracks_unaryExpression hhi h

theorem guarded_statementOf : Guarded StatementsAgree statementOf :=
  guarded_of_tracks fun _ _ _ _ hhi h => tracks_statementOf hhi h

/-- The recursion needs no more than a round for each level that may still be entered, and one. -/
theorem runOn_rounds_eq {p : Parser} (sound : p.Sound) {n : Nat}
    (hn : Parser.maxDepth ≤ p.depth + n) :
    (exprRules (n + 1)).expression.runOn p = expression.runOn p ∧
      (exprRules (n + 1)).assignment.runOn p = assignment.runOn p ∧
      (exprRules (n + 1)).unary.runOn p = rules.unary.runOn p ∧
      (statementAt (n + 1)).runOn p = statement.runOn p := by
  have hrules (n m lo : Nat) (h : n ≤ m) (hlo : Parser.maxDepth ≤ lo + n) :
      RulesAgree (lo + 1) (exprRules n) (exprRules m) := track_exprRules h hlo
  refine ⟨guarded_commaExpression.runOn_rounds hrules sound hn,
    guarded_assignmentExpression.runOn_rounds hrules sound hn,
    guarded_unaryExpression.runOn_rounds hrules sound hn, ?_⟩
  exact guarded_statementOf.runOn_rounds (fun _ _ _ => tracks_statementAt) sound hn

theorem onward_of_advances {α : Type} {step : ParserM α} {S : α → Prop} {p : Parser}
    (h : ∀ hi, Parser.maxDepth ≤ hi → Advances 0 hi false step S) (sound : p.Sound) :
    p.Onward (step.runOn p).2 :=
  (h (max p.depth Parser.maxDepth) (le_max_right ..) p sound
    ⟨Nat.zero_le _, le_max_left ..⟩).2.onward

/-- A loop whose rounds do not fail does not fail. -/
theorem isSome_of_loops {σ α : Type} {round : σ → ParserM (σ ⊕ α)} {n : Nat} {a : σ} {p : Parser}
    {result : Option α × Parser} (h : Loops round n a p result) (hmoves : MovesOn round)
    (hround : ∀ a p, p.Sound → ((round a).runOn p).1.isSome = true) (sound : p.Sound) :
    result.1.isSome = true := by
  induction h with
  | leave => rfl
  | @fail a p q hfail => simpa [hfail] using hround a p sound
  | goOn hgo _ ih => exact ih (hmoves _ _ _ _ sound hgo).1.sound

/-- The reading of a source comes to its end in a session, after no more rounds than characters. -/
theorem exists_loops_declarations (source : List Char) (session : Session) :
    ∃ n ≤ source.length, ∃ q, declarations.runOn (.start source session) = (some (), q) ∧
      Loops declarationStep n true (.start source session) (some (), q) := by
  have sound := Parser.sound_start source session
  obtain ⟨n, hn, loops⟩ := exists_loops_loop IsRound.declarations.movesOn true sound
  have hsome := isSome_of_loops loops IsRound.declarations.movesOn
    (fun first _ sound => isSome_declarationStep first sound) sound
  rw [← declarations_eq] at loops hsome
  rcases hrun : declarations.runOn (.start source session) with ⟨_ | ⟨⟩, q⟩
  · simp [hrun] at hsome
  · exact ⟨n, hn, q, rfl, hrun ▸ loops⟩

/-- Reading a source of any kind comes to its end, and every loop and every recursion on the way
does: what a loop gives is what its rounds give, one after the other, and as much recursion as
there are levels gives what any more would give. -/
theorem reading_terminates (source : List Char) (session : Session) :
    -- the whole source
    (∃ n ≤ source.length, ∃ q, declarations.runOn (.start source session) = (some (), q) ∧
      (Parser.start source session).Onward q ∧
      Loops declarationStep n true (.start source session) (some (), q)) ∧
    -- rules do not give back what was used before
    (∀ p : Parser, p.Sound → p.Onward (declaration.runOn p).2 ∧ p.Onward (statement.runOn p).2 ∧
      p.Onward (expression.runOn p).2) ∧
    -- loops
    (∀ {σ α : Type} (round : σ → ParserM (σ ⊕ α)), IsRound round → MovesOn round ∧
      ∀ a p, p.Sound → ∃ n ≤ p.unread.length, Loops round n a p ((loop a round).runOn p)) ∧
    (∀ rounds t p, p.Sound → ∃ n ≤ Parser.maxDepth - p.depth,
      Loops (suffixStep (exprRules rounds)) n t p
        ((iterate (suffixStep (exprRules rounds)) (Parser.maxDepth + 1) t).runOn p)) ∧
    -- recursion
    Guarded RulesAgree commaExpression ∧ Guarded RulesAgree assignmentExpression ∧
    Guarded RulesAgree unaryExpression ∧ Guarded StatementsAgree statementOf ∧
    (∀ p n, p.Sound → Parser.maxDepth ≤ p.depth + n →
      (exprRules (n + 1)).expression.runOn p = expression.runOn p ∧
      (exprRules (n + 1)).assignment.runOn p = assignment.runOn p ∧
      (exprRules (n + 1)).unary.runOn p = rules.unary.runOn p ∧
      (statementAt (n + 1)).runOn p = statement.runOn p) := by
  have sound := Parser.sound_start source session
  refine ⟨?_, fun p sound => ⟨?_, ?_, ?_⟩, fun _ h => ⟨h.movesOn, fun a p sound =>
    exists_loops_loop h.movesOn a sound⟩, fun rounds t p sound => ?_, guarded_commaExpression,
    guarded_assignmentExpression, guarded_unaryExpression, guarded_statementOf,
    fun p n sound hn => runOn_rounds_eq sound hn⟩
  · obtain ⟨n, hn, q, hrun, loops⟩ := exists_loops_declarations source session
    have onward := onward_of_advances (fun _ hhi => advances_declarations hhi) sound
    rw [hrun] at onward
    exact ⟨n, hn, q, hrun, onward, loops⟩
  · exact onward_of_advances (fun _ hhi => advances_declaration hhi) sound
  · exact onward_of_advances (fun _ hhi => advances_statement hhi) sound
  · exact onward_of_advances (fun _ hhi => advances_expression hhi) sound
  · exact exists_loops_suffixStep (fun _ => track_exprRules_self le_rfl rounds) t sound

end Grammar

end RasterShader
