import Mathlib
import RasterShader.Grammar.Program
import RasterShader.Proofs.Reading.Recursion

/-!
# What declarations and statements use

The rules for modifiers, types, declared names and statements, one after the other: each goes
onward, and one that succeeds has used characters.  The round of every loop is given a name, with
an equation for the rule that repeats it; a round that goes on has used characters as well.
Statements recurse as expressions do, and `tracks_statementAt` is to them what `track_exprRules` is
to expressions.
-/

namespace RasterShader

namespace Grammar

open ParserM

variable {lo hi : Nat} {deep : Bool}

/-! ## Modifiers, types and declared names -/

theorem advances_layoutQualifier (layout : Layout) (key : Token) :
    Advances lo hi deep (layoutQualifier layout key) fun _ => False := by
  unfold layoutQualifier
  split
  · exact advances_still ((still_report _ _).bind fun _ => still_pure _)
  · split
    · exact advances_still ((still_report _ _).bind fun _ => still_pure _)
    · exact advances_pure not_false
  · refine (advances_expect (by decide)).bind_used fun _ => ?_
    refine (advances_expect (by decide)).bind_used fun token => ?_
    split
    · exact (still_report _ _).bind_tracks fun _ => advances_failure
    · split
      · exact advances_still ((still_report _ _).bind fun _ => still_pure _)
      · exact advances_pure not_false

/-- One round of the loop over the qualifiers of a layout. -/
def qualifierStep (layout : Layout) : ParserM (Layout ⊕ Layout) := do
  let key ← nextToken
  match ← attempt (layoutQualifier layout key) with
  | none => return .inr layout
  | some layout =>
    if ← accepts .rightParen then return .inr layout
    match ← attempt (expect .comma) with
    | none => return .inr layout
    | some _ => return .inl layout

theorem layoutQualifiers_eq (layout : Layout) : layoutQualifiers layout = (do
    let _ ← nextToken
    match ← attempt (expect .leftParen) with
    | none => return layout
    | some _ => loop layout qualifierStep) := rfl

theorem advances_qualifierStep (layout : Layout) :
    Advances lo hi deep (qualifierStep layout) fun r => r.isLeft = true := by
  refine Tracks.bind advances_nextToken.weaken fun key => ?_
  refine Tracks.bind (advances_layoutQualifier layout key).attempt fun o => ?_
  cases o with
  | none => exact advances_pure (by simp)
  | some layout =>
    refine (advances_accepts (by decide)).bind fun paren => ?_
    cases paren with
    | true => exact advances_pure (by simp)
    | false =>
      refine Tracks.bind (advances_expect (by decide)).attempt fun o => ?_
      cases o <;> exact advances_pure (by simp)

theorem tracksFrom_layoutQualifiers (layout : Layout) {t : Token} (ht : t.kind ≠ .endOfFile) :
    TracksFrom (Ready lo hi t) hi deep (layoutQualifiers layout) (layoutQualifiers layout)
      fun _ => True := by
  rw [layoutQualifiers_eq]
  refine (tracksFrom_nextToken ht).bind_used (fun _ hp => hp.1.1) fun _ => ?_
  refine Tracks.bind (S := fun _ => False) (advances_expect (by decide)).attempt.weaken fun o => ?_
  cases o with
  | none => exact advances_pure (by simp)
  | some _ => exact (tracks_loop advances_qualifierStep layout).mono fun _ hb => hb.1

/-- One round of the loop over modifiers. -/
def modifierStep (found : Modifiers) : ParserM (Modifiers ⊕ Modifiers) := do
  let token ← peek
  if token.kind == .kwLayout then
    let layout ← layoutQualifiers found.layout
    return .inl { found with layout, span.stop := max found.span.stop token.stop }
  else
    match modifierFlags? token.kind with
    | none => return .inr found
    | some flags =>
      let _ ← nextToken
      if found.flags.intersects flags then report token.span (.repeatedModifier token.text)
      return .inl { found with flags := found.flags ||| flags, span.stop := token.stop }

theorem modifiers_eq : modifiers = (do
    let first ← peek
    loop (Modifiers.mk .empty .none (.point first.offset)) modifierStep) := rfl

theorem advances_modifierStep (found : Modifiers) :
    Advances lo hi deep (modifierStep found) fun r => r.isLeft = true := by
  refine tracks_peek_bind fun t => ?_
  split
  · rename_i hkind
    have ht : t.kind ≠ .endOfFile := by
      rw [beq_iff_eq] at hkind
      simp [hkind]
    exact (tracksFrom_layoutQualifiers _ ht).bind_used (fun _ hp => hp.1.1) fun _ =>
      advances_pure not_false
  · split
    · exact (advances_pure (by simp)).ready
    · rename_i flags hflags
      have ht : t.kind ≠ .endOfFile := by
        intro hkind
        rw [hkind] at hflags
        cases hflags
      refine (tracksFrom_nextToken ht).bind_used (fun _ hp => hp.1.1) fun _ => ?_
      split
      · exact (still_report _ _).bind_tracks fun _ => advances_pure not_false
      · exact advances_pure not_false

theorem advances_modifiers : Advances lo hi deep modifiers fun _ => False := by
  rw [modifiers_eq]
  exact advances_peek.bind fun _ => (tracks_loop advances_modifierStep _).mono fun _ hb => hb.1

/-- One round of the loop over sizes in brackets. -/
def sizeStep (kind : ProgramKind) (ty : Ty) : ParserM (Ty ⊕ Ty) := do
  match ← accept? .leftBracket with
  | none => return .inr ty
  | some opening =>
    match ← accept? .rightBracket with
    | some close =>
      return .inl (← check (Typing.arrayType kind (opening.spanTo close) ty none))
    | none =>
      let size ← expression
      let close ← expect .rightBracket
      return .inl (← check (Typing.arrayType kind (opening.spanTo close) ty (some size)))

theorem arraySuffix_eq (base : Ty) : arraySuffix base = (do
    loop base (sizeStep (← dialect).kind)) := rfl

theorem advances_sizeStep (hhi : Parser.maxDepth ≤ hi) (kind : ProgramKind) (ty : Ty) :
    Advances lo hi deep (sizeStep kind ty) fun r => r.isLeft = true := by
  refine (advances_accept? (by decide)).bind fun o => ?_
  cases o with
  | none => exact advances_pure (by simp)
  | some opening =>
    refine TracksFrom.mono (S := fun _ => False) ?_ fun _ hb => hb.2 rfl
    refine tracks_bracketed (fun t => (still_check _).bind fun _ => still_pure _) ?_
    refine (advances_expression hhi).bind_used fun size => ?_
    refine (advances_expect (by decide)).bind_used fun close => ?_
    exact advances_still ((still_check _).bind fun _ => still_pure _)

theorem advances_arraySuffix (hhi : Parser.maxDepth ≤ hi) (base : Ty) :
    Advances lo hi deep (arraySuffix base) fun _ => False := by
  rw [arraySuffix_eq]
  exact still_dialect.bind_tracks fun _ => tracks_loop (advances_sizeStep hhi _) base

theorem advances_type (hhi : Parser.maxDepth ≤ hi) : Advances lo hi deep type fun _ => True := by
  refine (advances_expect (by decide)).bind_used fun token => ?_
  refine still_get.bind_tracks fun p => ?_
  split
  · exact advances_arraySuffix hhi _
  · exact (still_report _ _).bind_tracks fun _ => advances_failure

theorem advances_declarationStart (hhi : Parser.maxDepth ≤ hi) :
    Advances lo hi deep declarationStart fun _ => True := by
  refine advances_modifiers.bind fun _ => TracksFrom.mono (S := fun _ => True) ?_ fun _ _ => trivial
  refine (advances_type hhi).bind_used fun _ => ?_
  exact advances_expectName.bind_used fun _ => advances_pure not_false

/-- A name is declared, and another one follows or not. -/
def declareName {α : Type} (start : DeclarationStart) (declare : Declare α) (name : Token)
    (found : List α) (ty : Ty) (value : Option Expr) : ParserM ((Token × List α) ⊕ List α) := do
  let span := start.modifiers.span.join name.span
  let span := (value.map fun e => span.join e.span).getD span
  let found := found ++ [← inSession (declare span start.modifiers ty name.text value)]
  if ← accepts .comma then return .inl (← expectName, found) else return .inr found

/-- One round of the loop over declared names. -/
def declaratorStep {α : Type} (start : DeclarationStart) (declare : Declare α) :
    Token × List α → ParserM ((Token × List α) ⊕ List α) := fun (name, found) => do
  let ty ← arraySuffix start.ty
  let value ← if ← accepts .assign then some <$> assignment else pure none
  declareName start declare name found ty value

theorem declarators_eq {α : Type} (start : DeclarationStart) (declare : Declare α) :
    declarators start declare = (do
      let found ← loop (start.name, ([] : List α)) (declaratorStep start declare)
      let _ ← expect .semicolon
      return found) := rfl

theorem advances_declareName {α : Type} (start : DeclarationStart) (declare : Declare α)
    (name : Token) (found : List α) (ty : Ty) (value : Option Expr) :
    Advances lo hi deep (declareName start declare name found ty value) fun r =>
      r.isLeft = true := by
  refine (still_inSession _).bind_tracks fun _ => ?_
  refine (advances_accepts (by decide)).bind fun comma => ?_
  cases comma with
  | false => exact advances_pure (by simp)
  | true => exact advances_expectName.bind_used fun _ => advances_pure not_false

theorem advances_declaratorStep (hhi : Parser.maxDepth ≤ hi) {α : Type} (start : DeclarationStart)
    (declare : Declare α) (state : Token × List α) :
    Advances lo hi deep (declaratorStep start declare state) fun r => r.isLeft = true := by
  obtain ⟨name, found⟩ := state
  refine (advances_arraySuffix hhi _).bind fun ty => ?_
  refine TracksFrom.mono (S := fun r => r.isLeft = true) ?_ fun _ hb => hb.1
  refine Tracks.bind (advances_accepts (by decide)).weaken fun assigned => ?_
  refine TracksFrom.mono (S := fun r => r.isLeft = true) ?_ fun _ hb => hb.1
  exact Tracks.bind_either (Tracks.map (advances_assignment hhi).weaken fun _ => id)
    (advances_pure not_false) fun value => advances_declareName start declare name found ty value

theorem advances_declarators (hhi : Parser.maxDepth ≤ hi) {α : Type} (start : DeclarationStart)
    (declare : Declare α) :
    Advances lo hi deep (declarators start declare) fun _ => True := by
  rw [declarators_eq]
  refine (tracks_loop (advances_declaratorStep hhi start declare) _).bind fun found => ?_
  exact TracksFrom.mono (S := fun _ => True)
    ((advances_expect (by decide)).bind_used fun _ => advances_pure not_false) fun _ _ => trivial

/-! ## Statements -/

theorem advances_expressionStatement (hhi : Parser.maxDepth ≤ hi) :
    Advances lo hi deep expressionStatement fun _ => True := by
  refine (advances_expression hhi).bind_used fun e => ?_
  exact (advances_expect (by decide)).bind_used fun _ => advances_pure not_false

theorem advances_localDeclarations (hhi : Parser.maxDepth ≤ hi) (start : DeclarationStart) :
    Advances lo hi deep (localDeclarations start) fun _ => True := by
  refine (advances_declarators hhi start _).bind_used fun statements => ?_
  split <;> exact advances_pure not_false

theorem advances_declarationOrExpression (hhi : Parser.maxDepth ≤ hi) :
    Advances lo hi deep declarationOrExpression fun _ => True := by
  refine advances_peek.bind fun token => TracksFrom.mono (S := fun _ => True) ?_ fun _ _ => trivial
  split
  · exact (advances_declarationStart hhi).bind_used fun start =>
      (advances_localDeclarations hhi start).weaken
  · refine still_get.bind_tracks fun p => ?_
    split
    · refine Tracks.bind (advances_declarationStart hhi).speculate.weaken fun o => ?_
      refine TracksFrom.mono (S := fun _ => True) ?_ fun _ _ => trivial
      cases o with
      | some start => exact advances_localDeclarations hhi start
      | none => exact advances_expressionStatement hhi
    · exact advances_expressionStatement hhi

/-- One round of the loop over the statements of a block. -/
def blockStep (statement : ParserM Stmt) (opening : Token) (found : List Stmt) :
    ParserM (List Stmt ⊕ Stmt) := do
  let token ← peek
  match token.kind with
  | .rightBrace =>
    let _ ← nextToken
    return .inr (.block (opening.spanTo token) found true)
  | .endOfFile =>
    reportFatal token.span (.expected "'\x7d'" "end of file")
    failure
  | _ =>
    let before := (← get).cursor
    let result ← attempt statement
    if (← get).fatal then failure
    match result with
    | some s => return .inl (found ++ [s])
    | none =>
      if (← get).cursor == before then
        let _ ← nextToken
      return .inl found

theorem blockContents_eq (statement : ParserM Stmt) (opening : Token) :
    blockContents statement opening = loop [] (blockStep statement opening) := rfl

section

variable {inner inner' : ParserM Stmt}

theorem tracks_blockStep (h : Tracks lo hi false inner inner' fun _ => True) (opening : Token)
    (found : List Stmt) :
    Tracks lo hi deep (blockStep inner opening found) (blockStep inner' opening found) fun r =>
      r.isLeft = true := by
  refine tracks_peek_bind fun t => ?_
  split
  · exact (Tracks.bind advances_nextToken.weaken fun _ => advances_pure (by simp)).ready
  · exact ((still_reportFatal _ _).bind_tracks fun _ => advances_failure).ready
  · rename_i hend
    refine tracksFrom_get_bind fun p₀ => h.attempt_bind (fun p hp => hp.1.1) ?_
    rintro p q o sound ⟨hp, rfl⟩ onward hdepth hused
    rw [runOn_get_bind]
    cases o with
    | some s =>
      dsimp only
      split
      · exact .of_none onward hdepth
      · exact .of_onward onward hdepth hp.1.2 fun _ _ _ => hused s rfl trivial
    | none =>
      dsimp only
      split
      · exact .of_none onward hdepth
      · exact progress_skip sound (hp.unread_ne_nil sound hend) onward hdepth hp.1.2 _

theorem tracks_block (hhi : Parser.maxDepth ≤ hi)
    (h : Tracks (lo + 1) Parser.maxDepth false inner inner' fun _ => True) :
    Tracks lo hi deep (block inner) (block inner') fun _ => True := by
  refine Tracks.nested ((advances_expect (by decide)).bind_used fun opening => ?_)
  refine tracks_enter_bind hhi (Tracks.inScope ?_)
  exact tracks_loop (tracks_blockStep h opening) []

theorem advances_condition (hhi : Parser.maxDepth ≤ hi) :
    Advances lo hi deep condition fun _ => True := by
  refine (advances_expect (by decide)).bind_used fun _ => ?_
  refine (advances_expression hhi).bind_used fun test => ?_
  exact (advances_expect (by decide)).bind_used fun _ => advances_pure not_false

theorem tracks_ifStatement (hhi : Parser.maxDepth ≤ hi)
    (h : Tracks lo hi false inner inner' fun _ => True) :
    Tracks lo hi deep (ifStatement inner) (ifStatement inner') fun _ => True := by
  refine Tracks.bind advances_nextToken.weaken fun start => ?_
  refine TracksFrom.mono (S := fun _ => True) ?_ fun _ _ => trivial
  refine (advances_condition hhi).bind_used fun test => h.any.bind_used fun ifTrue => ?_
  refine (advances_accepts (by decide)).bind fun otherwise => ?_
  cases otherwise with
  | true =>
    exact h.any.bind_used fun ifFalse =>
      still_dialect.bind_tracks fun _ => advances_still (still_check _)
  | false =>
    exact still_dialect.bind_tracks fun _ => (advances_still (still_check _)).mono fun _ hb => hb.1

theorem tracks_loopBody (h : Tracks lo hi false inner inner' fun _ => True) :
    Tracks lo hi deep (loopBody inner) (loopBody inner') fun _ => True := by
  refine (still_modify fun p => ⟨_, p.fatal, rfl⟩).bind_tracks fun _ => ?_
  exact h.any.ensuring fun _ => ⟨_, rfl⟩

theorem advances_expressionUnless (hhi : Parser.maxDepth ≤ hi) (kind : TokenKind) :
    Advances lo hi deep (expressionUnless kind) fun _ => False := by
  refine advances_peekKind.bind fun next => ?_
  split
  · exact advances_pure (by simp)
  · exact (advances_expression hhi).bind_used fun _ => advances_pure not_false

theorem tracks_forStatement (hhi : Parser.maxDepth ≤ hi)
    (h : Tracks lo hi false inner inner' fun _ => True) :
    Tracks lo hi deep (forStatement inner) (forStatement inner') fun _ => True := by
  refine Tracks.bind advances_nextToken.weaken fun start => ?_
  refine TracksFrom.mono (S := fun _ => True) ?_ fun _ _ => trivial
  refine (advances_expect (by decide)).bind_used fun _ => Tracks.inScope ?_
  refine Tracks.bind (advances_accepts (by decide)).weaken fun empty => ?_
  refine TracksFrom.mono (S := fun _ => False) ?_ fun _ hb => hb.1
  refine Tracks.bind_either (advances_pure not_false)
    (Tracks.map (advances_declarationOrExpression hhi).weaken fun _ => id) fun initializer => ?_
  refine (advances_expressionUnless hhi _).bind fun test => ?_
  refine TracksFrom.mono (S := fun _ => True) ?_ fun _ _ => trivial
  refine (advances_expect (by decide)).bind_used fun _ => ?_
  refine (advances_expressionUnless hhi _).bind fun next => ?_
  refine TracksFrom.mono (S := fun _ => True) ?_ fun _ _ => trivial
  refine (advances_expect (by decide)).bind_used fun _ => ?_
  refine Tracks.bind (tracks_loopBody h).weaken fun body => ?_
  exact still_dialect.bind_tracks fun _ => (advances_still (still_check _)).mono fun _ hb => hb.1

theorem tracks_whileStatement (hhi : Parser.maxDepth ≤ hi)
    (h : Tracks lo hi false inner inner' fun _ => True) :
    Tracks lo hi deep (whileStatement inner) (whileStatement inner') fun _ => True := by
  refine Tracks.bind advances_nextToken.weaken fun start => ?_
  refine TracksFrom.mono (S := fun _ => True) ?_ fun _ _ => trivial
  refine (advances_condition hhi).bind_used fun test => ?_
  refine Tracks.bind (tracks_loopBody h).weaken fun body => ?_
  exact still_dialect.bind_tracks fun _ => (advances_still (still_check _)).mono fun _ hb => hb.1

theorem tracks_doStatement (hhi : Parser.maxDepth ≤ hi)
    (h : Tracks lo hi false inner inner' fun _ => True) :
    Tracks lo hi deep (doStatement inner) (doStatement inner') fun _ => True := by
  refine Tracks.bind advances_nextToken.weaken fun start => ?_
  refine TracksFrom.mono (S := fun _ => True) ?_ fun _ _ => trivial
  refine (tracks_loopBody h).bind_used fun body => ?_
  refine Tracks.bind (advances_expect (by decide)).weaken fun _ => ?_
  refine Tracks.bind (advances_condition hhi).weaken fun test => ?_
  refine Tracks.bind (advances_expect (by decide)).weaken fun stop => ?_
  refine still_dialect.bind_tracks fun _ => (advances_still (still_check _)).mono fun _ hb => ?_
  exact hb.1.1.1

/-- One round of the loop over the statements of a case. -/
def caseStep (statement : ParserM Stmt) (found : List Stmt) : ParserM (List Stmt ⊕ List Stmt) := do
  match ← peekKind with
  | .rightBrace | .kwCase | .kwDefault | .endOfFile => return .inr found
  | _ => return .inl (found ++ [← statement])

theorem caseBody_eq (statement : ParserM Stmt) :
    caseBody statement = loop [] (caseStep statement) := rfl

theorem tracks_caseStep (h : Tracks lo hi false inner inner' fun _ => True) (found : List Stmt) :
    Tracks lo hi deep (caseStep inner found) (caseStep inner' found) fun r => r.isLeft = true := by
  refine advances_peekKind.bind fun kind => ?_
  split
  on_goal 5 => exact h.any.bind_used fun _ => advances_pure not_false
  all_goals exact advances_pure (by simp)

theorem tracks_caseBody (h : Tracks lo hi false inner inner' fun _ => True) :
    Tracks lo hi deep (caseBody inner) (caseBody inner') fun _ => False := by
  rw [caseBody_eq, caseBody_eq]
  exact tracks_loop (tracks_caseStep h) []

/-- One round of the loop over the cases of a switch. -/
def switchStep (statement : ParserM Stmt) (found : List Typing.RawCase) :
    ParserM (List Typing.RawCase ⊕ List Typing.RawCase) := do
  match ← accept? .kwCase with
  | none => return .inr found
  | some token =>
    let value ← expression
    let _ ← expect .colon
    return .inl (found ++ [⟨some value, token.span, ← caseBody statement⟩])

theorem switchCases_eq (statement : ParserM Stmt) : switchCases statement = (do
    let cases ← loop ([] : List Typing.RawCase) (switchStep statement)
    let cases ←
      match ← accept? .kwDefault with
      | none => pure cases
      | some token =>
        let _ ← expect .colon
        pure (cases ++ [⟨none, token.span, ← caseBody statement⟩])
    return (cases, ← expect .rightBrace)) := rfl

theorem tracks_switchStep (hhi : Parser.maxDepth ≤ hi)
    (h : Tracks lo hi false inner inner' fun _ => True) (found : List Typing.RawCase) :
    Tracks lo hi deep (switchStep inner found) (switchStep inner' found) fun r =>
      r.isLeft = true := by
  refine (advances_accept? (by decide)).bind fun o => ?_
  cases o with
  | none => exact advances_pure (by simp)
  | some token =>
    refine TracksFrom.mono (S := fun _ => False) ?_ fun _ hb => hb.2 rfl
    refine (advances_expression hhi).bind_used fun value => ?_
    refine (advances_expect (by decide)).bind_used fun _ => ?_
    exact (tracks_caseBody h).bind fun _ => advances_pure (by simp)

theorem tracks_switchCases (hhi : Parser.maxDepth ≤ hi)
    (h : Tracks lo hi false inner inner' fun _ => True) :
    Tracks lo hi deep (switchCases inner) (switchCases inner') fun _ => True := by
  rw [switchCases_eq, switchCases_eq]
  have closing (cases : List Typing.RawCase) :
      Advances lo hi deep (expect .rightBrace >>= fun stop => pure (cases, stop)) fun _ => True :=
    (advances_expect (by decide)).bind_used fun _ => advances_pure not_false
  refine (tracks_loop (tracks_switchStep hhi h) _).bind fun cases => ?_
  refine Tracks.bind (advances_accept? (by decide)).weaken fun o => ?_
  refine TracksFrom.mono (S := fun _ => True) ?_ fun _ _ => trivial
  cases o with
  | none => exact (still_pure cases).bind_tracks closing
  | some token =>
    refine (advances_expect (by decide)).bind_used fun _ => ?_
    exact Tracks.bind (tracks_caseBody h) fun body =>
      (still_pure _).bind_tracks fun cases => (closing cases).mono fun _ _ => trivial

theorem tracks_switchStatement (hhi : Parser.maxDepth ≤ hi)
    (h : Tracks lo hi false inner inner' fun _ => True) :
    Tracks lo hi deep (switchStatement inner) (switchStatement inner') fun _ => True := by
  refine Tracks.bind advances_nextToken.weaken fun start => ?_
  refine TracksFrom.mono (S := fun _ => True) ?_ fun _ _ => trivial
  refine (advances_condition hhi).bind_used fun value => ?_
  refine Tracks.bind (advances_expect (by decide)).weaken fun _ => ?_
  refine (still_modify fun p => ⟨_, p.fatal, rfl⟩).bind_tracks fun _ => ?_
  refine Tracks.bind (S := fun _ => False) ?_ fun found => ?_
  · exact ((tracks_switchCases hhi h).inScope.ensuring fun _ => ⟨_, rfl⟩).weaken
  · refine still_dialect.bind_tracks fun _ => ?_
    exact (advances_still (still_check _)).mono fun _ hb => hb.1.1

end

theorem advances_returnStatement (hhi : Parser.maxDepth ≤ hi) :
    Advances lo hi deep returnStatement fun _ => True := by
  refine Tracks.bind advances_nextToken.weaken fun start => ?_
  refine (advances_expressionUnless hhi _).bind fun value => ?_
  refine TracksFrom.mono (S := fun _ => True) ?_ fun _ _ => trivial
  refine (advances_expect (by decide)).bind_used fun stop => ?_
  exact still_get.bind_tracks fun _ => advances_still (still_check _)

theorem advances_jumpStatement (permitted : Session → Bool) (issue : Issue) (build : Span → Stmt) :
    Advances lo hi deep (jumpStatement permitted issue build) fun _ => True := by
  refine Tracks.bind advances_nextToken.weaken fun start => ?_
  refine TracksFrom.mono (S := fun _ => True) ?_ fun _ _ => trivial
  refine (advances_expect (by decide)).bind_used fun stop => ?_
  exact still_get.bind_tracks fun _ => advances_still (still_check _)

theorem tracks_statementOf {inner inner' : ParserM Stmt} (hhi : Parser.maxDepth ≤ hi)
    (h : Tracks (lo + 1) Parser.maxDepth false inner inner' fun _ => True) :
    Tracks lo hi deep (statementOf inner) (statementOf inner') fun _ => True := by
  refine Tracks.nested (tracks_enter_bind hhi (tracks_peek_bind fun t => ?_))
  split
  · exact (tracks_ifStatement le_rfl h).ready
  · exact (tracks_forStatement le_rfl h).ready
  · exact (tracks_doStatement le_rfl h).ready
  · exact (tracks_whileStatement le_rfl h).ready
  · exact (tracks_switchStatement le_rfl h).ready
  · exact (advances_returnStatement le_rfl).ready
  · exact (advances_jumpStatement _ _ _).ready
  · exact (advances_jumpStatement _ _ _).ready
  · exact (advances_jumpStatement _ _ _).ready
  · exact (tracks_block le_rfl h.deeper).ready
  · rename_i ht
    exact (tracksFrom_nextToken (by simp [ht])).bind_used (fun _ hp => hp.1.1) fun _ =>
      advances_pure not_false
  · exact (advances_declarationOrExpression le_rfl).ready
  · exact (advances_declarationOrExpression le_rfl).ready
  · exact (advances_declarationOrExpression le_rfl).ready
  · exact (advances_declarationOrExpression le_rfl).ready
  · exact (advances_declarationOrExpression le_rfl).ready
  · exact (advances_expressionStatement le_rfl).ready

/-- With a round for each level that may still be entered, further rounds make no difference. -/
theorem tracks_statementAt {n m lo : Nat} (hn : n ≤ m) (hlo : Parser.maxDepth ≤ lo + n) :
    Tracks (lo + 1) Parser.maxDepth false (statementAt n) (statementAt m) fun _ => True := by
  induction n generalizing m lo with
  | zero =>
    intro p _ hp
    omega
  | succ n ih =>
    obtain ⟨m, rfl⟩ : ∃ k, m = k + 1 := ⟨m - 1, by omega⟩
    exact tracks_statementOf le_rfl (ih (by omega) (by omega))

/-- However many rounds there are, statements make progress. -/
theorem advances_statementAt (hhi : Parser.maxDepth ≤ hi) (n : Nat) :
    Advances lo hi deep (statementAt n) fun _ => True := by
  induction n generalizing lo hi deep with
  | zero => exact advances_failure
  | succ n ih => exact tracks_statementOf hhi (ih le_rfl)

theorem advances_statement (hhi : Parser.maxDepth ≤ hi) :
    Advances lo hi deep statement fun _ => True :=
  tracks_statementOf hhi (tracks_statementAt le_rfl (Nat.le_add_left ..))

end Grammar

end RasterShader
