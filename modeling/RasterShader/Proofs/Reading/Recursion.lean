import Mathlib
import RasterShader.Proofs.Reading.Progress
import RasterShader.Proofs.Reading.Rules

/-!
# The recursion of expressions

The rules for expressions are written against the rules they recurse into.  Here two such records
are compared: if they do the same on all levels of nesting from the next one up to the limit
(`ExprRules.Track`), the rules written against them do the same, since each of them enters a level
before it recurses.  Rounds of recursion beyond those levels therefore make no difference
(`track_exprRules`), and the recursion that the grammar bounds by `Parser.maxDepth` is one without
bounds.
-/

namespace RasterShader

open ParserM

/-- The rules of two records do the same at certain levels of nesting, and use characters when they
succeed. -/
structure ExprRules.Track (lo hi : Nat) (rules rules' : ExprRules) : Prop where
  expression : Tracks lo hi false rules.expression rules'.expression fun _ => True
  assignment : Tracks lo hi false rules.assignment rules'.assignment fun _ => True
  unary : Tracks lo hi false rules.unary rules'.unary fun _ => True

theorem ExprRules.Track.deeper {lo hi : Nat} {rules rules' : ExprRules}
    (h : rules.Track lo hi rules') : rules.Track (lo + 1) hi rules' :=
  ⟨h.expression.deeper, h.assignment.deeper, h.unary.deeper⟩

namespace Grammar

variable {lo hi : Nat} {deep : Bool} {rules rules' : ExprRules}

theorem advances_finishTerm (t : Term) :
    Advances lo hi deep (finishTerm t) fun _ => False := by
  cases t with
  | value e => exact advances_pure not_false
  | type ty span => exact (still_report _ _).bind_tracks fun _ => advances_pure not_false
  | functions overloads span =>
    exact (still_report _ _).bind_tracks fun _ => advances_pure not_false

theorem tracks_argumentStep (h : rules.Track lo hi rules') (found : List Expr) :
    Tracks lo hi deep (argumentStep rules found) (argumentStep rules' found) fun r =>
      r.isLeft = true := by
  refine h.assignment.any.bind_used fun e => ?_
  refine (advances_accepts (by decide)).bind fun comma => ?_
  cases comma <;> exact advances_pure (by simp)

theorem tracks_arguments (h : rules.Track lo hi rules') :
    Tracks lo hi deep (arguments rules) (arguments rules') fun _ => True := by
  refine (advances_accept? (by decide)).bind fun o => ?_
  cases o with
  | some close => exact advances_pure (by simp)
  | none =>
    refine (tracks_loop (tracks_argumentStep h) _).bind fun found => ?_
    exact (advances_expect (by decide)).bind_used fun _ => advances_pure not_false

theorem still_literal (x : Checked Expr) : Still (term.literal x) :=
  (still_forM fun _ => still_report _ _).bind fun _ => still_pure _

theorem tracks_term (hhi : Parser.maxDepth ≤ hi) (h : rules.Track (lo + 1) Parser.maxDepth rules') :
    Tracks lo hi true (term rules) (term rules') fun _ => True := by
  refine tracks_nextToken_bind fun t => ?_
  have value {x : ParserM Expr} (hx : Still x) (ht : t.kind ≠ .endOfFile) :
      Follows lo hi true t (x >>= fun e => pure (Term.value e)) (x >>= fun e => pure (Term.value e))
        fun _ => True :=
    (hx.bind_tracks fun _ => advances_pure not_false).follows_used ht
  dsimp only
  split
  · rename_i hkind
    have ht : t.kind ≠ .endOfFile := by simp [hkind]
    refine still_get.bind_follows fun p => ?_
    split
    · exact (advances_pure not_false).follows_used ht
    · exact (advances_pure not_false).follows_used ht
    · exact value (still_check _) ht
  · exact value (still_literal _) (by simp [*])
  · exact value (still_literal _) (by simp [*])
  · exact (advances_pure not_false).follows_used (by simp [*])
  · exact (advances_pure not_false).follows_used (by simp [*])
  · refine Tracks.follows_used ?_ (by simp [*])
    refine tracks_enter_bind hhi ?_
    refine h.expression.any.bind_used fun e => ?_
    exact (advances_expect (by decide)).bind_used fun _ => advances_pure not_false
  · exact (still_report _ _).bind_follows fun _ => advances_failure.follows_weak

/-- Sizes and indices in brackets, after the opening one. -/
theorem tracks_bracketed {α : Type} {close : Token → ParserM α} {size size' : ParserM α}
    (hclose : ∀ t, Still (close t)) (hsize : Tracks lo hi deep size size' fun _ => False) :
    Tracks lo hi deep
      (accept? .rightBracket >>= fun o => match o with | some t => close t | none => size)
      (accept? .rightBracket >>= fun o => match o with | some t => close t | none => size')
      fun _ => False := by
  refine (advances_accept? (by decide)).bind fun o => ?_
  cases o with
  | some t => exact (advances_still (hclose t)).mono fun _ hb => hb.1
  | none => exact hsize.mono fun _ hb => hb.1

theorem tracks_typeSuffix (h : rules.Track lo hi rules') (opening : Token) (ty : Ty) (span : Span) :
    Tracks lo hi deep (typeSuffix rules opening ty span) (typeSuffix rules' opening ty span)
      fun _ => False := by
  refine still_dialect.bind_tracks fun dialect => ?_
  refine tracks_bracketed (fun t => (still_check _).bind fun _ => still_pure _) ?_
  refine h.expression.any.bind_used fun size => ?_
  refine (advances_expect (by decide)).bind_used fun close => ?_
  exact (still_check _).bind_tracks fun _ => advances_pure not_false

theorem tracks_indexSuffix (h : rules.Track lo hi rules') (opening : Token) (base : Expr) :
    Tracks lo hi deep (indexSuffix rules opening base) (indexSuffix rules' opening base)
      fun _ => False := by
  refine tracks_bracketed (fun t => (still_report _ _).bind fun _ => still_pure _) ?_
  refine h.expression.any.bind_used fun i => ?_
  refine (advances_expect (by decide)).bind_used fun close => ?_
  exact advances_still (still_check _)

theorem tracks_dotSuffix (h : rules.Track lo hi rules') (base : Expr) :
    Tracks lo hi deep (dotSuffix rules base) (dotSuffix rules' base) fun _ => False := by
  refine (advances_expect (by decide)).bind_used fun name => ?_
  refine (advances_accepts (by decide)).bind fun paren => ?_
  cases paren with
  | true =>
    exact (tracks_arguments h).bind_used fun _ => advances_still (still_check _)
  | false =>
    refine still_dialect.bind_tracks fun _ => ?_
    exact (advances_still (still_check _)).mono fun _ hb => hb.1

theorem advances_digitSwizzle (token : Token) (base : Expr) :
    Advances lo hi deep (digitSwizzle token base) fun _ => False := by
  refine tracks_nextRawToken_bind fun raw => ?_
  split
  · exact (still_dialect.bind_tracks fun _ => advances_still (still_check _)).follows_weak
  · exact follows_pushBack (still_dialect.bind_tracks fun _ => advances_still (still_check _))

theorem tracks_suffix (h : rules.Track lo hi rules') (t : Term) :
    Tracks lo hi deep (suffix rules t) (suffix rules' t) fun _ => False := by
  refine tracks_nextToken_bind fun token => ?_
  have value {x x' : ParserM Expr} (hx : Tracks lo hi deep x x' fun _ => False) :
      Follows lo hi deep token (x >>= fun e => pure (Term.value e))
        (x' >>= fun e => pure (Term.value e)) fun _ => False :=
    (hx.bind fun _ => advances_pure (by simp)).follows_weak
  have called {f : List Expr × Token → ParserM Term} (hf : ∀ a, Still (f a)) :
      Follows lo hi deep token (arguments rules >>= f) (arguments rules' >>= f) fun _ => False :=
    Tracks.follows_weak <|
      (tracks_arguments h).bind_used fun a => advances_still (hf a)
  split
  · exact called fun _ => still_dialect.bind fun _ => (still_check _).bind fun _ => still_pure _
  · exact called fun _ => (still_check _).bind fun _ => still_pure _
  · refine called fun a => ?_
    dsimp only
    split
    · exact (still_report _ _).bind fun _ => still_pure _
    · exact still_pure _
  · exact (tracks_typeSuffix h token _ _).follows_weak
  · exact follows_pushBack ((advances_finishTerm _).bind fun _ => advances_pure (by simp))
  · exact follows_pushBack ((advances_finishTerm _).bind fun _ => advances_pure (by simp))
  · exact value (tracks_indexSuffix h token _)
  · exact value (tracks_dotSuffix h _)
  · exact value (advances_digitSwizzle token _)
  · exact value (advances_still (still_check _))
  · exact value (advances_still (still_check _))
  · exact (still_report _ _).bind_follows fun _ => (advances_pure not_false).follows_weak

/-! ## Rules that enter a level -/

theorem tracks_suffixStep (hhi : Parser.maxDepth ≤ hi)
    (h : rules.Track (lo + 1) Parser.maxDepth rules') (t : Term) :
    Tracks lo hi true (suffixStep rules t) (suffixStep rules' t) fun _ => False := by
  refine advances_peek.bind fun token => ?_
  split
  · refine TracksFrom.mono (tracks_enter_bind (S := fun _ => False) hhi ?_) fun _ hb => hb.1
    exact (tracks_suffix h t).bind fun _ => advances_pure (by simp)
  · exact (advances_finishTerm t).bind fun _ => advances_pure (by simp)

theorem tracks_postfixExpression (hhi : Parser.maxDepth ≤ hi)
    (h : rules.Track (lo + 1) Parser.maxDepth rules') :
    Tracks lo hi deep (postfixExpression rules) (postfixExpression rules') fun _ => True :=
  Tracks.nested <| (tracks_term hhi h).bind_used fun first =>
    tracks_iterate (tracks_suffixStep hhi h) _ first

theorem tracks_unaryExpression (hhi : Parser.maxDepth ≤ hi)
    (h : rules.Track (lo + 1) Parser.maxDepth rules') :
    Tracks lo hi deep (unaryExpression rules) (unaryExpression rules') fun _ => True := by
  refine Tracks.nested (advances_peek.bind fun token => ?_)
  refine TracksFrom.mono (S := fun _ => True) ?_ fun _ _ => trivial
  have operation : Tracks lo hi true
      (ofOption (Operator.ofToken? token.kind) >>= fun op => nextToken >>= fun _ =>
        enter >>= fun _ =>
        rules.unary >>= fun operand => dialect >>= fun d =>
          check (Typing.prefixOperation d token.span op operand))
      (ofOption (Operator.ofToken? token.kind) >>= fun op => nextToken >>= fun _ =>
        enter >>= fun _ =>
        rules'.unary >>= fun operand => dialect >>= fun d =>
          check (Typing.prefixOperation d token.span op operand)) fun _ => True := by
    refine (still_ofOption _).bind_tracks fun op => ?_
    refine Tracks.bind advances_nextToken.weaken fun _ => ?_
    refine TracksFrom.mono (tracks_enter_bind (S := fun _ => True) hhi ?_) fun _ _ => trivial
    refine h.unary.any.bind_used fun operand => ?_
    exact still_dialect.bind_tracks fun _ => advances_still (still_check _)
  split <;> first | exact operation | exact tracks_postfixExpression hhi h

/-- One round of the loop over operators of one level. -/
def binaryStep (operators : List TokenKind) (operand : ParserM Expr) (left : Expr) :
    ParserM (Expr ⊕ Expr) := do
  let token ← peek
  if !operators.contains token.kind then return .inr left
  let op ← ofOption (Operator.ofToken? token.kind)
  let _ ← nextToken
  enter
  let right ← operand
  return .inl (← check (Typing.binary (← dialect) left op right))

theorem binaryExpression_cons (rules : ExprRules) (operators : List TokenKind)
    (tighter : List (List TokenKind)) :
    binaryExpression rules (operators :: tighter) = nested (do
      loop (← binaryExpression rules tighter)
        (binaryStep operators (binaryExpression rules tighter))) := rfl

theorem tracks_binaryStep {operand operand' : ParserM Expr} (hhi : Parser.maxDepth ≤ hi)
    (h : Tracks (lo + 1) Parser.maxDepth true operand operand' fun _ => True)
    (operators : List TokenKind) (left : Expr) :
    Tracks lo hi true (binaryStep operators operand left) (binaryStep operators operand' left)
      fun r => r.isLeft = true := by
  refine advances_peek.bind fun token => ?_
  split
  · exact advances_pure (by simp)
  · refine (still_ofOption _).bind_tracks fun op => ?_
    refine Tracks.bind advances_nextToken.weaken fun _ => ?_
    refine TracksFrom.mono (tracks_enter_bind (S := fun _ => True) hhi ?_) fun _ _ => trivial
    refine h.bind_used fun right => ?_
    exact still_dialect.bind_tracks fun _ =>
      (still_check _).bind_tracks fun _ => advances_pure not_false

theorem tracks_binaryExpression (hhi : Parser.maxDepth ≤ hi)
    (h : rules.Track (lo + 1) Parser.maxDepth rules') (levels : List (List TokenKind)) :
    Tracks lo hi deep (binaryExpression rules levels) (binaryExpression rules' levels)
      fun _ => True := by
  induction levels generalizing lo hi deep with
  | nil => exact tracks_unaryExpression hhi h
  | cons operators tighter ih =>
    rw [binaryExpression_cons, binaryExpression_cons]
    refine Tracks.nested ((ih hhi h).bind_used fun first => ?_)
    exact tracks_loop (tracks_binaryStep hhi (ih le_rfl h.deeper) operators) first

theorem tracks_ternaryExpression (hhi : Parser.maxDepth ≤ hi)
    (h : rules.Track (lo + 1) Parser.maxDepth rules') :
    Tracks lo hi deep (ternaryExpression rules) (ternaryExpression rules') fun _ => True := by
  refine Tracks.nested ((tracks_binaryExpression hhi h _).bind_used fun test => ?_)
  refine (advances_accept? (by decide)).bind fun o => ?_
  cases o with
  | none => exact advances_pure (by simp)
  | some question =>
    refine TracksFrom.mono (tracks_enter_bind (S := fun _ => False) hhi ?_) fun _ hb => hb.1
    refine h.expression.any.bind_used fun ifTrue => ?_
    refine (advances_expect (by decide)).bind_used fun _ => ?_
    refine h.assignment.any.bind_used fun ifFalse => ?_
    exact still_dialect.bind_tracks fun _ => advances_still (still_check _)

theorem tracks_assignmentExpression (hhi : Parser.maxDepth ≤ hi)
    (h : rules.Track (lo + 1) Parser.maxDepth rules') :
    Tracks lo hi deep (assignmentExpression rules) (assignmentExpression rules') fun _ => True := by
  refine Tracks.nested ((tracks_ternaryExpression hhi h).bind_used fun left => ?_)
  refine advances_peekKind.bind fun kind => ?_
  split
  · split
    · refine Tracks.bind advances_nextToken.weaken fun _ => ?_
      refine TracksFrom.mono (tracks_enter_bind (S := fun _ => False) hhi ?_) fun _ hb => hb.1.1
      refine h.assignment.any.bind_used fun right => ?_
      exact still_dialect.bind_tracks fun _ => advances_still (still_check _)
    · exact advances_pure (by simp)
  · exact advances_pure (by simp)

/-- One round of the loop over commas. -/
def commaStep (rules : ExprRules) (left : Expr) : ParserM (Expr ⊕ Expr) := do
  if !(← accepts .comma) then return .inr left
  enter
  let right ← assignmentExpression rules
  return .inl (← check (Typing.binary (← dialect) left .comma right))

theorem commaExpression_eq (rules : ExprRules) : commaExpression rules = nested (do
    loop (← assignmentExpression rules) (commaStep rules)) := rfl

theorem tracks_commaStep (hhi : Parser.maxDepth ≤ hi)
    (h : rules.Track (lo + 1) Parser.maxDepth rules') (left : Expr) :
    Tracks lo hi true (commaStep rules left) (commaStep rules' left) fun r => r.isLeft = true := by
  refine (advances_accepts (by decide)).bind fun comma => ?_
  cases comma with
  | false => exact advances_pure (by simp)
  | true =>
    refine TracksFrom.mono (tracks_enter_bind (S := fun _ => False) hhi ?_) fun _ hb => hb.2 rfl
    refine (tracks_assignmentExpression le_rfl h.deeper).bind_used fun right => ?_
    exact still_dialect.bind_tracks fun _ =>
      (still_check _).bind_tracks fun _ => advances_pure not_false

theorem tracks_commaExpression (hhi : Parser.maxDepth ≤ hi)
    (h : rules.Track (lo + 1) Parser.maxDepth rules') :
    Tracks lo hi deep (commaExpression rules) (commaExpression rules') fun _ => True := by
  rw [commaExpression_eq, commaExpression_eq]
  exact Tracks.nested ((tracks_assignmentExpression hhi h).bind_used fun first =>
    tracks_loop (tracks_commaStep hhi h) first)

/-! ## The loop over suffixes -/

/-- Every suffix enters a level. -/
theorem depth_lt_of_suffixStep {p q : Parser} {t next : Term}
    (h : rules.Track (p.depth + 1) Parser.maxDepth rules) (sound : p.Sound)
    (hrun : (suffixStep rules t).runOn p = (some (.inl next), q)) :
    p.Onward q ∧ p.depth < q.depth ∧ q.depth ≤ Parser.maxDepth := by
  obtain ⟨token, r, hpeek, taken⟩ := runOn_peek sound
  have onward := taken.onward_pushBack sound
  have hdepth : r.depth = p.depth := taken.depth
  rw [suffixStep, runOn_bind, hpeek] at hrun
  dsimp only at hrun
  split at hrun
  · obtain ⟨onward', hlt, hlimit⟩ := depth_lt_of_enter_bind (S := fun _ => False)
      (by
        dsimp only
        rw [hdepth]
        exact (tracks_suffix h t).bind fun _ => advances_pure (by simp)) onward.sound hrun
    exact ⟨onward.trans onward', hdepth ▸ hlt, hlimit⟩
  · rw [runOn_bind] at hrun
    rcases hfinish : (finishTerm t).runOn { r with pushback := some token } with ⟨_ | e, r'⟩
      <;> rw [hfinish] at hrun <;> cases hrun

/-- A loop over suffixes ends, with no more of them than levels that may still be entered. -/
theorem exists_loops_suffixStep {p : Parser}
    (h : ∀ lo, rules.Track lo Parser.maxDepth rules) (t : Term) (sound : p.Sound) :
    ∃ n ≤ Parser.maxDepth - p.depth, Loops (suffixStep rules) n t p
      ((iterate (suffixStep rules) (Parser.maxDepth + 1) t).runOn p) := by
  refine exists_loops_iterate (I := Parser.Sound) (m := fun p => Parser.maxDepth - p.depth)
    (fun t p next q sound hround => ?_) t sound (by omega)
  obtain ⟨onward, hlt, hlimit⟩ := depth_lt_of_suffixStep (h _) sound hround
  exact ⟨onward.sound, by omega⟩

/-! ## The knot -/

/-- With a round for each level that may still be entered, further rounds make no difference. -/
theorem track_exprRules {n m lo : Nat} (hn : n ≤ m) (hlo : Parser.maxDepth ≤ lo + n) :
    (exprRules n).Track (lo + 1) Parser.maxDepth (exprRules m) := by
  induction n generalizing m lo with
  | zero =>
    have vacuous {α : Type} (x x' : ParserM α) :
        Tracks (lo + 1) Parser.maxDepth false x x' fun _ => True := by
      intro p _ hp
      omega
    exact ⟨vacuous _ _, vacuous _ _, vacuous _ _⟩
  | succ n ih =>
    obtain ⟨m, rfl⟩ : ∃ k, m = k + 1 := ⟨m - 1, by omega⟩
    have h : (exprRules n).Track (lo + 1 + 1) Parser.maxDepth (exprRules m) :=
      ih (by omega) (by omega)
    exact ⟨tracks_commaExpression le_rfl h, tracks_assignmentExpression le_rfl h,
      tracks_unaryExpression le_rfl h⟩

/-- However many rounds there are, the rules make progress. -/
theorem track_exprRules_self (hhi : Parser.maxDepth ≤ hi) (n : Nat) :
    (exprRules n).Track lo hi (exprRules n) := by
  induction n generalizing lo hi with
  | zero => exact ⟨advances_failure, advances_failure, advances_failure⟩
  | succ n ih =>
    exact ⟨tracks_commaExpression hhi (ih le_rfl), tracks_assignmentExpression hhi (ih le_rfl),
      tracks_unaryExpression hhi (ih le_rfl)⟩

theorem advances_expression (hhi : Parser.maxDepth ≤ hi) :
    Advances lo hi deep expression fun _ => True :=
  tracks_commaExpression hhi (track_exprRules le_rfl (Nat.le_add_left ..))

theorem advances_assignment (hhi : Parser.maxDepth ≤ hi) :
    Advances lo hi deep assignment fun _ => True :=
  tracks_assignmentExpression hhi (track_exprRules le_rfl (Nat.le_add_left ..))

end Grammar

end RasterShader
