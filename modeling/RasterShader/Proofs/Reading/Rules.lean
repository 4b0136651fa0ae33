import RasterShader.Proofs.Reading.Text

/-!
# What the rules for expressions read

One lemma for each rule of the grammar of expressions: with the tokens of a construct ahead, and
with its operands read as given, the rule reads the construct and checks it. `reader` numbers the
rules by the rank of the loosest operation they read. A looser rule also reads what a tighter one
reads, as long as the next token does not go on with an operation of its own
(`reads_reader_of_le`).
-/

namespace RasterShader

/-- Several results with all their reports. -/
def Checked.all {α : Type} (xs : List (Checked α)) : Checked (List α) :=
  ⟨xs.map Checked.value, xs.flatMap Checked.reports⟩

/-- A checked expression as a term. -/
def Checked.asTerm (x : Checked Expr) : Checked Grammar.Term := ⟨.value x.value, x.reports⟩

/-! ## The first token -/

namespace Grammar

/-- Tokens of the operators that stand before their operand. -/
def prefixKinds : List TokenKind :=
  [.plus, .minus, .logicalNot, .bitwiseNot, .plusPlus, .minusMinus]

/-- The lexemes start with one that can start an expression, and if `tight` with one that is not an
operator. -/
def Leads (tight : Bool) (ls : List Lexeme) : Prop :=
  ∃ l rest, ls = l :: rest ∧ l.kind ≠ .rightParen ∧ l.kind ≠ .rightBracket ∧
    (tight = true → l.kind ∉ prefixKinds)

theorem Leads.append {t : Bool} {ls : List Lexeme} (h : Leads t ls) (m : List Lexeme) :
    Leads t (ls ++ m) := by
  obtain ⟨l, rest, rfl, hl⟩ := h
  exact ⟨l, rest ++ m, rfl, hl⟩

theorem Leads.mono {t u : Bool} {ls : List Lexeme} (h : Leads t ls) (hu : u = true → t = true) :
    Leads u ls := by
  obtain ⟨l, rest, hls, hparen, hbracket, hprefix⟩ := h
  exact ⟨l, rest, hls, hparen, hbracket, fun ht => hprefix (hu ht)⟩

theorem Leads.enclosed {e : Expr} {p : Precedence}
    (h : Leads (e.rank < Precedence.prefixed.rank) e.lexemes) :
    Leads (p.rank ≤ Precedence.prefixed.rank) (Expr.enclosed (p.rank ≤ e.rank) e.lexemes) := by
  unfold Expr.enclosed
  split
  · exact ⟨.leftParen, _, rfl, by decide, by decide, fun _ => by decide⟩
  · rename_i hneeded
    obtain ⟨l, rest, hls, hparen, hbracket, hprefix⟩ := h
    refine ⟨l, rest, hls, hparen, hbracket, fun htight => hprefix ?_⟩
    simp only [decide_eq_true_iff] at *
    omega

theorem leads_name (t : Bool) (name : String) (ls : List Lexeme) :
    Leads t (.name name :: ls) :=
  ⟨_, ls, rfl, by simp [Lexeme.name], by simp [Lexeme.name],
    fun _ => by simp [Lexeme.name, prefixKinds]⟩

end Grammar

/-! ## Looser rules -/

/-- Tokens that may start a suffix. -/
def Grammar.suffixKinds : List TokenKind :=
  [.leftBracket, .dot, .leftParen, .plusPlus, .minusMinus, .floatLiteral]

theorem Grammar.isSuffix_eq_false {t : Token} (h : t.kind ∉ suffixKinds) : isSuffix t = false := by
  unfold isSuffix
  split <;> simp_all [suffixKinds]

/-- The token goes on with no operation that binds as tightly as `r`, and with no suffix. -/
structure Lexeme.Closes (l : Lexeme) (r : Nat) : Prop where
  suffix : l.kind ∉ Grammar.suffixKinds
  operator : ∀ op, Operator.ofToken? l.kind = some op → r < op.precedence.rank
  question : l.kind = .question → r < Precedence.ternary.rank

theorem Lexeme.Closes.mono {l : Lexeme} {r r' : Nat} (h : l.Closes r) (hr : r' ≤ r) :
    l.Closes r' :=
  ⟨h.suffix, fun op hop => hr.trans_lt (h.operator op hop), fun hq => hr.trans_lt (h.question hq)⟩

namespace Grammar

open ParserM

/-- The rule that reads operations up to a rank. -/
def reader (rules : ExprRules) (r : Nat) : ParserM Expr :=
  if r ≤ Precedence.prefixed.rank then unaryExpression rules
  else if r ≤ Precedence.logicalOr.rank then
    binaryExpression rules (binaryLevels.drop (Precedence.logicalOr.rank - r))
  else if r ≤ Precedence.ternary.rank then ternaryExpression rules
  else if r ≤ Precedence.assignment.rank then assignmentExpression rules
  else commaExpression rules

variable {s : Session} {rules : ExprRules} {d r : Nat} {l : Lexeme} {ls rest : List Lexeme}
  {Q : Checked Expr → Prop}

/-- The rules for binary operators, by the rank of the operators. -/
theorem exists_reader_succ (rules : ExprRules) (h : Precedence.prefixed.rank ≤ r)
    (h' : r < Precedence.logicalOr.rank) :
    ∃ operators tighter, reader rules (r + 1) = binaryExpression rules (operators :: tighter) ∧
      reader rules r = binaryExpression rules tighter ∧
      ∀ kind, operators.contains kind =
        (Operator.ofToken? kind).any (·.precedence.rank == r + 1) := by
  have hlo : 2 ≤ r := h
  have hhi : r < 13 := h'
  interval_cases r <;> exact ⟨_, _, rfl, rfl, fun kind => by cases kind <;> rfl⟩

theorem any_rank_eq_false (hl : l.Closes r) :
    (Operator.ofToken? l.kind).any (·.precedence.rank == r) = false := by
  cases hop : Operator.ofToken? l.kind with
  | none => rfl
  | some op =>
    have := hl.operator op hop
    simp only [Option.any_some, beq_eq_false_iff_ne]
    omega

/-- A rule reads what the next tighter one reads, if no operation of its own follows. -/
theorem reads_reader_succ (hr : Precedence.prefixed.rank ≤ r) (hr' : r < Precedence.sequence.rank)
    (h : Reads s (reader rules r) d d ls (l :: rest) Q) (hl : l.Closes (r + 1)) :
    Reads s (reader rules (r + 1)) d d ls (l :: rest) Q := by
  by_cases hbinary : r < Precedence.logicalOr.rank
  · obtain ⟨operators, tighter, hsucc, hreader, hoperators⟩ := exists_reader_succ rules hr hbinary
    rw [hsucc, binaryExpression]
    rw [hreader] at h
    refine Reads.nested (k := d) (h.bind_last fun x hx => reads_loop fun fuel hfuel => ?_)
    refine reads_iterate_done (by omega) (b := x.value) ?_ (by simpa using hx)
    refine Reads.bind_first reads_peek fun t ht => ?_
    have hnot : operators.contains t.kind = false := by
      rw [ht.kind, hoperators, any_rank_eq_false hl]
    simp only [hnot]
    exact reads_pure ⟨rfl, rfl⟩
  have hlo : 13 ≤ r := Nat.not_lt.1 hbinary
  have hhi : r < 16 := hr'
  interval_cases r
  · -- A choice.
    show Reads s (ternaryExpression rules) d d ls (l :: rest) Q
    have hquestion : l.kind ≠ .question := fun hq => absurd (hl.question hq) (by decide)
    refine Reads.nested (k := d) (h.bind_last fun x hx => ?_)
    refine Reads.bind_first (reads_accept?_of_ne hquestion) ?_
    rintro _ rfl
    exact reads_pure (by simpa using hx)
  · -- An assignment.
    show Reads s (assignmentExpression rules) d d ls (l :: rest) Q
    refine Reads.nested (k := d) (h.bind_last fun x hx => ?_)
    have hpeek : Reads s peekKind d d [] (l :: rest) (Clean (· = l.kind)) :=
      Reads.bind_first reads_peek fun t ht => reads_pure ⟨rfl, ht.kind⟩
    refine Reads.bind_first hpeek ?_
    rintro _ rfl
    cases hop : Operator.ofToken? l.kind with
    | none => exact reads_pure (by simpa using hx)
    | some op =>
      have hrank := hl.operator op hop
      have hassign : op.isAssignment = false := by
        revert hrank
        cases op <;> decide
      simp only [hassign]
      exact reads_pure (by simpa using hx)
  · -- A sequence.
    show Reads s (commaExpression rules) d d ls (l :: rest) Q
    have hcomma : l.kind ≠ .comma := fun hk =>
      absurd (hl.operator .comma (by rw [hk]; rfl)) (by decide)
    refine Reads.nested (k := d) (h.bind_last fun x hx => reads_loop fun fuel hfuel => ?_)
    refine reads_iterate_done (by omega) (b := x.value) ?_ (by simpa using hx)
    refine Reads.bind_first (reads_accepts_of_ne hcomma) ?_
    rintro _ rfl
    exact reads_pure ⟨rfl, rfl⟩

theorem reads_reader_of_le {r' : Nat} (hr : Precedence.prefixed.rank ≤ r) (hle : r ≤ r')
    (hr' : r' ≤ Precedence.sequence.rank)
    (h : Reads s (reader rules r) d d ls (l :: rest) Q) (hl : l.Closes r') :
    Reads s (reader rules r') d d ls (l :: rest) Q := by
  induction r', hle using Nat.le_induction with
  | base => exact h
  | succ r' hle ih =>
    exact reads_reader_succ (hr.trans hle) hr' (ih (by omega) (hl.mono (by omega))) hl

/-! ## Terms and suffixes -/

/-- One round of the loop over suffixes. -/
def suffixStep (rules : ExprRules) (t : Term) : ParserM (Term ⊕ Expr) := do
  if isSuffix (← peek) then
    enter
    return .inl (← suffix rules t)
  else return .inr (← finishTerm t)

theorem postfixExpression_eq (rules : ExprRules) : postfixExpression rules = nested (do
    iterate (suffixStep rules) (Parser.maxDepth + 1) (← term rules)) := rfl

/-- A term and some suffixes are read, and `k` levels are entered on the way, whenever what comes
behind them is read as `F` asks for. Every suffix takes a round and enters a level, so that there
are rounds enough as long as there are levels. -/
def Starts (s : Session) (rules : ExprRules) (d : Nat) (ls : List Lexeme) (k : Nat)
    (F : List Lexeme → Prop) (R : Checked Term → Prop) : Prop :=
  ∀ ⦃fuel d' : Nat⦄ ⦃m rest : List Lexeme⦄ ⦃Q : Checked Expr → Prop⦄,
    Parser.maxDepth < fuel + d → F (m ++ rest) →
    (∀ x fuel, R x → Parser.maxDepth < fuel + (d + k) →
      Reads s (iterate (suffixStep rules) fuel x.value) (d + k) d' m rest
        fun y => Q ⟨y.value, x.reports ++ y.reports⟩) →
    Reads s (do iterate (suffixStep rules) fuel (← term rules)) d d' (ls ++ m) rest Q

variable {k : Nat} {F F' : List Lexeme → Prop} {R R' : Checked Term → Prop}

theorem Starts.of_term (h : ∀ rest, F rest → Reads s (term rules) d (d + k) ls rest R) :
    Starts s rules d ls k F R := by
  intro fuel d' m rest Q hfuel hF hnext
  exact (h _ hF).bind fun x hx => hnext x fuel hx (by omega)

theorem Starts.suffix {sfx : List Lexeme} (h : Starts s rules d ls k F R)
    (hd : d + k < Parser.maxDepth) (hF : ∀ rest, F' rest → F (l :: (sfx ++ rest)))
    (hl : ∀ t, IsToken l t → isSuffix t = true)
    (hsuffix : ∀ x rest, R x → F' rest →
      Reads s (suffix rules x.value) (d + k + 1) (d + k + 1) (l :: sfx) rest
        fun y => R' ⟨y.value, x.reports ++ y.reports⟩) :
    Starts s rules d (ls ++ l :: sfx) (k + 1) F' R' := by
  intro fuel d' m rest Q hfuel hF' hnext
  rw [List.append_assoc]
  refine h hfuel (by simpa using hF _ hF') fun x fuel hx hfuel => ?_
  obtain ⟨fuel, rfl⟩ : ∃ n, fuel = n + 1 := ⟨fuel - 1, by omega⟩
  refine reads_iterate_next (k := d + k + 1) (R := fun y => R' ⟨y.value, x.reports ++ y.reports⟩)
    ?_ fun y hy => ?_
  · refine Reads.bind_first reads_peek fun t ht => ?_
    simp only [hl t ht, if_true]
    refine Reads.bind_first (reads_enter hd) fun _ _ => ?_
    exact (hsuffix x _ hx hF').bind_last fun y hy => reads_pure ⟨y, hy, by simp⟩
  · have := hnext _ fuel hy (by omega)
    simpa only [List.append_assoc, Nat.add_assoc] using this

/-- The suffixes end before a token that is not one. -/
theorem Starts.finish (h : Starts s rules d ls k F R) (hd : d + k ≤ Parser.maxDepth)
    (hF : F (l :: rest)) (hl : ∀ t, IsToken l t → isSuffix t = false)
    (hR : ∀ x, R x → ∃ y : Checked Expr, x = ⟨.value y.value, y.reports⟩ ∧ Q y) :
    Reads s (postfixExpression rules) d d ls (l :: rest) Q := by
  rw [postfixExpression_eq, ← List.append_nil ls]
  refine Reads.nested (k := d + k) (h (by omega) hF fun x fuel hx hfuel => ?_)
  obtain ⟨y, rfl, hy⟩ := hR x hx
  refine reads_iterate_done (by omega) (b := y.value) ?_ (by simpa using hy)
  refine Reads.bind_first reads_peek fun t ht => ?_
  simp only [hl t ht]
  exact reads_pure ⟨rfl, rfl⟩

/-! ### Terms -/

theorem reads_term_value {name : String} (h : s.NamesValue name) :
    Reads s (term rules) d d [.name name] rest fun x => ∃ span,
      x = (Typing.identifier span name (s.symbols.lookup? name)).asTerm := by
  refine Reads.bind_clean (m := []) reads_nextToken fun t ht => ?_
  have hkind : t.kind = .identifier := ht.kind
  have htext : t.text = name := ht.text
  simp only [hkind]
  refine Reads.bind_first reads_get ?_
  rintro p ⟨sink, hp⟩
  have hlookup : p.session.symbols.lookup? t.text = s.symbols.lookup? name := by rw [hp, htext]
  rw [hlookup, htext]
  split
  · exact absurd ‹_› (h.1 _)
  · exact absurd ‹_› (h.2 _)
  · refine (reads_check _).bind_last ?_
    rintro _ rfl
    exact reads_pure ⟨t.span, by simp [Checked.asTerm]⟩

theorem reads_term_functions {name : String} {overloads : List FunctionDecl}
    (h : s.symbols.lookup? name = some (.functions overloads)) :
    Reads s (term rules) d d [.name name] rest
      fun x => ∃ span, x = ⟨.functions overloads span, []⟩ := by
  refine Reads.bind_clean (m := []) reads_nextToken fun t ht => ?_
  have hkind : t.kind = .identifier := ht.kind
  have htext : t.text = name := ht.text
  simp only [hkind]
  refine Reads.bind_first reads_get ?_
  rintro p ⟨sink, hp⟩
  have hlookup : p.session.symbols.lookup? t.text = some (.functions overloads) := by
    rw [hp, htext, ← h]
  rw [hlookup]
  exact reads_pure ⟨t.span, rfl⟩

theorem reads_term_type {name : String} {ty : Ty} (h : s.symbols.lookup? name = some (.type ty)) :
    Reads s (term rules) d d [.name name] rest fun x => ∃ span, x = ⟨.type ty span, []⟩ := by
  refine Reads.bind_clean (m := []) reads_nextToken fun t ht => ?_
  have hkind : t.kind = .identifier := ht.kind
  have htext : t.text = name := ht.text
  simp only [hkind]
  refine Reads.bind_first reads_get ?_
  rintro p ⟨sink, hp⟩
  have hlookup : p.session.symbols.lookup? t.text = some (.type ty) := by rw [hp, htext, ← h]
  rw [hlookup]
  exact reads_pure ⟨t.span, rfl⟩

theorem reads_term_number {kind : TokenKind} {text : String}
    (hkind : kind = .intLiteral ∨ kind = .floatLiteral)
    (h : ∀ offset, (Expr.readNumber ⟨kind, offset, text⟩).reports = []) :
    Reads s (term rules) d d [⟨kind, text⟩] rest fun x => ∃ offset,
      x = (Expr.readNumber ⟨kind, offset, text⟩).asTerm := by
  refine Reads.bind_clean (m := []) reads_nextToken fun t ht => ?_
  have htoken : t = ⟨kind, t.offset, text⟩ := by
    obtain ⟨k, o, w⟩ := t
    obtain ⟨rfl, rfl⟩ := Lexeme.mk.inj ht
    rfl
  have hclean := h t.offset
  -- A number that is not refused makes no reports.
  have hliteral (x : Checked Expr) (hx : x.reports = []) :
      Reads s (term.literal x) d d [] rest (Clean (· = x.value)) := by
    rw [term.literal, hx]
    exact reads_pure ⟨rfl, rfl⟩
  rcases hkind with rfl | rfl
  · rw [htoken]
    refine Reads.bind_first (hliteral _ hclean) ?_
    rintro _ rfl
    exact reads_pure ⟨t.offset, by simp only [Checked.asTerm, hclean]; rfl⟩
  · rw [htoken]
    refine Reads.bind_first (hliteral _ hclean) ?_
    rintro _ rfl
    exact reads_pure ⟨t.offset, by simp only [Checked.asTerm, hclean]; rfl⟩

theorem reads_term_boolean {text : String} (value : Bool) :
    Reads s (term rules) d d [⟨if value then .trueLiteral else .falseLiteral, text⟩] rest
      fun x => ∃ span, x = (pure (.boolean span value) : Checked Expr).asTerm := by
  refine Reads.bind_clean (m := []) reads_nextToken fun t ht => ?_
  cases value with
  | true =>
    have hkind : t.kind = .trueLiteral := ht.kind
    simp only [hkind]
    exact reads_pure ⟨t.span, rfl⟩
  | false =>
    have hkind : t.kind = .falseLiteral := ht.kind
    simp only [hkind]
    exact reads_pure ⟨t.span, rfl⟩

theorem reads_term_enclosed (hd : d < Parser.maxDepth)
    (h : Reads s rules.expression (d + 1) (d + 1) ls (.rightParen :: rest) Q) :
    Reads s (term rules) d (d + 1) (.leftParen :: ls ++ [Lexeme.rightParen]) rest fun x =>
      ∃ y span, Q y ∧ x = ⟨.value (y.value.withSpan span), y.reports⟩ := by
  refine Reads.bind_clean (m := ls ++ [Lexeme.rightParen]) reads_nextToken fun t ht => ?_
  have hkind : t.kind = .leftParen := ht.kind
  simp only [hkind]
  refine Reads.bind_first (reads_enter hd) fun _ _ => ?_
  refine h.bind fun y hy => ?_
  refine Reads.bind_clean (m := []) (reads_expect rfl) fun close _ => ?_
  exact reads_pure ⟨y, t.spanTo close, hy, by simp⟩

/-! ### Arguments -/

variable {B : Expr → Checked Expr → Prop}

/-- One result for each expression, as `B` says. -/
def Each (B : Expr → Checked Expr → Prop) (es : List Expr) (xs : List (Checked Expr)) : Prop :=
  xs.length = es.length ∧ ∀ p ∈ es.zip xs, B p.1 p.2

theorem Each.cons {e : Expr} {es : List Expr} {x : Checked Expr} {xs : List (Checked Expr)}
    (hs : Each B es xs) (h : B e x) : Each B (e :: es) (x :: xs) := by
  refine ⟨by simp [hs.1], ?_⟩
  rw [List.zip_cons_cons, List.forall_mem_cons]
  exact ⟨h, hs.2⟩

/-- Arguments with one result for each, and the parenthesis that closes them. -/
def Arguments (B : Expr → Checked Expr → Prop) (args : List Expr)
    (y : Checked (List Expr × Token)) : Prop :=
  ∃ xs close, Each B args xs ∧ y = ⟨((Checked.all xs).value, close), (Checked.all xs).reports⟩

/-- One round of the loop over arguments. -/
def argumentStep (rules : ExprRules) (found : List Expr) :
    ParserM (List Expr ⊕ List Expr) := do
  let found := found ++ [← rules.assignment]
  return if ← accepts .comma then .inl found else .inr found

theorem length_le_argumentLexemes (args : List Expr) :
    args.length ≤ (Expr.argumentLexemes args).length + 1 := by
  induction args with
  | nil => simp
  | cons e args ih =>
    cases args with
    | nil => simp
    | cons e' args =>
      rw [Expr.argumentLexemes]
      · simp only [List.length_append, List.length_cons] at *
        omega
      · simp

theorem closes_rightParen (r : Nat) : Lexeme.rightParen.Closes r :=
  ⟨by decide, fun _ hop => (by cases hop), fun hq => (by cases hq)⟩

theorem closes_rightBracket (r : Nat) : Lexeme.rightBracket.Closes r :=
  ⟨by decide, fun _ hop => (by cases hop), fun hq => (by cases hq)⟩

theorem closes_colon (r : Nat) : Lexeme.colon.Closes r :=
  ⟨by decide, fun _ hop => (by cases hop), fun hq => (by cases hq)⟩

theorem closes_endOfFile (r : Nat) : Lexeme.endOfFile.Closes r :=
  ⟨by decide, fun _ hop => (by cases hop), fun hq => (by cases hq)⟩

theorem closes_comma : Lexeme.comma.Closes Precedence.assignment.rank :=
  ⟨by decide, fun _ hop => (by cases hop; decide), fun hq => (by cases hq)⟩

theorem closes_question : Lexeme.question.Closes Precedence.logicalOr.rank :=
  ⟨by decide, fun _ hop => (by cases hop), fun _ => by decide⟩

theorem closes_ofOperator {op : Operator} (hop : Precedence.prefixed.rank < op.precedence.rank)
    (hr : r < op.precedence.rank) : (Lexeme.ofOperator op).Closes r := by
  refine ⟨?_, fun op' hop' => ?_, fun hq => ?_⟩
  · revert hop
    cases op <;> decide
  · rw [Lexeme.ofToken?_ofOperator, Option.some.injEq] at hop'
    rwa [← hop']
  · have := Lexeme.ofToken?_ofOperator op
    rw [hq] at this
    cases this

/-- An argument as it is written. -/
def argumentOf (e : Expr) : List Lexeme :=
  Expr.enclosed (Precedence.sequence.rank ≤ e.rank) e.lexemes

theorem reads_argumentStep {args : List Expr} (hne : args ≠ [])
    (h : ∀ e ∈ args, ∀ l rest, l.Closes Precedence.assignment.rank →
      Reads s rules.assignment d d (argumentOf e) (l :: rest) (B e))
    (found : List Expr) {fuel : Nat} (hfuel : args.length ≤ fuel) :
    Reads s (iterate (argumentStep rules) fuel found) d d (Expr.argumentLexemes args)
      (.rightParen :: rest) fun y => ∃ xs, Each B args xs ∧
        y = ⟨found ++ (Checked.all xs).value, (Checked.all xs).reports⟩ := by
  induction args generalizing found fuel with
  | nil => exact absurd rfl hne
  | cons e args ih =>
    obtain ⟨fuel, rfl⟩ : ∃ n, fuel = n + 1 := ⟨fuel - 1, by simp at hfuel; omega⟩
    cases args with
    | nil =>
      rw [Expr.argumentLexemes, iterate]
      refine (show Reads s (argumentStep rules found) d d (argumentOf e) (.rightParen :: rest)
        fun y => ∃ x, B e x ∧ y = ⟨.inr (found ++ [x.value]), x.reports⟩ from
        ?_).bind_last ?_
      · refine (h e (by simp) _ _ (closes_rightParen _)).bind_last fun x hx => ?_
        refine Reads.bind_first (reads_accepts_of_ne (by decide)) ?_
        rintro _ rfl
        exact reads_pure ⟨x, hx, by simp⟩
      · rintro _ ⟨x, hx, rfl⟩
        exact reads_pure ⟨[x], Each.cons ⟨rfl, by simp⟩ hx, by simp [Checked.all]⟩
    | cons e' args =>
      rw [Expr.argumentLexemes]
      · rw [← List.singleton_append, ← List.append_assoc]
        refine reads_iterate_next (k := d) (R := fun y => ∃ x, B e x ∧
          y = ⟨found ++ [x.value], x.reports⟩) ?_ ?_
        · refine (h e (by simp) _ _ closes_comma).bind fun x hx => ?_
          refine Reads.bind_clean (m := []) (reads_accepts (l := .comma) rfl) ?_
          rintro _ rfl
          exact reads_pure ⟨_, ⟨x, hx, rfl⟩, by simp⟩
        · rintro _ ⟨x, hx, rfl⟩
          have hrest := ih (by simp) (fun a ha => h a (List.mem_cons_of_mem _ ha))
            (found ++ [x.value]) (Nat.le_of_succ_le_succ hfuel)
          refine hrest.mono ?_
          rintro _ ⟨xs, hxs, rfl⟩
          exact ⟨x :: xs, hxs.cons hx, by simp [Checked.all]⟩
      · simp

theorem reads_arguments {args : List Expr}
    (h : ∀ e ∈ args, ∀ l rest, l.Closes Precedence.assignment.rank →
      Reads s rules.assignment d d (argumentOf e) (l :: rest) (B e))
    (hleads : ∀ e ∈ args, Leads false (argumentOf e)) :
    Reads s (arguments rules) d d (Expr.argumentLexemes args ++ [Lexeme.rightParen]) rest
      (Arguments B args) := by
  cases args with
  | nil =>
    refine Reads.bind_clean (m := []) (reads_accept? rfl) ?_
    rintro _ ⟨close, rfl, -⟩
    exact reads_pure ⟨[], close, ⟨rfl, by simp⟩, rfl⟩
  | cons e args =>
    obtain ⟨l, ls, hls, hl⟩ : Leads false (Expr.argumentLexemes (e :: args)) := by
      have he := hleads e (by simp)
      cases args with
      | nil => rwa [Expr.argumentLexemes]
      | cons e' args =>
        rw [Expr.argumentLexemes]
        · exact he.append _
        · simp
    have haccept : Reads s (accept? .rightParen) d d []
        ((Expr.argumentLexemes (e :: args) ++ [Lexeme.rightParen]) ++ rest) (Clean (· = none)) := by
      rw [hls]
      exact reads_accept?_of_ne hl.1
    refine Reads.bind_first haccept ?_
    rintro _ rfl
    have hloop : Reads s (loop [] (argumentStep rules)) d d (Expr.argumentLexemes (e :: args))
        (.rightParen :: rest) fun y => ∃ xs, Each B (e :: args) xs ∧
          y = ⟨[] ++ (Checked.all xs).value, (Checked.all xs).reports⟩ := by
      refine reads_loop fun fuel hfuel => reads_argumentStep (by simp) h [] ?_
      have := length_le_argumentLexemes (e :: args)
      simp only [List.length_append, List.length_cons] at *
      omega
    refine hloop.bind ?_
    rintro _ ⟨xs, hxs, rfl⟩
    refine Reads.bind_clean (m := []) (reads_expect rfl) fun close _ => ?_
    exact reads_pure ⟨xs, close, hxs, by simp⟩

/-! ### Suffixes -/

/-- Something comes next, and it is not a call. -/
def NotCall (ls : List Lexeme) : Prop := ∃ l rest, ls = l :: rest ∧ l.kind ≠ .leftParen

theorem reads_suffix_member {base : Expr} {name : String} (h : NotCall rest) :
    Reads s (suffix rules (.value base)) d d [.dot, .name name] rest fun y =>
      ∃ place, y = (Typing.member s.dialect base name place).asTerm := by
  obtain ⟨l, rest, rfl, hl⟩ := h
  refine Reads.bind_clean (m := [.name name]) reads_nextToken fun t ht => ?_
  have hkind : t.kind = .dot := ht.kind
  simp only [hkind]
  refine (show Reads s (dotSuffix rules base) d d [.name name] (l :: rest) fun y =>
    ∃ place, y = Typing.member s.dialect base name place from ?_).bind_last ?_
  · refine Reads.bind_clean (m := []) (reads_expect rfl) fun t ht => ?_
    refine Reads.bind_first (reads_accepts_of_ne hl) ?_
    rintro _ rfl
    refine Reads.bind_first reads_dialect ?_
    rintro _ rfl
    refine (reads_check _).mono ?_
    rintro _ rfl
    exact ⟨t.span, by rw [show t.text = name from ht.text]⟩
  · rintro _ ⟨place, rfl⟩
    exact reads_pure ⟨place, by simp [Checked.asTerm]⟩

theorem reads_suffix_method {base : Expr} {name : String} {args : List Expr}
    (h : Reads s (arguments rules) d d ls rest (Arguments B args)) :
    Reads s (suffix rules (.value base)) d d (.dot :: .name name :: .leftParen :: ls) rest fun y =>
      ∃ xs span, Each B args xs ∧
        y = (Checked.all xs >>= Typing.callMethod span base name).asTerm := by
  refine Reads.bind_clean (m := .name name :: .leftParen :: ls) reads_nextToken fun t ht => ?_
  have hkind : t.kind = .dot := ht.kind
  simp only [hkind]
  refine (show Reads s (dotSuffix rules base) d d (.name name :: .leftParen :: ls) rest fun y =>
    ∃ xs span, Each B args xs ∧ y = Checked.all xs >>= Typing.callMethod span base name from
    ?_).bind_last ?_
  · refine Reads.bind_clean (m := .leftParen :: ls) (reads_expect rfl) fun t ht => ?_
    refine Reads.bind_clean (m := ls) (reads_accepts (l := .leftParen) rfl) ?_
    rintro _ rfl
    refine h.bind_last ?_
    rintro _ ⟨xs, close, hxs, rfl⟩
    refine (reads_check _).mono ?_
    rintro _ rfl
    exact ⟨xs, base.span.join close.span, hxs, by rw [show t.text = name from ht.text]; rfl⟩
  · rintro _ ⟨xs, span, hxs, rfl⟩
    exact reads_pure ⟨xs, span, hxs, by simp [Checked.asTerm]⟩

theorem reads_suffix_call {overloads : List FunctionDecl} {place : Span} {args : List Expr}
    (h : Reads s (arguments rules) d d ls rest (Arguments B args)) :
    Reads s (suffix rules (.functions overloads place)) d d (.leftParen :: ls) rest fun y =>
      ∃ xs span, Each B args xs ∧
        y = (Checked.all xs >>= Typing.call span overloads).asTerm := by
  refine Reads.bind_clean (m := ls) reads_nextToken fun t ht => ?_
  have hkind : t.kind = .leftParen := ht.kind
  simp only [hkind]
  refine h.bind_last ?_
  rintro _ ⟨xs, close, hxs, rfl⟩
  refine (reads_check _).bind_last ?_
  rintro _ rfl
  exact reads_pure ⟨xs, place.join close.span, hxs, by simp [Checked.asTerm]⟩

theorem reads_suffix_construct {ty : Ty} {place : Span} {args : List Expr}
    (h : Reads s (arguments rules) d d ls rest (Arguments B args)) :
    Reads s (suffix rules (.type ty place)) d d (.leftParen :: ls) rest fun y =>
      ∃ xs span, Each B args xs ∧
        y = (Checked.all xs >>= Typing.construct s.dialect span ty).asTerm := by
  refine Reads.bind_clean (m := ls) reads_nextToken fun t ht => ?_
  have hkind : t.kind = .leftParen := ht.kind
  simp only [hkind]
  refine h.bind_last ?_
  rintro _ ⟨xs, close, hxs, rfl⟩
  refine Reads.bind_first reads_dialect ?_
  rintro _ rfl
  refine (reads_check _).bind_last ?_
  rintro _ rfl
  exact reads_pure ⟨xs, place.join close.span, hxs, by simp [Checked.asTerm]⟩

theorem reads_suffix_index {base : Expr}
    (h : Reads s rules.expression d d ls (.rightBracket :: rest) Q) (hleads : Leads false ls) :
    Reads s (suffix rules (.value base)) d d (.leftBracket :: ls ++ [Lexeme.rightBracket]) rest
      fun y => ∃ x place, Q x ∧ y = (do Typing.element base (← x) place).asTerm := by
  refine Reads.bind_clean (m := ls ++ [Lexeme.rightBracket]) reads_nextToken fun t ht => ?_
  have hkind : t.kind = .leftBracket := ht.kind
  simp only [hkind]
  refine (show Reads s (indexSuffix rules t base) d d (ls ++ [Lexeme.rightBracket]) rest fun y =>
    ∃ x place, Q x ∧ y = (do Typing.element base (← x) place) from ?_).bind_last ?_
  · have haccept : Reads s (accept? .rightBracket) d d [] ((ls ++ [Lexeme.rightBracket]) ++ rest)
        (Clean (· = none)) := by
      obtain ⟨l, ls, rfl, hl⟩ := hleads
      exact reads_accept?_of_ne hl.2.1
    refine Reads.bind_first haccept ?_
    rintro _ rfl
    refine h.bind fun x hx => ?_
    refine Reads.bind_clean (m := []) (reads_expect rfl) fun close _ => ?_
    refine (reads_check _).mono ?_
    rintro _ rfl
    exact ⟨x, _, hx, rfl⟩
  · rintro _ ⟨x, place, hx, rfl⟩
    exact reads_pure ⟨x, place, hx, by simp [Checked.asTerm]⟩

theorem reads_suffix_step {base : Expr} {op : Operator} (hop : op ∈ Expr.postfixOperators) :
    Reads s (suffix rules (.value base)) d d [.ofOperator op] rest fun y =>
      ∃ place, y = (Typing.postfixOperation base op place).asTerm := by
  refine Reads.bind_clean (m := []) reads_nextToken fun t ht => ?_
  simp only [Expr.postfixOperators, List.mem_cons, List.not_mem_nil, or_false] at hop
  rcases hop with rfl | rfl
  · have hkind : t.kind = .plusPlus := ht.kind
    simp only [hkind]
    refine (reads_check _).bind_last ?_
    rintro _ rfl
    exact reads_pure ⟨t.span, by simp [Checked.asTerm]⟩
  · have hkind : t.kind = .minusMinus := ht.kind
    simp only [hkind]
    refine (reads_check _).bind_last ?_
    rintro _ rfl
    exact reads_pure ⟨t.span, by simp [Checked.asTerm]⟩

/-! ### Operations -/

theorem reads_unary_of_postfix (h : Reads s (postfixExpression rules) d d ls rest Q)
    (hleads : Leads true ls) : Reads s (unaryExpression rules) d d ls rest Q := by
  obtain ⟨l, ls, rfl, -, -, hl⟩ := hleads
  have hnot := hl rfl
  refine Reads.nested (k := d) (Reads.bind_first reads_peek fun t ht => ?_)
  rw [← ht.kind] at hnot
  split
  all_goals first
    | exact h
    | (rename_i hkind; rw [hkind] at hnot; exact absurd hnot (by decide))

theorem reads_unary {op : Operator} (hop : op ∈ Expr.prefixOperators) (hd : d < Parser.maxDepth)
    (h : Reads s rules.unary (d + 1) (d + 1) ls rest Q) :
    Reads s (unaryExpression rules) d d (.ofOperator op :: ls) rest fun y =>
      ∃ x place, Q x ∧ y = x >>= Typing.prefixOperation s.dialect place op := by
  refine Reads.nested (k := d + 1) (Reads.bind_first reads_peek fun t ht => ?_)
  have hbody : Reads s (do
      let op ← ofOption (Operator.ofToken? t.kind)
      let _ ← nextToken
      enter
      let operand ← rules.unary
      check (Typing.prefixOperation (← dialect) t.span op operand)) d (d + 1)
      (.ofOperator op :: ls) rest fun y =>
        ∃ x place, Q x ∧ y = x >>= Typing.prefixOperation s.dialect place op := by
    rw [ht.kind, Lexeme.ofToken?_ofOperator]
    refine Reads.bind_first (reads_ofOption (P := (· = op)) rfl) ?_
    rintro _ rfl
    refine Reads.bind_clean (m := ls) reads_nextToken fun _ _ => ?_
    refine Reads.bind_first (reads_enter hd) fun _ _ => ?_
    refine h.bind_last fun x hx => ?_
    refine Reads.bind_first reads_dialect ?_
    rintro _ rfl
    refine (reads_check _).mono ?_
    rintro _ rfl
    exact ⟨x, t.span, hx, rfl⟩
  have hkind : t.kind ∈ prefixKinds := by
    rw [ht.kind]
    revert hop
    cases op <;> decide
  split
  all_goals first
    | exact hbody
    | (simp only [prefixKinds, List.mem_cons, List.not_mem_nil, or_false] at hkind
       tauto)

/-- An operation on two operands, as a postcondition. -/
def Combines (s : Session) (op : Operator) (P Q : Checked Expr → Prop) (z : Checked Expr) : Prop :=
  ∃ x y, P x ∧ Q y ∧ z = do
    let l ← x
    let r ← y
    Typing.binary s.dialect l op r

variable {op : Operator} {P : Checked Expr → Prop} {m : List Lexeme}

theorem reads_binary (hr : Precedence.prefixed.rank ≤ r) (hr' : r < Precedence.logicalOr.rank)
    (hop : op.precedence.rank = r + 1) (hd : d < Parser.maxDepth) (hclose : l.Closes (r + 1))
    (hleft : Reads s (reader rules r) d d ls (.ofOperator op :: (m ++ l :: rest)) P)
    (hright : Reads s (reader rules r) (d + 1) (d + 1) m (l :: rest) Q) :
    Reads s (reader rules (r + 1)) d d (ls ++ .ofOperator op :: m) (l :: rest)
      (Combines s op P Q) := by
  obtain ⟨operators, tighter, hsucc, hreader, hoperators⟩ := exists_reader_succ rules hr hr'
  rw [hsucc, binaryExpression]
  rw [hreader] at hleft hright
  refine Reads.nested (k := d + 1) (hleft.bind fun x hx => reads_loop fun fuel hfuel => ?_)
  obtain ⟨fuel, rfl⟩ : ∃ n, fuel = n + 2 := ⟨fuel - 2, by simp at hfuel; omega⟩
  rw [← List.append_nil (Lexeme.ofOperator op :: m)]
  refine reads_iterate_next (k := d + 1) (R := fun z => ∃ y, Q y ∧
    z = y >>= Typing.binary s.dialect x.value op) ?_ ?_
  · -- The operator and its right operand.
    refine Reads.bind_first reads_peek fun t ht => ?_
    have hcontains : operators.contains t.kind = true := by
      rw [ht.kind, hoperators, Lexeme.ofToken?_ofOperator, Option.any_some, hop, beq_self_eq_true]
    simp only [hcontains]
    rw [ht.kind, Lexeme.ofToken?_ofOperator]
    refine Reads.bind_first (reads_ofOption (P := (· = op)) rfl) ?_
    rintro _ rfl
    refine Reads.bind_clean (m := m) reads_nextToken fun _ _ => ?_
    refine Reads.bind_first (reads_enter hd) fun _ _ => ?_
    refine hright.bind_last fun y hy => ?_
    refine Reads.bind_first reads_dialect ?_
    rintro _ rfl
    refine (reads_check _).bind_last ?_
    rintro _ rfl
    exact reads_pure ⟨_, ⟨y, hy, rfl⟩, by simp⟩
  · -- No operator of the level follows.
    rintro _ ⟨y, hy, rfl⟩
    refine reads_iterate_done (by omega) (b := (y >>= Typing.binary s.dialect x.value op).value)
      ?_ ⟨x, y, hx, hy, by simp; rfl⟩
    refine Reads.bind_first reads_peek fun t ht => ?_
    have hcontains : operators.contains t.kind = false := by
      rw [ht.kind, hoperators, any_rank_eq_false hclose]
    simp only [hcontains]
    exact reads_pure ⟨rfl, rfl⟩

theorem reads_assignment (hop : op.precedence.rank = Precedence.assignment.rank)
    (hd : d < Parser.maxDepth)
    (hleft : Reads s (ternaryExpression rules) d d ls (.ofOperator op :: (m ++ l :: rest)) P)
    (hright : Reads s rules.assignment (d + 1) (d + 1) m (l :: rest) Q) :
    Reads s (assignmentExpression rules) d d (ls ++ .ofOperator op :: m) (l :: rest)
      (Combines s op P Q) := by
  refine Reads.nested (k := d + 1) (hleft.bind fun x hx => ?_)
  have hpeek : Reads s peekKind d d [] (.ofOperator op :: m ++ l :: rest)
      (Clean (· = (Lexeme.ofOperator op).kind)) :=
    Reads.bind_first reads_peek fun t ht => reads_pure ⟨rfl, ht.kind⟩
  refine Reads.bind_first hpeek ?_
  rintro _ rfl
  have hassign : op.isAssignment = true := by
    revert hop
    cases op <;> decide
  rw [Lexeme.ofToken?_ofOperator]
  simp only [hassign]
  refine Reads.bind_clean (m := m) reads_nextToken fun _ _ => ?_
  refine Reads.bind_first (reads_enter hd) fun _ _ => ?_
  refine hright.bind_last fun y hy => ?_
  refine Reads.bind_first reads_dialect ?_
  rintro _ rfl
  refine (reads_check _).mono ?_
  rintro _ rfl
  exact ⟨x, y, hx, hy, rfl⟩

theorem reads_sequence (hd : d < Parser.maxDepth) (hclose : l.kind ≠ .comma)
    (hleft : Reads s (assignmentExpression rules) d d ls (.comma :: (m ++ l :: rest)) P)
    (hright : Reads s (assignmentExpression rules) (d + 1) (d + 1) m (l :: rest) Q) :
    Reads s (commaExpression rules) d d (ls ++ .comma :: m) (l :: rest)
      (Combines s .comma P Q) := by
  refine Reads.nested (k := d + 1) (hleft.bind fun x hx => reads_loop fun fuel hfuel => ?_)
  obtain ⟨fuel, rfl⟩ : ∃ n, fuel = n + 2 := ⟨fuel - 2, by simp at hfuel; omega⟩
  rw [← List.append_nil (Lexeme.comma :: m)]
  refine reads_iterate_next (k := d + 1) (R := fun z => ∃ y, Q y ∧
    z = y >>= Typing.binary s.dialect x.value .comma) ?_ ?_
  · refine Reads.bind_clean (m := m) (reads_accepts (l := .comma) rfl) ?_
    rintro _ rfl
    refine Reads.bind_first (reads_enter hd) fun _ _ => ?_
    refine hright.bind_last fun y hy => ?_
    refine Reads.bind_first reads_dialect ?_
    rintro _ rfl
    refine (reads_check _).bind_last ?_
    rintro _ rfl
    exact reads_pure ⟨_, ⟨y, hy, rfl⟩, by simp⟩
  · rintro _ ⟨y, hy, rfl⟩
    refine reads_iterate_done (by omega) (b := (y >>= Typing.binary s.dialect x.value .comma).value)
      ?_ ⟨x, y, hx, hy, by simp; rfl⟩
    refine Reads.bind_first (reads_accepts_of_ne hclose) ?_
    rintro _ rfl
    exact reads_pure ⟨rfl, rfl⟩

theorem reads_ternary {N : Checked Expr → Prop} {m' : List Lexeme} (hd : d < Parser.maxDepth)
    (htest : Reads s (binaryExpression rules binaryLevels) d d ls
      (.question :: (m ++ .colon :: (m' ++ l :: rest))) P)
    (htrue : Reads s rules.expression (d + 1) (d + 1) m (.colon :: (m' ++ l :: rest)) Q)
    (hfalse : Reads s rules.assignment (d + 1) (d + 1) m' (l :: rest) N) :
    Reads s (ternaryExpression rules) d d (ls ++ .question :: (m ++ .colon :: m')) (l :: rest)
      fun w => ∃ x y z place, P x ∧ Q y ∧ N z ∧ w = (do
        let t ← x
        let a ← y
        let b ← z
        Typing.ternary s.dialect t a b place) := by
  refine Reads.nested (k := d + 1) (Reads.bind (by simpa using htest) fun x hx => ?_)
  refine Reads.bind_clean (m := m ++ .colon :: m') (reads_accept? rfl) ?_
  rintro _ ⟨question, rfl, -⟩
  refine Reads.bind_first (reads_enter hd) fun _ _ => ?_
  refine Reads.bind (by simpa using htrue) fun y hy => ?_
  refine Reads.bind_clean (m := m') (reads_expect rfl) fun _ _ => ?_
  refine hfalse.bind_last fun z hz => ?_
  refine Reads.bind_first reads_dialect ?_
  rintro _ rfl
  refine (reads_check _).mono ?_
  rintro _ rfl
  exact ⟨x, y, z, question.span, hx, hy, hz, rfl⟩

end Grammar

end RasterShader
