import RasterShader.Proofs.Reading.Rules

/-!
# Printed expressions are read back

Reading the text of an expression checks the same operators again on the same operands
(`Grammar.expression_reads_text`). `Rereads s e x` says that `x` is what such a check of `e` gives,
at whatever places in the text: its reports, and an expression that is `e` again when the checks
leave what they are given as it is.

Operands in parentheses, suffixes and operators are each read by a rule of their own, and the
rules for looser operators also read what binds more tightly (`reads_reader_succ`), as long as the
next token does not go on with an operation (`Lexeme.Closes`). That the parentheses of the text
stand where the grammar needs them is what makes the induction on the expression go through.
-/

namespace RasterShader

namespace Expr

/-- The result of checking an expression again from its names and numbers up. Places in the text
are as they come. -/
inductive Rereads (s : Session) : Expr → Checked Expr → Prop
  | boolean {h : Head} {v : Float} {span : Span} :
    h.ty.isBoolean = true → Rereads s (literal h v) (pure (.boolean span (v != 0.0)))
  | number {h : Head} {v : Float} {offset : Nat} :
    h.ty.isBoolean = false → (literalTextOf v h.ty).startsWith "-" = false →
    Rereads s (literal h v) (readNumber ⟨literalKind v h.ty, offset,
      String.ofList (withoutSign (literalTextOf v h.ty).toList)⟩)
  | negative {h : Head} {v : Float} {offset : Nat} {place : Span} :
    h.ty.isBoolean = false → (literalTextOf v h.ty).startsWith "-" = true →
    Rereads s (literal h v)
      (readNumber ⟨literalKind v h.ty, offset,
        String.ofList (withoutSign (literalTextOf v h.ty).toList)⟩ >>=
        Typing.prefixOperation s.dialect place .minus)
  | reference {h : Head} {v : Variable} {init : Option Expr} {ref : RefKind} {span : Span} :
    Rereads s (reference h v init ref)
      (Typing.identifier span v.name (s.symbols.lookup? v.name))
  | binary {h : Head} {l r : Expr} {op : Operator} {x y : Checked Expr} :
    Rereads s l x → Rereads s r y → Rereads s (binary h l op r) (do
      let l ← x
      let r ← y
      Typing.binary s.dialect l op r)
  | prefixed {h : Head} {op : Operator} {e : Expr} {x : Checked Expr} {place : Span} :
    Rereads s e x → Rereads s (prefixed h op e) (x >>= Typing.prefixOperation s.dialect place op)
  | postfixed {h : Head} {op : Operator} {e : Expr} {x : Checked Expr} {place : Span} :
    Rereads s e x → Rereads s (postfixed h op e) (do Typing.postfixOperation (← x) op place)
  | field {h : Head} {base : Expr} {i : Nat} {x : Checked Expr} {place : Span} :
    Rereads s base x → Rereads s (field h base i)
      (do Typing.member s.dialect (← x) ((base.ty.fields[i]?.map FieldOf.name).getD "") place)
  | index {h : Head} {base i : Expr} {x y : Checked Expr} {place : Span} :
    Rereads s base x → Rereads s i y → Rereads s (index h base i) (do
      let base ← x
      let i ← y
      Typing.element base i place)
  | swizzle {h : Head} {base : Expr} {components : List Nat} {x : Checked Expr} {place : Span} :
    Rereads s base x → Rereads s (swizzle h base components)
      (do Typing.member s.dialect (← x) (String.ofList (components.map componentLetter)) place)
  | ternary {h : Head} {t a b : Expr} {x y z : Checked Expr} {place : Span} :
    Rereads s t x → Rereads s a y → Rereads s b z → Rereads s (ternary h t a b) (do
      let t ← x
      let a ← y
      let b ← z
      Typing.ternary s.dialect t a b place)
  | call {h : Head} {f : FunctionDecl} {args : List Expr} {overloads : List FunctionDecl}
    {xs : List (Checked Expr)} {span : Span} :
    s.symbols.lookup? f.name = some (.functions overloads) → xs.length = args.length →
    (∀ p ∈ args.zip xs, Rereads s p.1 p.2) →
    Rereads s (call h f args) (Checked.all xs >>= Typing.call span overloads)
  | childCall {h : Head} {child : Variable} {args : List Expr} {xs : List (Checked Expr)}
    {place span : Span} :
    xs.length = args.length → (∀ p ∈ args.zip xs, Rereads s p.1 p.2) →
    Rereads s (childCall h child args) (do
      let base ← Typing.identifier place child.name (s.symbols.lookup? child.name)
      let args ← Checked.all xs
      Typing.callMethod span base "eval" args)
  | convert {h : Head} {conversion : Conversion} {e : Expr} {ty : Ty} {x : Checked Expr}
    {span : Span} :
    s.symbols.lookup? h.ty.name = some (.type ty) → Rereads s e x →
    Rereads s (convert h conversion e) (Checked.all [x] >>= Typing.construct s.dialect span ty)
  | assemble {h : Head} {assembly : Assembly} {parts : List Expr} {ty : Ty}
    {xs : List (Checked Expr)} {span : Span} :
    s.symbols.lookup? h.ty.name = some (.type ty) → xs.length = parts.length →
    (∀ p ∈ parts.zip xs, Rereads s p.1 p.2) →
    Rereads s (assemble h assembly parts) (Checked.all xs >>= Typing.construct s.dialect span ty)
  /-- In parentheses. -/
  | enclosed {e : Expr} {x : Checked Expr} {span : Span} :
    Rereads s e x → Rereads s e ⟨x.value.withSpan span, x.reports⟩

/-- The loosest rule that reading the text of an expression recurses into at its end: an assignment
may stand behind the colon of a choice. -/
def reach (e : Expr) : Nat :=
  if e.rank = Precedence.ternary.rank then Precedence.assignment.rank else e.rank

theorem rank_le_reach (e : Expr) : e.rank ≤ e.reach := by
  unfold reach
  split
  · rename_i hternary
    rw [hternary]
    decide
  · exact le_rfl

theorem reach_le_sequence (e : Expr) : e.reach ≤ Precedence.sequence.rank := by
  unfold reach
  split
  · decide
  · exact Nat.le_of_lt_succ e.rank_lt_topLevel

/-- Only a choice reaches as far as a context that is looser than it. -/
theorem reach_lt {e : Expr} {p : Precedence} (h : e.rank < p.rank)
    (hp : p = .assignment → e.rank ≠ Precedence.ternary.rank) : e.reach < p.rank := by
  unfold reach
  split
  · rename_i hternary
    rw [hternary] at h
    have hne : p ≠ .assignment := fun heq => hp heq hternary
    revert h hne
    cases p <;> decide
  · exact h

theorem reach_le_assignment {e : Expr} (h : e.rank < Precedence.assignment.rank) :
    e.reach ≤ Precedence.assignment.rank := by
  unfold reach
  split
  · exact le_rfl
  · exact h.le

/-! ## Nesting -/

/-- Levels of something that is put in parentheses, if they are needed. -/
def deepened (needed : Bool) (levels : Nat) : Nat := if needed then levels + 1 else levels

/-- Levels that are still entered behind the text of an operand that takes suffixes: one for every
suffix. -/
def held : Expr → Nat
  | field _ base _ | swizzle _ base _ | index _ base _ =>
    (if Precedence.postfixed.rank ≤ base.rank then 1 else base.held) + 1
  | call .. | childCall .. | convert .. | assemble .. => 1
  | _ => 0

/-- Levels that are still entered behind what a suffix is put behind; parentheses count too. -/
def heldBehind (base : Expr) : Nat :=
  if Precedence.postfixed.rank ≤ base.rank then 1 else base.held

mutual

/-- Levels of nesting that reading the text of an expression enters. -/
def levels : Expr → Nat
  | literal h v => if (literalTextOf v h.ty).startsWith "-" then 1 else 0
  | binary _ l op r =>
    max (deepened (op.precedence.rank ≤ l.rank) l.levels)
      (deepened (op.precedence.rank ≤ r.rank) r.levels + 1)
  | prefixed _ _ x => deepened (Precedence.prefixed.rank ≤ x.rank) x.levels + 1
  | postfixed _ _ x | field _ x _ | swizzle _ x _ =>
    max (deepened (Precedence.postfixed.rank ≤ x.rank) x.levels) (x.heldBehind + 1)
  | index _ base i =>
    max (deepened (Precedence.postfixed.rank ≤ base.rank) base.levels)
      (base.heldBehind + 1 + i.levels)
  | ternary _ t a b =>
    max (deepened (Precedence.ternary.rank ≤ t.rank) t.levels)
      (max (deepened (Precedence.ternary.rank ≤ a.rank) a.levels)
        (deepened (Precedence.ternary.rank ≤ b.rank) b.levels) + 1)
  | convert _ _ x => deepened (Precedence.sequence.rank ≤ x.rank) x.levels + 1
  | call _ _ args | childCall _ _ args | assemble _ _ args => levelsOfAll args + 1
  | reference .. | poison _ => 0

/-- Levels that reading arguments enters. -/
def levelsOfAll : List Expr → Nat
  | [] => 0
  | e :: rest =>
    max (deepened (Precedence.sequence.rank ≤ e.rank) e.levels) (levelsOfAll rest)

end

theorem held_le_levels (e : Expr) : e.held ≤ e.levels := by
  cases e with
  | field h base i | swizzle h base c =>
    rw [held, levels]
    exact Nat.le_max_right ..
  | index h base i =>
    rw [held, levels]
    exact (Nat.le_add_right _ _).trans (Nat.le_max_right ..)
  | call | childCall | assemble | convert => simp [held, levels]
  | _ => simp [held]

theorem levels_le_levelsOfAll {args : List Expr} {e : Expr} (h : e ∈ args) :
    deepened (Precedence.sequence.rank ≤ e.rank) e.levels ≤ levelsOfAll args := by
  induction args with
  | nil => simp at h
  | cons a args ih =>
    rw [levelsOfAll]
    rcases List.mem_cons.1 h with rfl | h
    · exact Nat.le_max_left ..
    · exact (ih h).trans (Nat.le_max_right ..)

end Expr

/-! ## Reading operands -/

namespace Grammar

open ParserM RasterShader.Expr

variable {s : Session} {e : Expr} {ls rest : List Lexeme} {k n d r b v : Nat} {l : Lexeme}
  {Q : Checked Expr → Prop}

theorem literalKind_mem (v : Float) (ty : Ty) :
    literalKind v ty ∈ [TokenKind.trueLiteral, .falseLiteral, .floatLiteral, .intLiteral] := by
  unfold literalKind
  split
  · split <;> decide
  · split <;> decide

theorem leads_number {t : Bool} {kind : TokenKind} {text : String}
    (h : kind ∈ [TokenKind.trueLiteral, .falseLiteral, .floatLiteral, .intLiteral]) :
    Leads t [⟨kind, text⟩] := by
  have hkinds : ∀ kind ∈ [TokenKind.trueLiteral, .falseLiteral, .floatLiteral, .intLiteral],
      kind ≠ .rightParen ∧ kind ≠ .rightBracket ∧ kind ∉ prefixKinds := by decide
  obtain ⟨hparen, hbracket, hprefix⟩ := hkinds kind h
  exact ⟨_, [], rfl, hparen, hbracket, fun _ => hprefix⟩

theorem leads_operator (op : Operator) (ls : List Lexeme) : Leads false (.ofOperator op :: ls) := by
  refine ⟨_, ls, rfl, ?_, ?_, by simp⟩ <;> cases op <;> decide

/-- What a suffix is put behind starts with no operator. -/
theorem Leads.behind (h : Leads (e.rank < Precedence.prefixed.rank) e.lexemes) (t : Bool)
    (m : List Lexeme) :
    Leads t (Expr.enclosed (Precedence.postfixed.rank ≤ e.rank) e.lexemes ++ m) :=
  ((h.enclosed (p := .postfixed)).mono fun _ => by decide).append m

theorem leads_lexemes (h : Printed s e) :
    Leads (e.rank < Precedence.prefixed.rank) e.lexemes := by
  induction h with
  | @literal h v =>
    rw [lexemes]
    unfold signedLexemes
    split
    · rename_i cs heq
      have hneg : (literalTextOf v h.ty).startsWith "-" = true := by
        rw [String.startsWith_string_iff, heq]
        exact ⟨cs, rfl⟩
      exact (leads_operator .minus _).mono (by simp [rank, hneg])
    · exact leads_number (literalKind_mem v h.ty)
  | reference => exact leads_name _ _ _
  | @binary h l r op hop _ _ _ ih _ =>
    rw [lexemes]
    refine ((ih.enclosed (p := op.precedence)).mono fun htight => ?_).append _
    exact absurd (of_decide_eq_true htight) (Nat.not_lt.2 hop.le)
  | @prefixed h op x =>
    rw [lexemes]
    exact (leads_operator op _).mono (by simp [rank])
  | postfixed _ _ _ ih | field _ _ _ ih | swizzle _ _ _ ih => rw [lexemes]; exact ih.behind _ _
  | index _ _ _ ih _ =>
    rw [lexemes, List.append_assoc]
    exact ih.behind _ _
  | ternary _ _ _ ih _ _ =>
    rw [lexemes, List.append_assoc]
    refine ((ih.enclosed (p := .ternary)).mono fun htight => ?_).append _
    exact absurd (of_decide_eq_true htight : Precedence.ternary.rank < _) (by decide)
  | call | childCall | convert | assemble => exact leads_name _ _ _

/-- Every rule that reads operations up to a rank from `b` on reads the lexemes, with `v` levels. -/
def ReadsBack (s : Session) (Q : Checked Expr → Prop) (ls : List Lexeme) (v b : Nat) : Prop :=
  ∀ ⦃n d r : Nat⦄ ⦃l : Lexeme⦄ ⦃rest : List Lexeme⦄, Parser.maxDepth ≤ n + d →
    d + v ≤ Parser.maxDepth → Precedence.prefixed.rank ≤ r → b ≤ r →
    r ≤ Precedence.sequence.rank → l.Closes r →
    Reads s (reader (exprRules n) r) d d ls (l :: rest) Q

/-- The lexemes are read as a term with suffixes, with `v` levels of which `k` stay entered. -/
def StartsBack (s : Session) (Q : Checked Expr → Prop) (ls : List Lexeme) (k v : Nat) : Prop :=
  ∀ ⦃n d : Nat⦄, Parser.maxDepth ≤ n + d → d + v ≤ Parser.maxDepth →
    Starts s (exprRules n) d ls k NotCall fun x => ∃ y, Q y ∧ x = y.asTerm

theorem ReadsBack.mono {P : Checked Expr → Prop} (h : ReadsBack s P ls v b)
    (hQ : ∀ x, P x → Q x) : ReadsBack s Q ls v b :=
  fun _ _ _ _ _ hn hd hr hb hr' hl => (h hn hd hr hb hr' hl).mono hQ

theorem ReadsBack.of_le {b' : Nat} (h : ReadsBack s Q ls v b) (hb : b ≤ b') :
    ReadsBack s Q ls v b' :=
  fun _ _ _ _ _ hn hd hr hb' hr' hl => h hn hd hr (hb.trans hb') hr' hl

theorem StartsBack.mono {P : Checked Expr → Prop} {u : Nat} (h : StartsBack s P ls k v)
    (hQ : ∀ x, P x → Q x) (hu : v ≤ u) : StartsBack s Q ls k u := by
  intro n d hn hd fuel d' m rest R hfuel hF hnext
  refine h hn (by omega) hfuel hF fun x fuel hx hfuel => hnext x fuel ?_ hfuel
  obtain ⟨y, hy, rfl⟩ := hx
  exact ⟨y, hQ y hy, rfl⟩

theorem expression_exprRules_succ (n : Nat) :
    (exprRules (n + 1)).expression = reader (exprRules n) Precedence.sequence.rank := rfl

/-- The rules that others recurse into, one level deeper. -/
theorem exists_rules (hn : Parser.maxDepth ≤ n + d) (hd : d < Parser.maxDepth) :
    ∃ m, Parser.maxDepth ≤ m + (d + 1) ∧
      (exprRules n).expression = reader (exprRules m) Precedence.sequence.rank ∧
      (exprRules n).assignment = reader (exprRules m) Precedence.assignment.rank ∧
      (exprRules n).unary = reader (exprRules m) Precedence.prefixed.rank := by
  obtain ⟨m, rfl⟩ : ∃ m, n = m + 1 := ⟨n - 1, by omega⟩
  exact ⟨m, by omega, rfl, rfl, rfl⟩

theorem ReadsBack.expression (h : ReadsBack s Q ls v b) (hb : b ≤ Precedence.sequence.rank)
    (hn : Parser.maxDepth ≤ n + d) (hd : d + (v + 1) ≤ Parser.maxDepth)
    (hl : l.Closes Precedence.sequence.rank) :
    Reads s (exprRules n).expression (d + 1) (d + 1) ls (l :: rest) Q := by
  obtain ⟨m, hm, hrules, -, -⟩ := exists_rules hn (by omega)
  rw [hrules]
  exact h hm (by omega) (by decide) hb (by decide) hl

theorem ReadsBack.assignment (h : ReadsBack s Q ls v b) (hb : b ≤ Precedence.assignment.rank)
    (hn : Parser.maxDepth ≤ n + d) (hd : d + (v + 1) ≤ Parser.maxDepth)
    (hl : l.Closes Precedence.assignment.rank) :
    Reads s (exprRules n).assignment (d + 1) (d + 1) ls (l :: rest) Q := by
  obtain ⟨m, hm, -, hrules, -⟩ := exists_rules hn (by omega)
  rw [hrules]
  exact h hm (by omega) (by decide) hb (by decide) hl

theorem ReadsBack.unary (h : ReadsBack s Q ls v b) (hb : b ≤ Precedence.prefixed.rank)
    (hn : Parser.maxDepth ≤ n + d) (hd : d + (v + 1) ≤ Parser.maxDepth)
    (hl : l.Closes Precedence.prefixed.rank) :
    Reads s (exprRules n).unary (d + 1) (d + 1) ls (l :: rest) Q := by
  obtain ⟨m, hm, -, -, hrules⟩ := exists_rules hn (by omega)
  rw [hrules]
  exact h hm (by omega) (by decide) hb (by decide) hl

theorem notCall_of_closes (h : l.Closes r) : NotCall (l :: rest) :=
  ⟨l, rest, rfl, fun hkind => h.suffix (by rw [hkind]; decide)⟩

/-- What is read as a term with suffixes is read by every rule. -/
theorem StartsBack.readsBack (h : StartsBack s Q ls k v) (hk : k ≤ v) (hleads : Leads true ls) :
    ReadsBack s Q ls v b := by
  intro n d r l rest hn hd hr hb hr' hl
  refine reads_reader_of_le (r := Precedence.prefixed.rank) le_rfl hr hr' ?_ hl
  refine reads_unary_of_postfix ?_ hleads
  refine (h hn hd).finish (by omega) (notCall_of_closes hl)
    (fun t ht => isSuffix_eq_false (by rw [ht.kind]; exact hl.suffix)) ?_
  rintro _ ⟨y, hy, rfl⟩
  exact ⟨y, rfl, hy⟩

/-- The lexemes of the expression are read by every rule for operations as loose as it, and as a
term with suffixes if it is one. -/
structure Reread (s : Session) (e : Expr) : Prop where
  reads : ReadsBack s (Rereads s e) e.lexemes e.levels e.reach
  starts : e.rank = 0 → StartsBack s (Rereads s e) e.lexemes e.held e.levels

theorem Reread.of_starts (h : StartsBack s (Rereads s e) e.lexemes e.held e.levels)
    (hleads : Leads true e.lexemes) : Reread s e :=
  ⟨h.readsBack e.held_le_levels hleads, fun _ => h⟩

/-- An expression in parentheses is a term. -/
theorem Reread.enclosed (h : Reread s e) :
    StartsBack s (Rereads s e) (.leftParen :: e.lexemes ++ [Lexeme.rightParen]) 1
      (e.levels + 1) := by
  intro n d hn hd
  refine Starts.of_term fun rest _ => ?_
  refine (reads_term_enclosed (by omega) (h.reads.expression e.reach_le_sequence hn hd
    (closes_rightParen _))).mono ?_
  rintro _ ⟨y, span, hy, rfl⟩
  exact ⟨_, hy.enclosed, rfl⟩

/-- An operand is read by the rules for everything that needs no parentheses in its context. -/
theorem Reread.operand_of (h : Reread s e) {p : Precedence} (hb : e.rank < p.rank → e.reach ≤ b) :
    ReadsBack s (Rereads s e) (Expr.enclosed (p.rank ≤ e.rank) e.lexemes)
      (deepened (p.rank ≤ e.rank) e.levels) b := by
  by_cases hneeded : p.rank ≤ e.rank
  · simp only [Expr.enclosed, deepened, hneeded, decide_true, if_true]
    exact h.enclosed.readsBack (by omega) ⟨_, _, rfl, by decide, by decide, fun _ => by decide⟩
  · simp only [Expr.enclosed, deepened, hneeded, decide_false, Bool.false_eq_true, if_false]
    have hreach := hb (Nat.not_le.1 hneeded)
    intro n d r l rest hn hd hr hbr
    exact h.reads hn hd hr (hreach.trans hbr)

theorem Reread.operand (h : Reread s e) (p : Precedence)
    (hp : p = .assignment → e.rank ≠ Precedence.ternary.rank) :
    ReadsBack s (Rereads s e) (Expr.enclosed (p.rank ≤ e.rank) e.lexemes)
      (deepened (p.rank ≤ e.rank) e.levels) (p.rank - 1) :=
  h.operand_of fun hrank => Nat.le_sub_one_of_lt (reach_lt hrank hp)

/-- The right side of an assignment may be a choice. -/
theorem Reread.assigned (h : Reread s e) :
    ReadsBack s (Rereads s e) (Expr.enclosed (Precedence.assignment.rank ≤ e.rank) e.lexemes)
      (deepened (Precedence.assignment.rank ≤ e.rank) e.levels) Precedence.assignment.rank :=
  h.operand_of reach_le_assignment

/-- What a suffix is put behind is a term with suffixes. -/
theorem Reread.behind (h : Reread s e) :
    StartsBack s (Rereads s e) (Expr.enclosed (Precedence.postfixed.rank ≤ e.rank) e.lexemes)
      e.heldBehind (deepened (Precedence.postfixed.rank ≤ e.rank) e.levels) := by
  by_cases hneeded : Precedence.postfixed.rank ≤ e.rank
  · simp only [Expr.enclosed, deepened, heldBehind, hneeded, decide_true, if_true]
    exact h.enclosed
  · simp only [Expr.enclosed, deepened, heldBehind, hneeded, decide_false, Bool.false_eq_true,
      if_false]
    exact h.starts (Nat.lt_one_iff.1 (Nat.not_le.1 hneeded))

/-! ## Reading an expression -/

/-- An operation is read by the rule for its operator, when its operands are read by the tighter
rules; an assignment may also stand to the right of an assignment. -/
theorem reads_combined {P : Checked Expr → Prop} {op : Operator} {m : List Lexeme} {u : Nat}
    (hop : Precedence.prefixed.rank < op.precedence.rank)
    (hleft : ReadsBack s P ls u (op.precedence.rank - 1))
    (hright : ReadsBack s Q m v
      (if op.precedence = .assignment then op.precedence.rank else op.precedence.rank - 1))
    (hn : Parser.maxDepth ≤ n + d) (hu : d + u ≤ Parser.maxDepth)
    (hv : d + (v + 1) ≤ Parser.maxDepth) (hl : l.Closes op.precedence.rank) :
    Reads s (reader (exprRules n) op.precedence.rank) d d (ls ++ .ofOperator op :: m) (l :: rest)
      (Combines s op P Q) := by
  have hcases : op.precedence ≠ .assignment ∧ op.precedence.rank ≤ Precedence.logicalOr.rank ∨
      op.precedence = .assignment ∨ op = .comma := by
    cases op <;> decide
  rcases hcases with ⟨hne, hbinary⟩ | hassignment | rfl
  · obtain ⟨r, hr⟩ : ∃ r, op.precedence.rank = r + 1 := ⟨op.precedence.rank - 1, by omega⟩
    have hlogical : Precedence.logicalOr.rank ≤ Precedence.sequence.rank := by decide
    rw [if_neg hne] at hright
    rw [hr] at hop hleft hright hl hbinary ⊢
    exact reads_binary (by omega) (by omega) hr (by omega) hl
      (hleft hn hu (by omega) le_rfl (by omega) (closes_ofOperator (by omega) (by omega)))
      (hright (by omega) (by omega) (by omega) le_rfl (by omega) (hl.mono (by omega)))
  · rw [if_pos hassignment] at hright
    have hoperator : (Lexeme.ofOperator op).Closes Precedence.ternary.rank :=
      closes_ofOperator hop (by rw [hassignment]; decide)
    have hrank := congrArg Precedence.rank hassignment
    rw [hrank] at hleft hright hl ⊢
    exact reads_assignment hrank (by omega)
      (hleft hn hu (by decide) le_rfl (by decide) hoperator)
      (hright.assignment le_rfl hn hv hl)
  · have hcomma : l.kind ≠ .comma := fun hk =>
      absurd (hl.operator .comma (by rw [hk]; rfl)) (by decide)
    have hfirst : Reads s (reader (exprRules n) Precedence.assignment.rank) d d ls
        (.comma :: (m ++ l :: rest)) P :=
      hleft hn hu (by decide) le_rfl (by decide) closes_comma
    have hsecond : Reads s (reader (exprRules n) Precedence.assignment.rank) (d + 1) (d + 1) m
        (l :: rest) Q :=
      hright (by omega) (by omega) (by decide) le_rfl (by decide) (hl.mono (by decide))
    exact reads_sequence (by omega) hcomma hfirst hsecond

theorem readsBack_binary {h : Head} {x y : Expr} {op : Operator}
    (hop : Precedence.prefixed.rank < op.precedence.rank)
    (htarget : op.precedence = .assignment → x.rank ≠ Precedence.ternary.rank)
    (hx : Reread s x) (hy : Reread s y) :
    ReadsBack s (Rereads s (binary h x op y)) (binary h x op y).lexemes (binary h x op y).levels
      op.precedence.rank := by
  have hright : ReadsBack s (Rereads s y)
      (Expr.enclosed (op.precedence.rank ≤ y.rank) y.lexemes)
      (deepened (op.precedence.rank ≤ y.rank) y.levels)
      (if op.precedence = .assignment then op.precedence.rank else op.precedence.rank - 1) := by
    split
    · rename_i hassignment
      rw [hassignment]
      exact hy.assigned
    · exact hy.operand _ (absurd · ‹_›)
  intro n d r l rest hn hd hr hb hr' hl
  rw [levels] at hd
  rw [lexemes]
  refine reads_reader_of_le hop.le hb hr' ?_ hl
  refine (reads_combined hop (hx.operand _ htarget) hright hn (by omega) (by omega)
    (hl.mono hb)).mono ?_
  rintro _ ⟨x, y, hx, hy, rfl⟩
  exact .binary hx hy

/-- An operator before what the rule for operands with a prefix reads. -/
theorem readsBack_signed {P : Checked Expr → Prop} {op : Operator} (hop : op ∈ prefixOperators)
    (h : ReadsBack s P ls v b) (hb : b ≤ Precedence.prefixed.rank) :
    ReadsBack s (fun y => ∃ x place, P x ∧ y = x >>= Typing.prefixOperation s.dialect place op)
      (.ofOperator op :: ls) (v + 1) Precedence.prefixed.rank := by
  intro n d r l rest hn hd hr _ hr' hl
  refine reads_reader_of_le le_rfl hr hr' ?_ hl
  exact reads_unary hop (by omega) (h.unary hb hn hd (hl.mono hr))

theorem readsBack_prefixed {h : Head} {x : Expr} {op : Operator} (hop : op ∈ prefixOperators)
    (hx : Reread s x) :
    ReadsBack s (Rereads s (prefixed h op x)) (prefixed h op x).lexemes (prefixed h op x).levels
      Precedence.prefixed.rank := by
  rw [levels, lexemes]
  refine (readsBack_signed hop (hx.operand .prefixed (by simp)) (by decide)).mono ?_
  rintro _ ⟨x, place, hx, rfl⟩
  exact .prefixed hx

theorem readsBack_ternary {h : Head} {x y z : Expr} (hx : Reread s x) (hy : Reread s y)
    (hz : Reread s z) :
    ReadsBack s (Rereads s (ternary h x y z)) (ternary h x y z).lexemes (ternary h x y z).levels
      Precedence.assignment.rank := by
  intro n d r l rest hn hd hr hb hr' hl
  rw [levels] at hd
  rw [lexemes, List.append_assoc]
  have hternary : Precedence.ternary.rank ≤ Precedence.assignment.rank := by decide
  refine reads_reader_of_le (r := Precedence.ternary.rank) (by decide) (hternary.trans hb) hr' ?_ hl
  refine (reads_ternary (by omega)
    (hx.operand .ternary (by simp) hn (by omega) (by decide) le_rfl (by decide) closes_question)
    ((hy.operand .ternary (by simp)).expression (by decide) hn (by omega) (closes_colon _))
    ((hz.operand .ternary (by simp)).assignment (by decide) hn (by omega) (hl.mono hb))).mono ?_
  rintro _ ⟨x, y, z, place, hx, hy, hz, rfl⟩
  exact .ternary hx hy hz

/-! ## Reading literals and suffixes -/

/-- The sign of a number is a token of its own. -/
theorem signedLexemes_toList (kind : TokenKind) (text : String) :
    signedLexemes kind text.toList =
      (if text.startsWith "-" then [.ofOperator .minus] else []) ++
        [⟨kind, String.ofList (withoutSign text.toList)⟩] := by
  simp only [String.startsWith_string_iff]
  cases hcs : text.toList with
  | nil => rfl
  | cons c cs =>
    by_cases hc : c = '-'
    · subst hc
      simp [signedLexemes, withoutSign]
    · simp [signedLexemes, withoutSign, hc, Ne.symm hc]

theorem startsBack_number {kind : TokenKind} {text : String}
    (hkind : kind = .intLiteral ∨ kind = .floatLiteral)
    (h : ∀ offset, (readNumber ⟨kind, offset, text⟩).reports = []) :
    StartsBack s (fun x => ∃ offset, x = readNumber ⟨kind, offset, text⟩) [⟨kind, text⟩] 0 0 := by
  intro n d _ _
  refine Starts.of_term fun rest _ => (reads_term_number hkind h).mono ?_
  rintro _ ⟨offset, rfl⟩
  exact ⟨_, ⟨offset, rfl⟩, rfl⟩

theorem startsBack_boolean {text : String} (value : Bool) :
    StartsBack s (fun x => ∃ span, x = pure (.boolean span value))
      [⟨if value then .trueLiteral else .falseLiteral, text⟩] 0 0 := by
  intro n d _ _
  refine Starts.of_term fun rest _ => (reads_term_boolean value).mono ?_
  rintro _ ⟨span, rfl⟩
  exact ⟨_, ⟨span, rfl⟩, rfl⟩

theorem startsBack_value {name : String} (h : s.NamesValue name) :
    StartsBack s (fun x => ∃ span, x = Typing.identifier span name (s.symbols.lookup? name))
      [.name name] 0 0 := by
  intro n d _ _
  refine Starts.of_term fun rest _ => (reads_term_value h).mono ?_
  rintro _ ⟨span, rfl⟩
  exact ⟨_, ⟨span, rfl⟩, rfl⟩

theorem reread_literal {h : Head} {v : Float} (hv : ReadsLiteral v h.ty) :
    Reread s (literal h v) := by
  cases hbool : h.ty.isBoolean with
  | true =>
    have hlexemes : (literal h v).lexemes =
        [⟨if v != 0.0 then .trueLiteral else .falseLiteral, literalTextOf v h.ty⟩] := by
      rw [lexemes, literalKind, literalTextOf, hbool, if_pos rfl, if_pos rfl]
      cases v != 0.0 <;> rfl
    have hleads : Leads true (literal h v).lexemes := by
      rw [hlexemes]
      cases v != 0.0 <;> exact leads_number (by decide)
    refine .of_starts ?_ hleads
    rw [hlexemes]
    refine (startsBack_boolean (v != 0.0)).mono (fun x => ?_) (Nat.zero_le _)
    rintro ⟨span, rfl⟩
    exact .boolean hbool
  | false =>
    have hkind : literalKind v h.ty = .intLiteral ∨ literalKind v h.ty = .floatLiteral := by
      unfold literalKind
      cases h.ty.isFloat <;> simp [hbool]
    have hnumber := startsBack_number (s := s) hkind (hv.accepted hbool)
    have hleads : Leads true [⟨literalKind v h.ty,
        String.ofList (withoutSign (literalTextOf v h.ty).toList)⟩] :=
      leads_number (literalKind_mem v h.ty)
    cases hsign : (literalTextOf v h.ty).startsWith "-" with
    | true =>
      have hrank : (literal h v).rank = Precedence.prefixed.rank := by simp [rank, hsign]
      refine ⟨?_, fun hzero => absurd (hrank.symm.trans hzero) (by decide)⟩
      rw [lexemes, signedLexemes_toList, hsign, reach, hrank, levels, hsign]
      refine (readsBack_signed (by decide) (hnumber.readsBack le_rfl hleads) le_rfl).mono ?_
      rintro _ ⟨_, place, ⟨offset, rfl⟩, rfl⟩
      exact .negative hbool hsign
    | false =>
      have hlexemes : (literal h v).lexemes = [⟨literalKind v h.ty, String.ofList
          (withoutSign (literalTextOf v h.ty).toList)⟩] := by
        rw [lexemes, signedLexemes_toList, hsign]
        rfl
      refine .of_starts ?_ (by rwa [hlexemes])
      rw [hlexemes]
      refine hnumber.mono (fun x => ?_) (Nat.zero_le _)
      rintro ⟨offset, rfl⟩
      exact .number hbool hsign

/-- A suffix is read behind what takes suffixes, in parentheses or not. -/
theorem StartsBack.suffix {P : Checked Expr → Prop} {sfx : List Lexeme} {u : Nat}
    (h : StartsBack s P ls k v) (hu : k + 1 ≤ u)
    (hl : l.kind ∈ [TokenKind.leftBracket, .dot, .plusPlus, .minusMinus])
    (hsuffix : ∀ ⦃n d : Nat⦄ ⦃x : Checked Expr⦄ ⦃rest : List Lexeme⦄,
      Parser.maxDepth ≤ n + d → d + u ≤ Parser.maxDepth → P x → NotCall rest →
      Reads s (Grammar.suffix (exprRules n) (.value x.value)) (d + k + 1) (d + k + 1) (l :: sfx)
        rest fun y => ∃ z, Q z ∧ (⟨y.value, x.reports ++ y.reports⟩ : Checked Term) = z.asTerm) :
    StartsBack s Q (ls ++ l :: sfx) (k + 1) (max v u) := by
  have hkinds : ∀ kind ∈ [TokenKind.leftBracket, .dot, .plusPlus, .minusMinus],
      kind ≠ .leftParen ∧ ∀ offset text, isSuffix ⟨kind, offset, text⟩ = true := by
    simp [isSuffix]
  intro n d hn hd
  refine (h hn (by omega)).suffix (by omega)
    (fun rest _ => ⟨l, sfx ++ rest, rfl, (hkinds _ hl).1⟩) (fun t ht => ?_) ?_
  · rw [← (ht.kind : t.kind = l.kind)] at hl
    exact (hkinds _ hl).2 t.offset t.text
  · rintro _ rest ⟨x, hx, rfl⟩ hrest
    exact hsuffix hn (by omega) hx hrest

/-! ## Reading names, members and calls -/

/-- Arguments are read by the rule for what binds more tightly than a comma. -/
theorem reads_arguments_back {args : List Expr} (hprinted : ∀ e ∈ args, Printed s e)
    (hargs : ∀ e ∈ args, Reread s e) (hn : Parser.maxDepth ≤ n + d)
    (hd : d + (levelsOfAll args + 1) ≤ Parser.maxDepth) :
    Reads s (arguments (exprRules n)) (d + 1) (d + 1) (argumentLexemes args ++ [Lexeme.rightParen])
      rest (Arguments (Rereads s) args) := by
  refine reads_arguments (fun e he l rest hl => ?_) fun e he => ?_
  · have hlevels := levels_le_levelsOfAll he
    exact ((hargs e he).operand .sequence (by simp)).assignment (by decide) hn (by omega) hl
  · exact ((leads_lexemes (hprinted e he)).enclosed (p := .sequence)).mono (by simp)

/-- A name that is followed by arguments, which the rule for suffixes reads. -/
theorem startsBack_named {R : Checked Term → Prop} {name : String} {args : List Expr}
    (hprinted : ∀ e ∈ args, Printed s e) (hargs : ∀ e ∈ args, Reread s e)
    (hname : ∀ rules d rest, Reads s (term rules) d d [.name name] rest R)
    (hsuffix : ∀ rules d x ls rest, R x →
      Reads s (arguments rules) d d ls rest (Arguments (Rereads s) args) →
      Reads s (Grammar.suffix rules x.value) d d (.leftParen :: ls) rest
        fun y => ∃ z, Q z ∧ (⟨y.value, x.reports ++ y.reports⟩ : Checked Term) = z.asTerm) :
    StartsBack s Q (.name name :: .leftParen :: argumentLexemes args ++ [Lexeme.rightParen]) 1
      (levelsOfAll args + 1) := by
  intro n d hn hd
  have hstarts : Starts s (exprRules n) d [.name name] 0 (fun _ => True) R :=
    Starts.of_term fun rest _ => hname _ _ _
  refine hstarts.suffix (by omega) (fun _ _ => trivial) (fun t ht => ?_) ?_
  · rw [isSuffix, ht.kind]
    rfl
  · intro x rest hx _
    exact hsuffix _ _ _ _ _ hx (reads_arguments_back hprinted hargs hn hd)

/-- Every expression that can be printed is read back. -/
theorem reread (h : Printed s e) : Reread s e := by
  induction h with
  | literal hv => exact reread_literal hv
  | @reference h v init ref hname hvalue =>
    refine .of_starts ?_ (leads_name _ _ _)
    refine (startsBack_value hvalue).mono ?_ (Nat.zero_le _)
    rintro _ ⟨span, rfl⟩
    exact .reference
  | @binary h l r op hop htarget _ _ ihl ihr =>
    have hrank : 0 < op.precedence.rank := Nat.zero_lt_of_lt hop
    refine ⟨?_, fun hzero => absurd hzero hrank.ne'⟩
    exact (readsBack_binary hop htarget ihl ihr).of_le (rank_le_reach (binary h l op r))
  | prefixed hop _ ih => exact ⟨readsBack_prefixed hop ih, nofun⟩
  | ternary _ _ _ iht iha ihb => exact ⟨readsBack_ternary iht iha ihb, nofun⟩
  | @postfixed h op x hop _ hx ih =>
    refine ⟨?_, nofun⟩
    rw [lexemes, levels]
    refine StartsBack.readsBack (Q := Rereads s (postfixed h op x)) (ih.behind.suffix le_rfl
      (by revert hop; cases op <;> decide) fun n d y rest _ _ hy _ => ?_) (Nat.le_max_right ..) ?_
    · refine (reads_suffix_step hop).mono ?_
      rintro _ ⟨place, rfl⟩
      exact ⟨_, .postfixed hy, rfl⟩
    · exact (leads_lexemes hx).behind _ _
  | @field h base i hname _ hbase ih =>
    refine .of_starts ?_ ((leads_lexemes hbase).behind _ _)
    rw [lexemes, levels]
    refine ih.behind.suffix le_rfl (by decide) fun n d y rest _ _ hy hrest => ?_
    refine (reads_suffix_member hrest).mono ?_
    rintro _ ⟨place, rfl⟩
    exact ⟨_, .field hy, rfl⟩
  | @swizzle h base components hne _ hbase ih =>
    refine .of_starts ?_ ((leads_lexemes hbase).behind _ _)
    rw [lexemes, levels]
    refine ih.behind.suffix le_rfl (by decide) fun n d y rest _ _ hy hrest => ?_
    refine (reads_suffix_member hrest).mono ?_
    rintro _ ⟨place, rfl⟩
    exact ⟨_, .swizzle hy, rfl⟩
  | @index h base i _ hbase hi ihb ihi =>
    refine .of_starts ?_ (by
      rw [lexemes, List.append_assoc]
      exact (leads_lexemes hbase).behind _ _)
    rw [lexemes, levels, List.append_assoc]
    refine ihb.behind.suffix (by omega) (by decide) fun n d y rest hn hd hy hrest => ?_
    have hindex : Reads s (exprRules n).expression (d + base.heldBehind + 1)
        (d + base.heldBehind + 1) i.lexemes (.rightBracket :: rest) (Rereads s i) :=
      ihi.reads.expression (reach_le_sequence _) (by omega) (by omega) (closes_rightBracket _)
    refine (reads_suffix_index hindex ((leads_lexemes hi).mono (by simp))).mono ?_
    rintro _ ⟨z, place, hz, rfl⟩
    exact ⟨_, .index hy hz, rfl⟩
  | @call h f args overloads hname hlookup hargs ih =>
    refine .of_starts ?_ (leads_name _ _ _)
    rw [lexemes, levels]
    refine startsBack_named hargs ih (fun _ _ _ => reads_term_functions hlookup) ?_
    rintro rules d _ ls rest ⟨span, rfl⟩ hread
    refine (reads_suffix_call hread).mono ?_
    rintro _ ⟨xs, span, ⟨hlength, hxs⟩, rfl⟩
    exact ⟨_, .call hlookup hlength hxs, rfl⟩
  | @childCall h child args hname hvalue hargs ih =>
    refine .of_starts ?_ (leads_name _ _ _)
    rw [lexemes, levels]
    refine ((startsBack_value hvalue).suffix (u := levelsOfAll args + 1) (by omega) (by decide)
      fun n d y rest hn hd hy _ => ?_).mono (fun _ => id) (by omega)
    obtain ⟨place, rfl⟩ := hy
    refine (reads_suffix_method (reads_arguments_back hargs ih hn hd)).mono ?_
    rintro _ ⟨xs, span, ⟨hlength, hxs⟩, rfl⟩
    exact ⟨_, .childCall hlength hxs, rfl⟩
  | @convert h conversion x ty hname hlookup hx ih =>
    refine .of_starts ?_ (leads_name _ _ _)
    have hargs : ∀ e ∈ [x], Printed s e := List.forall_mem_singleton.2 hx
    have hlexemes : (convert h conversion x).lexemes =
        .name h.ty.name :: .leftParen :: argumentLexemes [x] ++ [Lexeme.rightParen] := by
      rw [lexemes, argumentLexemes]
    have hlevels : (convert h conversion x).levels = levelsOfAll [x] + 1 := by
      rw [levels, levelsOfAll, levelsOfAll, Nat.max_zero]
    rw [hlexemes, hlevels]
    refine startsBack_named hargs (List.forall_mem_singleton.2 ih)
      (fun _ _ _ => reads_term_type hlookup) ?_
    rintro rules d _ ls rest ⟨span, rfl⟩ hread
    refine (reads_suffix_construct hread).mono ?_
    rintro _ ⟨xs, span, ⟨hlength, hxs⟩, rfl⟩
    obtain ⟨y, rfl⟩ := List.length_eq_one_iff.1 hlength
    exact ⟨_, .convert hlookup (hxs (x, y) List.mem_cons_self), rfl⟩
  | @assemble h assembly parts ty hname hlookup hparts ih =>
    refine .of_starts ?_ (leads_name _ _ _)
    rw [lexemes, levels]
    refine startsBack_named hparts ih (fun _ _ _ => reads_term_type hlookup) ?_
    rintro rules d _ ls rest ⟨span, rfl⟩ hread
    refine (reads_suffix_construct hread).mono ?_
    rintro _ ⟨xs, span, ⟨hlength, hxs⟩, rfl⟩
    exact ⟨_, .assemble hlookup hlength hxs, rfl⟩

/-- Reading the text of an expression that can be printed takes all of it and finds no mistake in
its grammar: what is reported is what the checks of the same operators on the same operands report.
The text may not be nested more deeply than the parser follows. -/
theorem expression_reads_text {s : Session} {e : Expr} (hprinted : e.Printed s)
    (hlevels : e.levels ≤ Parser.maxDepth) :
    ∃ x p, e.Rereads s x ∧
      (OptionT.run expression).run (Parser.start e.text.toList s) = (some x.value, p) ∧
      p.session = { s with sink := s.sink.reportAll x.reports } ∧
      p.lexer.rest = [] ∧ ∀ t ∈ p.pushback, t.kind = .endOfFile := by
  have hclosed : Closed [] := by simp [Closed]
  have hspells : Spells e.text.toList (e.lexemes ++ [.endOfFile]) [] := by
    simpa using hprinted.spelled (.inl hclosed) .finish
  have husable : ∀ l ∈ e.lexemes ++ [.endOfFile], l.Usable s := by
    simpa [or_imp, forall_and] using ⟨hprinted.usable, rfl, rfl⟩
  have hreads : Reads s expression 0 0 e.lexemes [.endOfFile] (e.Rereads s) := by
    rw [expression, rules, expression_exprRules_succ]
    exact (reread hprinted).reads (by omega) (by omega) (by decide) e.reach_le_sequence (by decide)
      (closes_endOfFile _)
  obtain ⟨x, p, hx, hrun, hs, -, hp⟩ :=
    hreads _ s.sink [] rfl rfl (Parser.ahead_start hspells husable)
  obtain ⟨m, hm, hls⟩ := hp.spelled
  -- Of the text nothing but its end is left, which may have been looked at.
  refine ⟨x, p, hx, hrun, hs, hm.eq_nil (fun l hl => ?_) rfl, fun t ht => ?_⟩
  · exact List.mem_singleton.1 (hls ▸ List.mem_append_right _ hl)
  · have hmem : t.lexeme ∈ [Lexeme.endOfFile] :=
      hls ▸ List.mem_append_left _ (List.mem_map_of_mem (Option.mem_toList.2 ht))
    exact congrArg Lexeme.kind (List.mem_singleton.1 hmem)

/-- A variable with two components. -/
def pair : Variable := ⟨0, "v", .float2, default, .local, .point 0, false⟩

/-- A component of the variable is set to the other one with its sign changed. -/
def negatedPair : Expr :=
  let component (n : Nat) : Expr :=
    .swizzle ⟨.point 0, .float⟩ (.reference ⟨.point 0, .float2⟩ pair none .read) [n]
  .binary ⟨.point 0, .float⟩ (.binary ⟨.point 0, .float⟩ (component 0) .assign
    (.prefixed ⟨.point 0, .float⟩ .minus (component 1))) .comma (component 0)

theorem expression_reads_text_negatedPair :
    let session := Session.start ⟨.fragment, .standard⟩ [] false 1
    let s := { session with symbols := session.symbols.put "v" (.value pair none) }
    negatedPair.text = "v.x = -v.y , v.x" ∧ negatedPair.Printed s ∧
      negatedPair.levels ≤ Parser.maxDepth ∧ ∃ x p, negatedPair.Rereads s x ∧
        (OptionT.run expression).run (Parser.start "v.x = -v.y , v.x".toList s) =
          (some x.value, p) ∧
        p.session = { s with sink := s.sink.reportAll x.reports } ∧
        p.lexer.rest = [] ∧ ∀ t ∈ p.pushback, t.kind = .endOfFile := by
  intro session s
  have htext : negatedPair.text = "v.x = -v.y , v.x" := by decide +kernel
  have hname : s.IsName "v" := ⟨⟨by decide, 'v', rfl, by decide⟩, by decide, fun h => absurd h
    (by rw [String.startsWith_string_iff]; decide)⟩
  have hlookup : s.symbols.lookup? "v" = some (.value pair none) := rfl
  have hvalue : s.NamesValue "v" := by simp [Session.NamesValue, hlookup]
  have hcomponent (n : Nat) : Expr.Printed s
      (.swizzle ⟨.point 0, .float⟩ (.reference ⟨.point 0, .float2⟩ pair none .read) [n]) :=
    .swizzle (List.cons_ne_nil n []) rfl (.reference hname hvalue)
  have hprinted : negatedPair.Printed s :=
    .binary (by decide) (by decide)
      (.binary (by decide) (by decide) (hcomponent 0) (.prefixed (by decide) (hcomponent 1)))
      (hcomponent 0)
  have hlevels : negatedPair.levels ≤ Parser.maxDepth := by decide
  exact ⟨htext, hprinted, hlevels, htext ▸ expression_reads_text hprinted hlevels⟩

end Grammar

end RasterShader
