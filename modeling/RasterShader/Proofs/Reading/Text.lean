import RasterShader.Grammar.Expression
import RasterShader.Proofs.Reading.Steps

/-!
# The tokens of a printed expression

`Expr.text` puts an operand in parentheses when it does not bind more tightly than its context
asks for. `Expr.rank` is what decides, and `Expr.lexemes` lists the tokens that are written: that
of the operators, names and numbers of the expression and of the parentheses, but no blanks.
`Expr.Printed` collects what has to hold of names and numbers for the text to be read as it was
meant, and `Expr.Printed.spelled` says that the lexer then takes exactly these lexemes off the text:
nothing that stands side by side in it runs together.
-/

namespace RasterShader

theorem Operator.rank_lt_topLevel (op : Operator) :
    op.precedence.rank < Precedence.topLevel.rank := by
  cases op <;> decide

namespace Expr

/-! ## Parentheses -/

/-- How loosely the text of an expression binds. What may stand anywhere has rank 0. -/
def rank : Expr → Nat
  | literal h v =>
    if (literalTextOf v h.ty).startsWith "-" then Precedence.prefixed.rank else 0
  | binary _ _ op _ => op.precedence.rank
  | prefixed .. => Precedence.prefixed.rank
  | postfixed .. => Precedence.postfixed.rank
  | ternary .. => Precedence.ternary.rank
  | _ => 0

theorem rank_lt_topLevel (e : Expr) : e.rank < Precedence.topLevel.rank := by
  unfold rank
  split
  · split <;> decide
  · exact Operator.rank_lt_topLevel _
  all_goals decide

/-- The text of an operand is its own text, in parentheses when its context binds as tightly. -/
theorem textAt_eq {p : Precedence} (hp : p ≠ .parentheses) (e : Expr) :
    e.textAt p = parenthesized (p.rank ≤ e.rank) e.text := by
  have hpos : 0 < p.rank := by cases p <;> first | exact absurd rfl hp | decide
  have hlt := e.rank_lt_topLevel
  cases e with
  | literal h v =>
    by_cases hneg : (literalTextOf v h.ty).startsWith "-" = true
    · have htop : ¬ Precedence.topLevel.rank ≤ Precedence.prefixed.rank := by decide
      simp [text, textAt, rank, hneg, htop, parenthesized]
    · simp [text, textAt, rank, hneg, parenthesized, Nat.not_le.2 hpos]
  | binary h l op r =>
    have htop : op.precedence.looserOrEqual .topLevel = false := decide_eq_false (Nat.not_le.2 hlt)
    rw [text, textAt, textAt, htop]
    rfl
  | prefixed h op x => rfl
  | postfixed h op x => rfl
  | ternary h t a b => rfl
  | poison span => simp [text, textAt, rank, parenthesized, Nat.not_le.2 hpos]
  | _ => simp only [text, textAt, rank, parenthesized, Nat.not_le.2 hpos, decide_false]; rfl

/-! ## Lexemes -/

/-- Lexemes in parentheses, if they are needed. -/
def enclosed (needed : Bool) (ls : List Lexeme) : List Lexeme :=
  if needed then .leftParen :: ls ++ [.rightParen] else ls

/-- The kind of token that a literal of the given type is written as, but for its sign. -/
def literalKind (value : Float) (ty : Ty) : TokenKind :=
  if ty.isBoolean then if value != 0.0 then .trueLiteral else .falseLiteral
  else if ty.isFloat then .floatLiteral
  else .intLiteral

/-- The text of a number without its sign. -/
def withoutSign : List Char → List Char
  | '-' :: cs => cs
  | cs => cs

/-- A number with its sign. -/
def signedLexemes (kind : TokenKind) : List Char → List Lexeme
  | '-' :: cs => [.ofOperator .minus, ⟨kind, String.ofList cs⟩]
  | cs => [⟨kind, String.ofList cs⟩]

mutual

/-- The tokens of the text of an expression. -/
def lexemes : Expr → List Lexeme
  | literal h v => signedLexemes (literalKind v h.ty) (literalTextOf v h.ty).toList
  | reference _ v _ _ => [.name v.name]
  | binary _ l op r =>
    enclosed (op.precedence.rank ≤ l.rank) l.lexemes ++ .ofOperator op ::
      enclosed (op.precedence.rank ≤ r.rank) r.lexemes
  | prefixed _ op x =>
    .ofOperator op :: enclosed (Precedence.prefixed.rank ≤ x.rank) x.lexemes
  | postfixed _ op x =>
    enclosed (Precedence.postfixed.rank ≤ x.rank) x.lexemes ++ [.ofOperator op]
  | field _ base i =>
    enclosed (Precedence.postfixed.rank ≤ base.rank) base.lexemes ++
      [.dot, .name ((base.ty.fields[i]?.map FieldOf.name).getD "")]
  | index _ base i =>
    enclosed (Precedence.postfixed.rank ≤ base.rank) base.lexemes ++
      .leftBracket :: i.lexemes ++ [.rightBracket]
  | swizzle _ base components =>
    enclosed (Precedence.postfixed.rank ≤ base.rank) base.lexemes ++
      [.dot, .name (String.ofList (components.map componentLetter))]
  | ternary _ t a b =>
    enclosed (Precedence.ternary.rank ≤ t.rank) t.lexemes ++
      .question :: enclosed (Precedence.ternary.rank ≤ a.rank) a.lexemes ++
      .colon :: enclosed (Precedence.ternary.rank ≤ b.rank) b.lexemes
  | call _ f args => .name f.name :: .leftParen :: argumentLexemes args ++ [.rightParen]
  | childCall _ child args =>
    .name child.name :: .dot :: .name "eval" :: .leftParen :: argumentLexemes args ++ [.rightParen]
  | convert h _ x =>
    .name h.ty.name :: .leftParen :: enclosed (Precedence.sequence.rank ≤ x.rank) x.lexemes ++
      [.rightParen]
  | assemble h _ parts => .name h.ty.name :: .leftParen :: argumentLexemes parts ++ [.rightParen]
  | poison _ => []

/-- The tokens of arguments with commas between them. -/
def argumentLexemes : List Expr → List Lexeme
  | [] => []
  | [e] => enclosed (Precedence.sequence.rank ≤ e.rank) e.lexemes
  | e :: rest => enclosed (Precedence.sequence.rank ≤ e.rank) e.lexemes ++
      .comma :: argumentLexemes rest

end

end Expr

/-! ## What can be read back -/

namespace Session

/-- The name is an identifier that may be used here. -/
structure IsName (s : Session) (name : String) : Prop where
  word : Lexer.IsWord name.toList
  kind : Lexer.wordKind name = .identifier
  permitted : name.startsWith "$" = true → s.allowsPrivate = true

/-- The name does not stand for a type or a function. -/
def NamesValue (s : Session) (name : String) : Prop :=
  (∀ ty, s.symbols.lookup? name ≠ some (.type ty)) ∧
    ∀ overloads, s.symbols.lookup? name ≠ some (.functions overloads)

end Session

namespace Expr

/-- Integers, whose text a point would run into. -/
def isWhole : Expr → Bool
  | literal h _ => !h.ty.isBoolean && !h.ty.isFloat
  | _ => false

/-- The literal that a number token stands for. -/
def readNumber (token : Token) : Checked Expr :=
  if token.kind = .floatLiteral then Grammar.floatLiteral token else Grammar.intLiteral token

/-- The text of a literal is that of a boolean, or of a number that is not refused. -/
structure ReadsLiteral (value : Float) (ty : Ty) : Prop where
  numeral : ty.isBoolean = false → ty.isFloat = true →
    Lexer.IsNumeral (withoutSign (literalTextOf value ty).toList)
  accepted : ty.isBoolean = false → ∀ offset,
    (readNumber ⟨literalKind value ty, offset,
      String.ofList (withoutSign (literalTextOf value ty).toList)⟩).reports = []

/-- Operators that stand before their operand. -/
def prefixOperators : List Operator :=
  [.plus, .minus, .logicalNot, .bitwiseNot, .plusPlus, .minusMinus]

/-- Operators that stand behind their operand. -/
def postfixOperators : List Operator := [.plusPlus, .minusMinus]

/-- Every name of the expression stands for a thing of its sort in the session, every number can be
written as one token, no integer stands before a point and no choice before an assignment. -/
inductive Printed (s : Session) : Expr → Prop
  | literal {h : Head} {v : Float} : ReadsLiteral v h.ty → Printed s (literal h v)
  | reference {h : Head} {v : Variable} {init : Option Expr} {ref : RefKind} :
    s.IsName v.name → s.NamesValue v.name → Printed s (reference h v init ref)
  | binary {h : Head} {l r : Expr} {op : Operator} :
    Precedence.prefixed.rank < op.precedence.rank →
    (op.precedence = .assignment → l.rank ≠ Precedence.ternary.rank) →
    Printed s l → Printed s r → Printed s (binary h l op r)
  | prefixed {h : Head} {op : Operator} {x : Expr} :
    op ∈ prefixOperators → Printed s x → Printed s (prefixed h op x)
  | postfixed {h : Head} {op : Operator} {x : Expr} :
    op ∈ postfixOperators → x.isWhole = false → Printed s x → Printed s (postfixed h op x)
  | field {h : Head} {base : Expr} {i : Nat} :
    s.IsName ((base.ty.fields[i]?.map FieldOf.name).getD "") → base.isWhole = false →
    Printed s base → Printed s (field h base i)
  | index {h : Head} {base i : Expr} :
    base.isWhole = false → Printed s base → Printed s i → Printed s (index h base i)
  | swizzle {h : Head} {base : Expr} {components : List Nat} :
    components ≠ [] → base.isWhole = false → Printed s base →
    Printed s (swizzle h base components)
  | ternary {h : Head} {t a b : Expr} :
    Printed s t → Printed s a → Printed s b → Printed s (ternary h t a b)
  | call {h : Head} {f : FunctionDecl} {args : List Expr} {overloads : List FunctionDecl} :
    s.IsName f.name → s.symbols.lookup? f.name = some (.functions overloads) →
    (∀ e ∈ args, Printed s e) → Printed s (call h f args)
  | childCall {h : Head} {child : Variable} {args : List Expr} :
    s.IsName child.name → s.NamesValue child.name → (∀ e ∈ args, Printed s e) →
    Printed s (childCall h child args)
  | convert {h : Head} {conversion : Conversion} {x : Expr} {ty : Ty} :
    s.IsName h.ty.name → s.symbols.lookup? h.ty.name = some (.type ty) → Printed s x →
    Printed s (convert h conversion x)
  | assemble {h : Head} {assembly : Assembly} {parts : List Expr} {ty : Ty} :
    s.IsName h.ty.name → s.symbols.lookup? h.ty.name = some (.type ty) →
    (∀ e ∈ parts, Printed s e) → Printed s (assemble h assembly parts)

/-! ## The front of a text -/

/-- The text starts with a character other than a blank, and if `tight` with one that no operator
goes on with. -/
def Opens (tight : Bool) (cs : List Char) : Prop :=
  ∃ c ∈ cs.head?, Lexer.isBlank c = false ∧ (tight = true → Lexer.isJoining c = false)

theorem Opens.append {tight : Bool} {cs : List Char} (h : Opens tight cs) (rest : List Char) :
    Opens tight (cs ++ rest) := by
  obtain ⟨c, hc, hopens⟩ := h
  cases cs with
  | nil => simp at hc
  | cons d cs => exact ⟨c, hc, hopens⟩

theorem opens_of_isIdentContinue {tight : Bool} {c : Char} {cs : List Char}
    (h : Lexer.isIdentContinue c = true) : Opens tight (c :: cs) := by
  have hjoin : ∀ c ∈ "<>=+-|^&/*".toList, (!Lexer.isIdentContinue c) = true :=
    List.all_eq_true.1 (by decide)
  refine ⟨c, rfl, Lexer.isBlank_of_isIdentContinue h, fun _ => ?_⟩
  by_contra hc
  rw [Bool.not_eq_false, Lexer.isJoining, List.contains_iff_mem] at hc
  exact Bool.false_ne_true ((congrArg not h).symm.trans (hjoin c hc))

theorem opens_name {s : Session} {name : String} (h : s.IsName name) (tight : Bool) :
    Opens tight name.toList := by
  obtain ⟨-, c, hc, hstart⟩ := h.word
  cases hw : name.toList with
  | nil => simp [hw] at hc
  | cons d cs =>
    obtain rfl : d = c := by simpa [hw] using hc
    exact opens_of_isIdentContinue (Lexer.isIdentContinue_of_isIdentStart hstart)

/-! ## Literals -/

theorem withoutSign_of_isDigit {d : Char} {ds : List Char} (hd : d.isDigit = true) :
    withoutSign (d :: ds) = d :: ds := by
  unfold withoutSign
  split
  · rename_i heq
    cases heq
    exact absurd hd (by decide)
  · rfl

theorem isDigits_toDigits (n : Nat) : Lexer.IsDigits (Nat.toDigits 10 n) := by
  refine ⟨?_, List.all_eq_true.2 fun c hc => ?_⟩
  · rw [← Nat.toList_repr, ne_eq, String.toList_eq_nil_iff]
    exact Nat.repr_ne_empty
  · exact Nat.isDigit_of_mem_toDigits (by decide) (by decide) hc

/-- The text of an integer is its digits, and a letter when it has no sign by its type. -/
theorem withoutSign_integer {v : Float} {ty : Ty} (hbool : ty.isBoolean = false)
    (hfloat : ty.isFloat = false) : ∃ ds u, withoutSign (literalTextOf v ty).toList = ds ++ u ∧
      Lexer.IsDigits ds ∧ (u = [] ∨ u = ['u']) := by
  have hdigits (i : Int) (u : List Char) :
      withoutSign ((toString i).toList ++ u) = Nat.toDigits 10 i.natAbs ++ u := by
    cases i with
    | ofNat n =>
      obtain ⟨d, ds, hds, hd⟩ := (isDigits_toDigits n).exists_cons
      show withoutSign ((Nat.repr n).toList ++ u) = Nat.toDigits 10 n ++ u
      rw [Nat.toList_repr, hds]
      exact withoutSign_of_isDigit hd
    | negSucc n =>
      show withoutSign (("-" ++ Nat.repr (n + 1)).toList ++ u) = Nat.toDigits 10 (n + 1) ++ u
      rw [String.toList_append, Nat.toList_repr]
      rfl
  refine ⟨_, if ty.isUnsigned then ['u'] else [], ?_, isDigits_toDigits
    (Double.truncated v).natAbs, by split <;> simp⟩
  rw [← hdigits]
  unfold literalTextOf
  rw [hbool, hfloat]
  simp only [Bool.false_eq_true, if_false]
  split
  · rw [String.toList_append]
    rfl
  · rw [List.append_nil]

variable {s : Session} {e : Expr} {v : Float} {ty : Ty} {kind : TokenKind}
  {cs rest tail : List Char} {ls : List Lexeme}

theorem ReadsLiteral.exists_digit (h : ReadsLiteral v ty) (hbool : ty.isBoolean = false) :
    ∃ d ds, withoutSign (literalTextOf v ty).toList = d :: ds ∧ d.isDigit = true := by
  cases hfloat : ty.isFloat with
  | true => exact (h.numeral hbool hfloat).exists_cons
  | false =>
    obtain ⟨ds, u, htext, hds, -⟩ := withoutSign_integer (v := v) hbool hfloat
    obtain ⟨d, ds, rfl, hd⟩ := hds.exists_cons
    exact ⟨d, _, htext, hd⟩

theorem ReadsLiteral.stands (h : ReadsLiteral v ty) (hbool : ty.isBoolean = false)
    (hrest : Lexer.Bounds rest) (hdot : ty.isFloat = false → rest.head? ≠ some '.') :
    Lexeme.Stands
      ⟨literalKind v ty, String.ofList (withoutSign (literalTextOf v ty).toList)⟩ rest := by
  obtain ⟨d, ds, hds, -⟩ := h.exists_digit hbool
  refine ⟨by simp [hds], ?_⟩
  rw [String.toList_ofList, literalKind, hbool]
  cases hfloat : ty.isFloat with
  | true => exact Lexer.scan_numeral (h.numeral hbool hfloat) hrest
  | false =>
    obtain ⟨ds, u, htext, hdigits, hu⟩ := withoutSign_integer (v := v) hbool hfloat
    rw [htext]
    exact Lexer.scan_integer hdigits hu hrest (hdot hfloat)

theorem eq_withoutSign (cs : List Char) : cs = withoutSign cs ∨ cs = '-' :: withoutSign cs := by
  unfold withoutSign
  split
  · exact .inr rfl
  · exact .inl rfl

theorem spells_signed (hdigit : ∃ d ds, withoutSign cs = d :: ds ∧ d.isDigit = true)
    (hstands : Lexeme.Stands ⟨kind, String.ofList (withoutSign cs)⟩ rest)
    (h : Spells rest ls tail) : Spells (cs ++ rest) (signedLexemes kind cs ++ ls) tail := by
  have hnumber := Spells.lexeme hstands h
  rw [String.toList_ofList] at hnumber
  obtain ⟨d, ds, hds, hd⟩ := hdigit
  rcases eq_withoutSign cs with hcs | hcs
  · have hlexemes : signedLexemes kind cs = [⟨kind, String.ofList cs⟩] := by
      rw [hcs, hds, signedLexemes]
      rintro cs heq
      cases heq
      exact absurd hd (by decide)
    rw [hlexemes]
    rwa [← hcs] at hnumber
  · rw [hcs]
    refine Spells.lexeme (l := .ofOperator .minus) (Lexeme.stands_operator _ fun c hc => ?_) hnumber
    obtain rfl : d = c := by simpa [hds] using hc
    have hopens : Opens true (d :: ds) :=
      opens_of_isIdentContinue (Lexer.isIdentContinue_of_isDigit hd)
    obtain ⟨c, hc, -, hjoin⟩ := hopens
    obtain rfl : d = c := by simpa using hc
    exact hjoin rfl

/-! ## Expressions -/

/-- The text behind an expression that may end in any way. -/
def Closed (rest : List Char) : Prop :=
  ∀ c ∈ rest.head?, Lexer.isIdentContinue c = false ∧ Lexer.isJoining c = false ∧ c ≠ '.'

theorem Closed.bounds (h : Closed rest) : Lexer.Bounds rest := fun c hc => (h c hc).1

/-- The text behind an expression does not run into it: it closes whatever stands before it, or
the expression ends in a name or bracket. -/
def Stops (e : Expr) (rest : List Char) : Prop :=
  Closed rest ∨ e.rank = 0 ∧ e.isWhole = false ∧ Lexer.Bounds rest

theorem Stops.closed (h : e.Stops rest) (hrank : e.rank ≠ 0) : Closed rest :=
  h.resolve_right fun hzero => hrank hzero.1

theorem Stops.bounds (h : e.Stops rest) : Lexer.Bounds rest := h.elim Closed.bounds (·.2.2)

/-- The lexemes of the expression are taken off its text. -/
def Spelled (e : Expr) : Prop :=
  ∀ {rest tail : List Char} {ls : List Lexeme}, e.Stops rest → Spells rest ls tail →
    Spells (e.text.toList ++ rest) (e.lexemes ++ ls) tail

theorem spelled_literal {h : Head} (hv : ReadsLiteral v h.ty) : Spelled (literal h v) := by
  intro rest tail ls hstops hspells
  have htext : (literal h v).text = literalTextOf v h.ty := by
    have htop : ¬ Precedence.topLevel.rank ≤ Precedence.prefixed.rank := by decide
    simp [text, textAt, parenthesized, htop]
  rw [htext, lexemes]
  cases hbool : h.ty.isBoolean with
  | true =>
    have hword (w : String) (hw : Lexer.IsWord w.toList)
        (hlexemes : signedLexemes (Lexer.wordKind w) w.toList = [⟨Lexer.wordKind w, w⟩]) :
        Spells (w.toList ++ rest) (signedLexemes (Lexer.wordKind w) w.toList ++ ls) tail := by
      rw [hlexemes]
      exact .lexeme (Lexeme.stands_word hw hstops.bounds) hspells
    rw [literalKind, literalTextOf, hbool]
    cases v != 0.0 with
    | true => exact hword "true" ⟨by decide, 't', rfl, by decide⟩ rfl
    | false => exact hword "false" ⟨by decide, 'f', rfl, by decide⟩ rfl
  | false =>
    refine spells_signed (hv.exists_digit hbool) (hv.stands hbool hstops.bounds fun hfloat => ?_)
      hspells
    have hwhole : (literal h v).isWhole = true := by simp [isWhole, hbool, hfloat]
    rcases hstops with hclosed | ⟨-, hnot, -⟩
    · exact fun hdot => (hclosed '.' hdot).2.2 rfl
    · simp [hwhole] at hnot

theorem closed_cons {c : Char}
    (h : (!Lexer.isIdentContinue c && !Lexer.isJoining c && c != '.') = true) :
    Closed (c :: cs) := by
  intro d hd
  obtain rfl : c = d := by simpa using hd
  simpa [and_assoc] using h

theorem bounds_cons {c : Char} (h : Lexer.isIdentContinue c = false) : Lexer.Bounds (c :: cs) := by
  intro d hd
  obtain rfl : c = d := by simpa using hd
  exact h

theorem Opens.mono {t u : Bool} (h : Opens t cs) (htight : u = true → t = true) :
    Opens u cs := by
  obtain ⟨c, hc, hblank, hjoin⟩ := h
  exact ⟨c, hc, hblank, fun h => hjoin (htight h)⟩

theorem spells_blank {t : Bool} (h : Opens t cs) (hspells : Spells cs ls tail) :
    Spells (' ' :: cs) ls tail := by
  obtain ⟨c, hc, hblank, -⟩ := h
  cases cs with
  | nil => simp at hc
  | cons d cs =>
    obtain rfl : d = c := by simpa using hc
    exact .blank hblank hspells

theorem opens_symbol (op : Operator) : Opens false op.symbol.toList := by
  cases op <;> exact ⟨_, rfl, rfl, by decide⟩

theorem opens_textAt {p : Precedence} (hp : p ≠ .parentheses)
    (h : Opens (e.rank < Precedence.prefixed.rank) e.text.toList) :
    Opens (p.rank ≤ Precedence.prefixed.rank) (e.textAt p).toList := by
  rw [textAt_eq hp]
  by_cases hneeded : p.rank ≤ e.rank
  · simp only [hneeded, decide_true, parenthesized, if_true, String.toList_append]
    exact ⟨'(', rfl, rfl, fun _ => rfl⟩
  · simp only [hneeded, decide_false, parenthesized, Bool.false_eq_true, if_false]
    refine h.mono fun htight => ?_
    simp only [decide_eq_true_iff] at *
    omega

theorem text_binary (h : Head) (l : Expr) (op : Operator) (r : Expr) :
    (binary h l op r).text =
      l.textAt op.precedence ++ " " ++ op.symbol ++ " " ++ r.textAt op.precedence := by
  have htop : op.precedence.looserOrEqual .topLevel = false :=
    decide_eq_false (Nat.not_le.2 op.rank_lt_topLevel)
  rw [text, textAt, htop]
  rfl

theorem precedence_ne_parentheses (op : Operator) : op.precedence ≠ .parentheses := by
  cases op <;> decide

theorem opens_postfixed (h : Opens (e.rank < Precedence.prefixed.rank) e.text.toList)
    (tight : Bool) (rest : List Char) : Opens tight ((e.textAt .postfixed).toList ++ rest) :=
  ((opens_textAt (by decide) h).mono fun _ => by decide).append rest

/-- The text of an expression starts with what its first token starts with. -/
theorem Printed.opens (h : Printed s e) :
    Opens (e.rank < Precedence.prefixed.rank) e.text.toList := by
  induction h with
  | @literal h v hv =>
    have htext : (Expr.literal h v).text = literalTextOf v h.ty := by
      have htop : ¬ Precedence.topLevel.rank ≤ Precedence.prefixed.rank := by decide
      simp [text, textAt, parenthesized, htop]
    rw [htext]
    cases hbool : h.ty.isBoolean with
    | true =>
      rw [literalTextOf, if_pos hbool]
      split
      · exact ⟨'t', rfl, rfl, fun _ => rfl⟩
      · exact ⟨'f', rfl, rfl, fun _ => rfl⟩
    | false =>
      obtain ⟨d, ds, hds, hd⟩ := hv.exists_digit hbool
      rcases eq_withoutSign (literalTextOf v h.ty).toList with hcs | hcs
      · rw [hcs, hds]
        exact opens_of_isIdentContinue (Lexer.isIdentContinue_of_isDigit hd)
      · -- A number with a sign does not bind tightly.
        have hneg : (literalTextOf v h.ty).startsWith "-" = true := by
          rw [String.startsWith_string_iff, hcs]
          exact ⟨_, rfl⟩
        rw [hcs]
        exact ⟨'-', rfl, rfl, by simp [rank, hneg]⟩
  | reference hname => exact opens_name hname _
  | @binary h l r op hop _ _ _ ihl _ =>
    rw [text_binary]
    simp only [String.toList_append, List.append_assoc]
    refine ((opens_textAt (precedence_ne_parentheses op) ihl).mono fun htight => ?_).append _
    exact absurd (of_decide_eq_true htight) (Nat.not_lt.2 hop.le)
  | @prefixed h op x =>
    show Opens _ (op.symbol ++ x.textAt .prefixed).toList
    rw [String.toList_append]
    exact ((opens_symbol op).mono fun htight => absurd htight (by simp [rank])).append _
  | @postfixed h op x _ _ _ ih =>
    show Opens _ (x.textAt .postfixed ++ op.symbol).toList
    rw [String.toList_append]
    exact opens_postfixed ih _ _
  | field _ _ _ ih | index _ _ _ ih _ | swizzle _ _ _ ih =>
    simp only [text, textAt, String.toList_append, List.append_assoc]
    exact opens_postfixed ih _ _
  | @ternary h t a b _ _ _ ih _ _ =>
    show Opens _ (t.textAt .ternary ++ " ? " ++ a.textAt .ternary ++ " : " ++
      b.textAt .ternary).toList
    simp only [String.toList_append, List.append_assoc]
    refine ((opens_textAt (by decide) ih).mono fun htight => ?_).append _
    exact absurd (of_decide_eq_true htight : Precedence.ternary.rank < _) (by decide)
  | call hname | childCall hname | convert hname | assemble hname =>
    simp only [text, textAt, String.toList_append, List.append_assoc]
    exact (opens_name hname _).append _

theorem spells_name {name : String} (h : s.IsName name) (hrest : Lexer.Bounds rest)
    (hspells : Spells rest ls tail) : Spells (name.toList ++ rest) (.name name :: ls) tail := by
  have hstands := Lexeme.stands_word h.word hrest
  rw [h.kind] at hstands
  exact .lexeme hstands hspells

theorem spells_textAt {p : Precedence} (hp : p ≠ .parentheses) (h : Spelled e)
    (hstops : p.rank ≤ e.rank ∨ e.Stops rest) (hspells : Spells rest ls tail) :
    Spells ((e.textAt p).toList ++ rest) (enclosed (p.rank ≤ e.rank) e.lexemes ++ ls)
      tail := by
  rw [textAt_eq hp]
  by_cases hneeded : p.rank ≤ e.rank
  · simp only [hneeded, decide_true, parenthesized, enclosed, if_true, String.toList_append,
      List.append_assoc, List.cons_append]
    refine Lexeme.spells_leftParen (h (.inl (closed_cons (by decide))) ?_)
    exact Lexeme.spells_rightParen hspells
  · simp only [hneeded, decide_false, parenthesized, enclosed, Bool.false_eq_true, if_false]
    exact h (hstops.resolve_left hneeded) hspells

/-- What a suffix is put behind is a name or bracket, or stands in parentheses. -/
theorem spells_postfixed (h : Spelled e) (hwhole : e.isWhole = false)
    (hrest : Lexer.Bounds rest) (hspells : Spells rest ls tail) :
    Spells ((e.textAt .postfixed).toList ++ rest)
      (enclosed (Precedence.postfixed.rank ≤ e.rank) e.lexemes ++ ls) tail := by
  refine spells_textAt (by decide) h ?_ hspells
  rcases Nat.eq_zero_or_pos e.rank with hzero | hpos
  · exact .inr (.inr ⟨hzero, hwhole, hrest⟩)
  · exact .inl hpos

theorem spells_arguments {args : List Expr} (h : ∀ e ∈ args, e.Spelled)
    (hopens : ∀ e ∈ args, Opens (e.rank < Precedence.prefixed.rank) e.text.toList)
    (hrest : Closed rest) (hspells : Spells rest ls tail) :
    Spells ((String.intercalate ", " (textsAt args)).toList ++ rest) (argumentLexemes args ++ ls)
      tail := by
  induction args with
  | nil => exact hspells
  | cons e args ih =>
    have he : e.Spelled := h e (by simp)
    cases args with
    | nil =>
      rw [argumentLexemes]
      simp only [textsAt, String.toList_intercalate, List.map_cons, List.map_nil,
        List.intercalate_singleton]
      exact spells_textAt (by decide) he (.inr (.inl hrest)) hspells
    | cons e' args =>
      have hrest' := ih (fun a ha => h a (List.mem_cons_of_mem _ ha))
        fun a ha => hopens a (List.mem_cons_of_mem _ ha)
      have hnext :
          Opens false ((String.intercalate ", " (textsAt (e' :: args))).toList ++ rest) := by
        have := (opens_textAt (p := .sequence) (by decide) (hopens e' (by simp))).mono
          (u := false) (by simp)
        cases args with
        | nil => simpa [textsAt, String.toList_intercalate] using this.append _
        | cons a args =>
          simp only [textsAt, String.toList_intercalate, List.map_cons, List.intercalate_cons_cons,
            List.append_assoc]
          exact this.append _
      rw [argumentLexemes]
      · simp only [textsAt, String.toList_intercalate, List.map_cons, List.intercalate_cons_cons,
          List.append_assoc, List.cons_append] at hrest' hnext ⊢
        exact spells_textAt (by decide) he (.inr (.inl (closed_cons (by decide))))
          (Lexeme.spells_comma (spells_blank hnext hrest'))
      · simp

/-- Arguments in their parentheses. -/
theorem spells_parenthesized {args : List Expr} (h : ∀ e ∈ args, e.Spelled)
    (hopens : ∀ e ∈ args, Opens (e.rank < Precedence.prefixed.rank) e.text.toList)
    (hspells : Spells rest ls tail) :
    Spells ('(' :: ((String.intercalate ", " (textsAt args)).toList ++ ')' :: rest))
      (.leftParen :: (argumentLexemes args ++ .rightParen :: ls)) tail :=
  Lexeme.spells_leftParen (spells_arguments h hopens (closed_cons (by decide))
    (Lexeme.spells_rightParen hspells))

/-- A point and a name. -/
theorem spells_member {name : String} (hname : s.IsName name) (hrest : Lexer.Bounds rest)
    (hspells : Spells rest ls tail) :
    Spells ('.' :: (name.toList ++ rest)) (.dot :: .name name :: ls) tail := by
  have hmember := spells_name hname hrest hspells
  obtain ⟨-, c, hc, hstart⟩ := hname.word
  cases hw : name.toList with
  | nil => simp [hw] at hc
  | cons d ds =>
    obtain rfl : d = c := by simpa [hw] using hc
    rw [hw] at hmember
    exact Lexeme.spells_dot (Lexer.isDigit_of_isIdentStart hstart) hmember

/-- The letters of components are an identifier. -/
theorem isName_letters (s : Session) {components : List Nat} (h : components ≠ []) :
    s.IsName (String.ofList (components.map componentLetter)) := by
  have hletter (n : Nat) : componentLetter n ∈ ['x', 'y', 'z', 'w'] := by
    unfold componentLetter
    split <;> simp
  have hall : ∀ c ∈ components.map componentLetter, c ∈ ['x', 'y', 'z', 'w'] := by
    intro c hc
    obtain ⟨n, -, rfl⟩ := List.mem_map.1 hc
    exact hletter n
  have hstart : ∀ c ∈ ['x', 'y', 'z', 'w'], Lexer.isIdentStart c = true :=
    List.all_eq_true.1 (by decide)
  obtain ⟨n, ns, rfl⟩ := List.exists_cons_of_ne_nil h
  -- Every keyword and reserved word has another letter.
  have hother (w : String) (hw : w.toList.any (· ∉ ['x', 'y', 'z', 'w']) = true) :
      String.ofList ((n :: ns).map componentLetter) ≠ w := by
    rintro rfl
    obtain ⟨c, hc, hnot⟩ := List.any_eq_true.1 hw
    rw [String.toList_ofList] at hc
    exact absurd (hall c hc) (by simpa using hnot)
  have hkeywords : ∀ k ∈ Lexer.keywords, k.1.toList.any (· ∉ ['x', 'y', 'z', 'w']) = true := by
    decide
  have hreserved : ∀ w ∈ Lexer.reservedWords, w.toList.any (· ∉ ['x', 'y', 'z', 'w']) = true := by
    decide
  refine ⟨⟨?_, componentLetter n, ?_, hstart _ (hletter n)⟩, ?_, fun hdollar => ?_⟩
  · rw [String.toList_ofList, List.all_eq_true]
    exact fun c hc => Lexer.isIdentContinue_of_isIdentStart (hstart c (hall c hc))
  · rw [String.toList_ofList]
    rfl
  · have hlookup :
        Lexer.keywords.lookup (String.ofList ((n :: ns).map componentLetter)) = none := by
      rw [List.lookup_eq_none_iff]
      exact fun k hk => bne_iff_ne.2 (hother k.1 (hkeywords k hk))
    have hcontains : Lexer.reservedWords.contains
        (String.ofList ((n :: ns).map componentLetter)) = false := by
      rw [← Bool.not_eq_true, List.contains_iff_mem]
      exact fun hmem => hother _ (hreserved _ hmem) rfl
    rw [Lexer.wordKind, hlookup, hcontains]
    rfl
  · rw [String.startsWith_string_iff] at hdollar
    have hmem : '$' ∈ (String.ofList ((n :: ns).map componentLetter)).toList :=
      hdollar.subset (List.mem_singleton_self '$')
    rw [String.toList_ofList] at hmem
    exact absurd (hall '$' hmem) (by decide)

theorem isName_eval (s : Session) : s.IsName "eval" :=
  ⟨⟨by decide, 'e', rfl, by decide⟩, by decide, fun h => absurd h (by
    rw [String.startsWith_string_iff]; decide)⟩

/-- The lexer takes the lexemes of an expression off its text. -/
theorem Printed.spelled (h : Printed s e) : e.Spelled := by
  induction h with
  | literal hv => exact spelled_literal hv
  | reference hname =>
    intro rest tail ls hstops hspells
    simp only [text, textAt, lexemes]
    exact spells_name hname hstops.bounds hspells
  | @binary h l r op hop _ hl hr ihl ihr =>
    intro rest tail ls hstops hspells
    have hclosed := hstops.closed (show op.precedence.rank ≠ 0 by omega)
    have hparent := precedence_ne_parentheses op
    have hright := spells_textAt hparent ihr (.inr (.inl hclosed)) hspells
    have hopen := (opens_textAt hparent hr.opens).append rest
    have hjoin : ∀ c ∈ (' ' :: ((r.textAt op.precedence).toList ++ rest)).head?,
        Lexer.isJoining c = false := by
      rintro c hc
      obtain rfl : ' ' = c := by simpa using hc
      rfl
    rw [text_binary, lexemes]
    simp only [String.toList_append, String.reduceToList, List.append_assoc, List.cons_append,
      List.nil_append]
    refine spells_textAt hparent ihl (.inr (.inl (closed_cons (by decide)))) ?_
    exact spells_blank ((opens_symbol op).append _)
      (.lexeme (Lexeme.stands_operator op hjoin) (spells_blank hopen hright))
  | @prefixed h op x hop hx ih =>
    intro rest tail ls hstops hspells
    have hclosed := hstops.closed (show Precedence.prefixed.rank ≠ 0 by decide)
    have hoperand := spells_textAt (p := .prefixed) (by decide) ih (.inr (.inl hclosed)) hspells
    show Spells ((op.symbol ++ x.textAt .prefixed).toList ++ rest) _ tail
    rw [String.toList_append, List.append_assoc, lexemes]
    refine .lexeme (Lexeme.stands_operator op fun c hc => ?_) hoperand
    obtain ⟨d, hd, -, hjoin⟩ := (opens_textAt (p := .prefixed) (by decide) hx.opens).append rest
    obtain rfl : c = d := Option.mem_unique hc hd
    exact hjoin (by decide)
  | @postfixed h op x hop hwhole _ ih =>
    intro rest tail ls hstops hspells
    have hclosed := hstops.closed (show Precedence.postfixed.rank ≠ 0 by decide)
    show Spells ((x.textAt .postfixed ++ op.symbol).toList ++ rest) _ tail
    rw [String.toList_append, List.append_assoc, lexemes, List.append_assoc]
    refine spells_postfixed ih hwhole ?_
      (.lexeme (Lexeme.stands_operator op fun c hc => (hclosed c hc).2.1) hspells)
    simp only [postfixOperators, List.mem_cons, List.not_mem_nil, or_false] at hop
    rcases hop with rfl | rfl <;> exact bounds_cons rfl
  | field hname hwhole _ ih =>
    intro rest tail ls hstops hspells
    simp only [text, textAt, lexemes, String.toList_append, String.reduceToList, List.append_assoc,
      List.cons_append, List.nil_append]
    exact spells_postfixed ih hwhole (bounds_cons rfl) (spells_member hname hstops.bounds hspells)
  | index hwhole _ _ ihb ihi =>
    intro rest tail ls hstops hspells
    simp only [text, textAt, lexemes, String.toList_append, String.reduceToList, List.append_assoc,
      List.cons_append, List.nil_append]
    refine spells_postfixed ihb hwhole (bounds_cons rfl) (Lexeme.spells_leftBracket ?_)
    exact ihi (.inl (closed_cons (by decide))) (Lexeme.spells_rightBracket hspells)
  | swizzle hne hwhole _ ih =>
    intro rest tail ls hstops hspells
    simp only [text, textAt, lexemes, String.toList_append, String.reduceToList, List.append_assoc,
      List.cons_append, List.nil_append]
    exact spells_postfixed ih hwhole (bounds_cons rfl)
      (spells_member (isName_letters s hne) hstops.bounds hspells)
  | @ternary h t a b _ ha hb iht iha ihb =>
    intro rest tail ls hstops hspells
    have hclosed := hstops.closed (show Precedence.ternary.rank ≠ 0 by decide)
    have hlast := spells_textAt (p := .ternary) (by decide) ihb (.inr (.inl hclosed)) hspells
    have hcolon := spells_blank (t := true) ⟨':', rfl, rfl, fun _ => rfl⟩ (Lexeme.spells_colon
      (spells_blank ((opens_textAt (p := .ternary) (by decide) hb.opens).append rest) hlast))
    have hmiddle := spells_textAt (p := .ternary) (by decide) iha
      (.inr (.inl (closed_cons (by decide)))) hcolon
    have hquestion := spells_blank (t := true) ⟨'?', rfl, rfl, fun _ => rfl⟩ (Lexeme.spells_question
      (spells_blank ((opens_textAt (p := .ternary) (by decide) ha.opens).append _) hmiddle))
    show Spells ((t.textAt .ternary ++ " ? " ++ a.textAt .ternary ++ " : " ++
      b.textAt .ternary).toList ++ rest) _ tail
    simp only [lexemes, String.toList_append, String.reduceToList, List.append_assoc,
      List.cons_append, List.nil_append]
    exact spells_textAt (by decide) iht (.inr (.inl (closed_cons (by decide)))) hquestion
  | call hname _ hargs ih =>
    intro rest tail ls hstops hspells
    simp only [text, textAt, lexemes, String.toList_append, String.reduceToList, List.append_assoc,
      List.cons_append, List.nil_append]
    exact spells_name hname (bounds_cons rfl)
      (spells_parenthesized ih (fun e he => (hargs e he).opens) hspells)
  | childCall hname _ hargs ih =>
    intro rest tail ls hstops hspells
    simp only [text, textAt, lexemes, String.toList_append, String.reduceToList, List.append_assoc,
      List.cons_append, List.nil_append]
    refine spells_name hname (bounds_cons rfl) ?_
    exact spells_member (isName_eval s) (bounds_cons rfl)
      (spells_parenthesized ih (fun e he => (hargs e he).opens) hspells)
  | convert hname _ _ ih =>
    intro rest tail ls hstops hspells
    simp only [text, textAt, lexemes, String.toList_append, String.reduceToList, List.append_assoc,
      List.cons_append, List.nil_append]
    refine spells_name hname (bounds_cons rfl) (Lexeme.spells_leftParen ?_)
    exact spells_textAt (by decide) ih (.inr (.inl (closed_cons (by decide))))
      (Lexeme.spells_rightParen hspells)
  | assemble hname _ hparts ih =>
    intro rest tail ls hstops hspells
    simp only [text, textAt, lexemes, String.toList_append, String.reduceToList, List.append_assoc,
      List.cons_append, List.nil_append]
    exact spells_name hname (bounds_cons rfl)
      (spells_parenthesized ih (fun e he => (hparts e he).opens) hspells)

/-! ## Words that may be used -/

@[simp] theorem usable_ofOperator (op : Operator) : (Lexeme.ofOperator op).Usable s := by
  cases op <;> exact ⟨rfl, rfl⟩

@[simp] theorem usable_bracket {l : Lexeme} (h : l ∈ ([.leftParen, .rightParen, .leftBracket,
    .rightBracket, .comma, .question, .colon, .dot] : List Lexeme)) : l.Usable s := by
  simp only [List.mem_cons, List.not_mem_nil, or_false] at h
  rcases h with rfl | rfl | rfl | rfl | rfl | rfl | rfl | rfl <;> exact ⟨rfl, rfl⟩

theorem usable_name {name : String} (h : s.IsName name) : (Lexeme.name name).Usable s := by
  refine ⟨rfl, ?_⟩
  show (name.startsWith "$" && !s.allowsPrivate) = false
  cases hdollar : name.startsWith "$" with
  | false => rfl
  | true => simp [h.permitted hdollar]

theorem usable_literal (v : Float) (ty : Ty) (text : String) :
    Lexeme.Usable ⟨literalKind v ty, text⟩ s := by
  unfold literalKind
  split
  · split <;> exact ⟨rfl, rfl⟩
  · split <;> exact ⟨rfl, rfl⟩

theorem forall_mem_enclosed {needed : Bool} (h : ∀ l ∈ ls, l.Usable s) :
    ∀ l ∈ enclosed needed ls, l.Usable s := by
  unfold enclosed
  split
  · simpa [or_imp, forall_and] using h
  · exact h

theorem forall_mem_argumentLexemes {args : List Expr}
    (h : ∀ e ∈ args, ∀ l ∈ e.lexemes, l.Usable s) : ∀ l ∈ argumentLexemes args, l.Usable s := by
  induction args with
  | nil => simp [argumentLexemes]
  | cons e args ih =>
    have he : ∀ l ∈ enclosed (Precedence.sequence.rank ≤ e.rank) e.lexemes, l.Usable s :=
      forall_mem_enclosed (h e (by simp))
    have hargs := ih fun a ha => h a (List.mem_cons_of_mem _ ha)
    cases args with
    | nil => rwa [argumentLexemes]
    | cons e' args =>
      rw [argumentLexemes]
      · simpa [or_imp, forall_and] using ⟨he, hargs⟩
      · simp

theorem Printed.usable (h : Printed s e) : ∀ l ∈ e.lexemes, l.Usable s := by
  induction h with
  | @literal h v =>
    rw [lexemes]
    unfold signedLexemes
    split <;> simp [usable_literal]
  | reference hname => simpa [lexemes] using usable_name hname
  | binary _ _ _ _ ihl ihr =>
    simpa [lexemes, or_imp, forall_and] using ⟨forall_mem_enclosed ihl, forall_mem_enclosed ihr⟩
  | prefixed _ _ ih => simpa [lexemes, or_imp, forall_and] using forall_mem_enclosed ih
  | postfixed _ _ _ ih => simpa [lexemes, or_imp, forall_and] using forall_mem_enclosed ih
  | field hname _ _ ih =>
    simpa [lexemes, or_imp, forall_and] using ⟨forall_mem_enclosed ih, usable_name hname⟩
  | index _ _ _ ihb ihi =>
    simpa [lexemes, or_imp, forall_and] using ⟨forall_mem_enclosed ihb, ihi⟩
  | swizzle hne _ _ ih =>
    simpa [lexemes, or_imp, forall_and] using
      ⟨forall_mem_enclosed ih, usable_name (isName_letters s hne)⟩
  | ternary _ _ _ iht iha ihb =>
    simpa [lexemes, or_imp, forall_and] using
      ⟨forall_mem_enclosed iht, forall_mem_enclosed iha, forall_mem_enclosed ihb⟩
  | call hname _ _ ih =>
    simpa [lexemes, or_imp, forall_and] using ⟨usable_name hname, forall_mem_argumentLexemes ih⟩
  | childCall hname _ _ ih =>
    simpa [lexemes, or_imp, forall_and] using
      ⟨usable_name hname, usable_name (isName_eval s), forall_mem_argumentLexemes ih⟩
  | convert hname _ _ ih =>
    simpa [lexemes, or_imp, forall_and] using ⟨usable_name hname, forall_mem_enclosed ih⟩
  | assemble hname _ _ ih =>
    simpa [lexemes, or_imp, forall_and] using ⟨usable_name hname, forall_mem_argumentLexemes ih⟩

end Expr

end RasterShader
