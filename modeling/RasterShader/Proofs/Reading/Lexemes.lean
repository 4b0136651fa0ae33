import Mathlib
import RasterShader.Grammar.Parser

/-!
# Texts and the tokens they are made of

A `Lexeme` is a token without its place. `Spells cs ls rest` says that the lexer takes the lexemes
`ls` off `cs`, one after the other with single blanks between some of them, and then stands before
`rest`. It is built from the front: `Lexeme.Stands` says of one lexeme that the text behind it does
not run into it, and the lemmas of this module say for each class of lexemes which texts do not.
-/

namespace RasterShader

/-- A token without its place. -/
structure Lexeme where
  kind : TokenKind
  text : String
deriving DecidableEq, Repr

/-- The token without its place. -/
def Token.lexeme (t : Token) : Lexeme := ⟨t.kind, t.text⟩

/-- The lexer takes the lexeme off its text whenever `rest` stands behind it. -/
def Lexeme.Stands (l : Lexeme) (rest : List Char) : Prop :=
  l.text.toList ≠ [] ∧ Lexer.scan (l.text.toList ++ rest) = (l.kind, l.text.toList.length)

/-- The end of a text. -/
def Lexeme.endOfFile : Lexeme := ⟨.endOfFile, ""⟩

/-- A text is made of lexemes, with a blank before some of them, and then of `rest`. The end of the
whole text counts as a lexeme. -/
inductive Spells : List Char → List Lexeme → List Char → Prop
  | done (rest : List Char) : Spells rest [] rest
  | finish : Spells [] [Lexeme.endOfFile] []
  | blank {c : Char} {cs rest : List Char} {ls : List Lexeme} :
    Lexer.isBlank c = false → Spells (c :: cs) ls rest → Spells (' ' :: c :: cs) ls rest
  | lexeme {l : Lexeme} {cs rest : List Char} {ls : List Lexeme} :
    l.Stands cs → Spells cs ls rest → Spells (l.text.toList ++ cs) (l :: ls) rest

namespace Lexer

variable {c : Char} {cs rest : List Char} {l : Lexeme} {ls : List Lexeme}

/-! ## Taking lexemes -/

theorem next_of_stands (h : l.Stands rest) (offset : Nat) :
    (Lexer.mk (l.text.toList ++ rest) offset).next =
      (⟨l.kind, offset, l.text⟩, ⟨rest, offset + l.text.utf8ByteSize⟩) := by
  obtain ⟨hne, hscan⟩ := h
  have hpos : 1 ≤ l.text.toList.length := List.length_pos_iff.2 hne
  have hempty : (l.text.toList ++ rest).isEmpty = false := by simp [hne]
  simp only [next, hempty, Bool.false_eq_true, if_false, hscan, Nat.max_eq_left hpos,
    List.take_left, List.drop_left, String.ofList_toList]
  rfl

theorem nextSignificant_of_stands (h : l.Stands rest) (hl : l.kind.isTrivia = false)
    (offset : Nat) : (Lexer.mk (l.text.toList ++ rest) offset).nextSignificant =
      (⟨l.kind, offset, l.text⟩, ⟨rest, offset + l.text.utf8ByteSize⟩) := by
  rw [nextSignificant, dif_neg (by simp [h.1]), next_of_stands h]
  simp [hl]

theorem nextSignificant_blank (hc : isBlank c = false) (offset : Nat) :
    (Lexer.mk (' ' :: c :: cs) offset).nextSignificant =
      (Lexer.mk (c :: cs) (offset + 1)).nextSignificant := by
  have hstands : Lexeme.Stands ⟨.whitespace, " "⟩ (c :: cs) := by
    refine ⟨by decide, ?_⟩
    have htake : List.takeWhile isBlank (' ' :: c :: cs) = [' '] := by
      rw [List.takeWhile_cons_of_pos (by decide), List.takeWhile_cons_of_neg (by simp [hc])]
    show scan (' ' :: c :: cs) = _
    simp only [scan, run1, run, htake]
    rfl
  rw [nextSignificant, dif_neg (by simp)]
  rw [show (' ' :: c :: cs) = (" ".toList ++ c :: cs) from rfl, next_of_stands hstands]
  rfl

end Lexer

theorem Spells.length_le {cs rest : List Char} {ls : List Lexeme} (h : Spells cs ls rest) :
    ls.length ≤ cs.length + 1 := by
  induction h with
  | done => simp
  | finish => rfl
  | blank _ _ ih => simp only [List.length_cons] at *; omega
  | lexeme hl _ ih =>
    have := List.length_pos_iff.2 hl.1
    simp only [List.length_cons, List.length_append]
    omega

/-- The lexer takes the first lexeme and then stands before the others. -/
theorem Spells.nextSignificant {cs rest : List Char} {l : Lexeme} {ls : List Lexeme}
    (h : Spells cs (l :: ls) rest) (hl : l.kind.isTrivia = false) (offset : Nat) :
    ∃ token lexer, (Lexer.mk cs offset).nextSignificant = (token, lexer) ∧ token.lexeme = l ∧
      Spells lexer.rest ls rest := by
  generalize hlls : l :: ls = lls at h
  induction h generalizing offset with
  | done => cases hlls
  | finish =>
    cases hlls
    exact ⟨⟨.endOfFile, offset, ""⟩, ⟨[], offset⟩,
      by rw [Lexer.nextSignificant, dif_pos List.isEmpty_nil]; rfl, rfl, .done []⟩
  | blank hc _ ih =>
    obtain ⟨token, lexer, hnext, htoken, hlexer⟩ := ih (offset + 1) hlls
    exact ⟨token, lexer, by rw [Lexer.nextSignificant_blank hc, hnext], htoken, hlexer⟩
  | lexeme hstands hrest _ =>
    cases hlls
    exact ⟨_, _, Lexer.nextSignificant_of_stands hstands hl offset, rfl, hrest⟩

/-- A text that only its end is read of is empty. -/
theorem Spells.eq_nil {cs rest : List Char} {ls : List Lexeme} (h : Spells cs ls rest)
    (hls : ∀ l ∈ ls, l = .endOfFile) (hrest : rest = []) : cs = [] := by
  induction h with
  | done => exact hrest
  | finish => rfl
  | blank _ _ ih => exact absurd (ih hls hrest) (List.cons_ne_nil _ _)
  | @lexeme l _ _ _ hstands =>
    obtain rfl : l = .endOfFile := hls l List.mem_cons_self
    exact absurd rfl hstands.1

/-! ## Words -/

namespace Lexer

variable {c : Char} {cs w rest : List Char}

/-- What stands behind a word or a number does not go on with it. -/
def Bounds (rest : List Char) : Prop := ∀ c ∈ rest.head?, isIdentContinue c = false

theorem isDigit_of_isIdentStart (h : isIdentStart c = true) : c.isDigit = false := by
  simp only [isIdentStart, Bool.or_eq_true, decide_eq_true_iff] at h
  rcases h with (h | rfl) | rfl
  · simp only [Char.isAlpha, Char.isUpper, Char.isLower, Char.isDigit] at *
    grind
  · rfl
  · rfl

theorem isBlank_of_isIdentContinue (h : isIdentContinue c = true) : isBlank c = false := by
  by_contra hc
  simp only [isBlank, Bool.not_eq_false, Bool.or_eq_true, decide_eq_true_iff] at hc
  rcases hc with ((rfl | rfl) | rfl) | rfl <;> exact absurd h (by decide)

theorem isIdentContinue_of_isIdentStart (h : isIdentStart c = true) :
    isIdentContinue c = true := by
  simp only [isIdentStart, isIdentContinue, Char.isAlphanum, Bool.or_eq_true] at *
  tauto

theorem takeWhile_append_of_all {p : Char → Bool} (hw : w.all p = true)
    (hrest : ∀ c ∈ rest.head?, p c = false) : (w ++ rest).takeWhile p = w := by
  rw [List.takeWhile_append_of_pos (by simpa using hw)]
  cases rest with
  | nil => simp
  | cons c cs => rw [List.takeWhile_cons_of_neg (by simp [hrest c rfl]), List.append_nil]

theorem run_append (p : Char → Bool) (hw : w.all p = true)
    (hrest : ∀ c ∈ rest.head?, p c = false) : run p (w ++ rest) = w.length := by
  rw [run, takeWhile_append_of_all hw hrest]

/-- A word starts with a letter and goes on with letters and digits. -/
def IsWord (w : List Char) : Prop :=
  w.all isIdentContinue = true ∧ ∃ c ∈ w.head?, isIdentStart c = true

theorem word_append (hw : IsWord w) (hrest : Bounds rest) : word (w ++ rest) = some w.length := by
  obtain ⟨hall, c, hc, hstart⟩ := hw
  -- The letters at the front are taken first, then everything that goes on.
  set front := w.takeWhile isIdentStart with hfront
  have hsplit : w = front ++ w.dropWhile isIdentStart := (List.takeWhile_append_dropWhile ..).symm
  have hne : front ≠ [] := by
    cases w with
    | nil => simp at hc
    | cons d ds =>
      simp only [List.head?_cons, Option.mem_def, Option.some.injEq] at hc
      subst hc
      simp [hfront, hstart]
  have hrun : run isIdentStart (w ++ rest) = front.length := by
    rw [hsplit, List.append_assoc]
    refine run_append _ (List.all_takeWhile ..) fun d hd => ?_
    cases hdrop : w.dropWhile isIdentStart with
    | nil =>
      rw [hdrop, List.nil_append] at hd
      by_contra hneg
      have := isIdentContinue_of_isIdentStart (by simpa using hneg)
      simp [hrest d hd] at this
    | cons e es =>
      rw [hdrop] at hd
      simp only [List.cons_append, List.head?_cons, Option.mem_def, Option.some.injEq] at hd
      subst hd
      have := List.head_dropWhile_not isIdentStart (l := w) (by simp [hdrop])
      simpa [hdrop] using this
  have hpos := List.length_pos_iff.2 hne
  have hrun1 : run1 isIdentStart (w ++ rest) = some front.length := by
    rw [run1, hrun]
    cases hlen : front.length with
    | zero => omega
    | succ n => rfl
  have hback : run isIdentContinue ((w ++ rest).drop front.length) =
      (w.dropWhile isIdentStart).length := by
    conv_lhs => rw [hsplit, List.append_assoc, List.drop_left]
    refine run_append _ ?_ hrest
    rw [List.all_eq_true] at hall ⊢
    exact fun d hd => hall d (List.dropWhile_subset _ hd)
  have hlength : w.length = front.length + (w.dropWhile isIdentStart).length := by
    conv_lhs => rw [hsplit, List.length_append]
  simp only [word, andThen, hrun1, Option.bind_eq_bind, Option.bind_some, hback, hlength]
  rfl

theorem run1_cons_of_neg {p : Char → Bool} (h : p c = false) (cs : List Char) :
    run1 p (c :: cs) = none := by
  rw [run1, run, List.takeWhile_cons_of_neg (by simp [h])]
  rfl

theorem one_cons_of_neg {p : Char → Bool} (h : p c = false) (cs : List Char) :
    one p (c :: cs) = none := by
  simp [one, h]

theorem floatLiteral_cons_of_neg (hdigit : c.isDigit = false) (hdot : c ≠ '.') (cs : List Char) :
    floatLiteral (c :: cs) = none := by
  simp [floatLiteral, floatDigits, andThen, orElse, digits1, run1_cons_of_neg hdigit,
    one_cons_of_neg (p := (· = '.')) (decide_eq_false hdot)]

theorem intLiteral_cons_of_neg (hdigit : c.isDigit = false) (cs : List Char) :
    intLiteral (c :: cs) = none := by
  have hzero : c ≠ '0' := by rintro rfl; exact absurd hdigit (by decide)
  simp [intLiteral, andThen, orElse, digits1, run1_cons_of_neg hdigit,
    one_cons_of_neg (p := (· = '0')) (decide_eq_false hzero)]

theorem exactly_cons_of_ne {d : Char} (h : c ≠ d) (ds cs : List Char) :
    exactly (d :: ds) (c :: cs) = none := by
  simp [exactly, List.isPrefixOf, h.symm]

theorem scan_word (hw : IsWord w) (hrest : Bounds rest) :
    scan (w ++ rest) = (wordKind (String.ofList w), w.length) := by
  have hword := word_append hw hrest
  obtain ⟨hall, c, hc, hstart⟩ := hw
  obtain ⟨d, ds, rfl⟩ : ∃ d ds, w = d :: ds := by cases w <;> simp at hc ⊢
  obtain rfl : d = c := by simpa using hc
  have hcontinue := isIdentContinue_of_isIdentStart hstart
  have hblank := isBlank_of_isIdentContinue hcontinue
  have hdigit := isDigit_of_isIdentStart hstart
  have hdot : d ≠ '.' := by rintro rfl; exact absurd hstart (by decide)
  have hslash : d ≠ '/' := by rintro rfl; exact absurd hstart (by decide)
  simp only [List.cons_append] at hword ⊢
  have htake : (d :: (ds ++ rest)).take (d :: ds).length = d :: ds := by simp
  simp only [scan, run1_cons_of_neg hblank, lineComment, blockComment, andThen,
    exactly_cons_of_ne hslash, floatLiteral_cons_of_neg hdigit hdot,
    intLiteral_cons_of_neg hdigit, hword, htake, Option.bind_eq_bind, Option.bind_none,
    Option.map_none, Option.map_some]
  rfl

end Lexer

/-- A word that is not a keyword, as a lexeme. -/
theorem Lexeme.stands_word {w : String} {rest : List Char} (hw : Lexer.IsWord w.toList)
    (hrest : Lexer.Bounds rest) : Lexeme.Stands ⟨Lexer.wordKind w, w⟩ rest := by
  constructor
  · obtain ⟨-, c, hc, -⟩ := hw
    rintro hnil
    simp [hnil] at hc
  · rw [Lexer.scan_word hw hrest, String.ofList_toList]

/-- An identifier. -/
def Lexeme.name (name : String) : Lexeme := ⟨.identifier, name⟩

/-! ## Operators and brackets -/

namespace Lexer

variable {c : Char} {cs w rest : List Char}

/-- Characters that an operator, or a comment, goes on with. -/
def isJoining (c : Char) : Bool := "<>=+-|^&/*".toList.contains c

theorem isPrefixOf_append_cons {t : List Char} (ht : ∀ d ∈ t, d ≠ c) :
    t.isPrefixOf (w ++ c :: cs) = t.isPrefixOf w := by
  induction t generalizing w with
  | nil => simp
  | cons d t ih =>
    have hd := ht d (by simp)
    cases w with
    | nil => simp [List.isPrefixOf, hd]
    | cons e w =>
      simp only [List.cons_append, List.isPrefixOf]
      rw [ih fun d hd => ht d (by simp [hd])]

/-- Whether an operator stands at the front does not depend on a character behind it that no
operator goes on with. -/
theorem isPrefixOf_of_joining {t : List Char} (hw : w ≠ [])
    (ht : t.tail.all isJoining = true) (hc : isJoining c = false) :
    t.isPrefixOf (w ++ c :: cs) = t.isPrefixOf w := by
  obtain ⟨e, w, rfl⟩ := List.exists_cons_of_ne_nil hw
  cases t with
  | nil => simp
  | cons d t =>
    have htail : ∀ d ∈ t, d ≠ c := by
      rintro d hd rfl
      simp [List.all_eq_true.1 ht d hd] at hc
    simp only [List.cons_append, List.isPrefixOf]
    rw [isPrefixOf_append_cons htail]

theorem operator?_append (hw : w ≠ []) (hrest : ∀ c ∈ rest.head?, isJoining c = false) :
    operator? (w ++ rest) = operator? w := by
  cases rest with
  | nil => rw [List.append_nil]
  | cons c cs =>
    have hjoin : ∀ entry ∈ punctuation, entry.1.tail.all isJoining = true := by decide
    have hfind : (punctuation.find? fun entry => entry.1.isPrefixOf (w ++ c :: cs)) =
        punctuation.find? fun entry => entry.1.isPrefixOf w :=
      List.find?_congr fun entry he =>
        isPrefixOf_of_joining hw (hjoin entry he) (hrest c rfl)
    rw [operator?, hfind, operator?]

/-- A character that starts operators only, and no comment. -/
theorem scan_eq_operator {entry : TokenKind × Nat} (hblank : isBlank c = false)
    (hstart : isIdentStart c = false) (hdigit : c.isDigit = false) (hdot : c ≠ '.')
    (hhash : c ≠ '#') (hline : lineComment (c :: cs) = none) (hblock : blockComment (c :: cs) = none)
    (h : operator? (c :: cs) = some entry) : scan (c :: cs) = entry := by
  simp only [scan, run1_cons_of_neg hblank, hline, hblock, floatLiteral_cons_of_neg hdigit hdot,
    intLiteral_cons_of_neg hdigit, word, directive, andThen, run1_cons_of_neg hstart,
    one_cons_of_neg (p := (· = '#')) (decide_eq_false hhash), Option.bind_eq_bind, Option.bind_none,
    Option.map_none, h]
  rfl

end Lexer

namespace Lexeme

variable {c : Char} {cs rest : List Char} {ls : List Lexeme}

/-- An operator as a lexeme. -/
def ofOperator (op : Operator) : Lexeme := ⟨(Lexer.scan op.symbol.toList).1, op.symbol⟩

@[simp] theorem ofToken?_ofOperator (op : Operator) :
    Operator.ofToken? (ofOperator op).kind = some op := by
  cases op <;> rfl

theorem stands_operator (op : Operator)
    (hrest : ∀ c ∈ rest.head?, Lexer.isJoining c = false) : (ofOperator op).Stands rest := by
  have hne : op.symbol.toList ≠ [] := by cases op <;> decide
  refine ⟨hne, ?_⟩
  have halone : Lexer.operator? op.symbol.toList =
      some ((Lexer.scan op.symbol.toList).1, op.symbol.toList.length) := by cases op <;> rfl
  have hoperator := (Lexer.operator?_append hne hrest).trans halone
  have hcomment (d : Char) (hd : d = '/' ∨ d = '*') :
      Lexer.exactly ['/', d] (op.symbol.toList ++ rest) = none := by
    have hnone : List.isPrefixOf ['/', d] op.symbol.toList = false := by
      rcases hd with rfl | rfl <;> cases op <;> rfl
    cases rest with
    | nil => rw [List.append_nil, Lexer.exactly, hnone]; rfl
    | cons c cs =>
      have hjoin : (List.tail ['/', d]).all Lexer.isJoining = true := by
        rcases hd with rfl | rfl <;> rfl
      rw [Lexer.exactly, Lexer.isPrefixOf_of_joining hne hjoin (hrest c rfl), hnone]
      rfl
  have hline : Lexer.lineComment (op.symbol.toList ++ rest) = none := by
    simp [Lexer.lineComment, Lexer.andThen, hcomment '/' (.inl rfl)]
  have hblock : Lexer.blockComment (op.symbol.toList ++ rest) = none := by
    simp [Lexer.blockComment, Lexer.andThen, hcomment '*' (.inr rfl)]
  revert hline hblock hoperator
  cases op <;> exact fun hoperator hline hblock =>
    Lexer.scan_eq_operator rfl rfl rfl (by decide) (by decide) hline hblock hoperator

/-- An opening parenthesis. -/
def leftParen : Lexeme := ⟨.leftParen, "("⟩

/-- A closing parenthesis. -/
def rightParen : Lexeme := ⟨.rightParen, ")"⟩

/-- An opening bracket. -/
def leftBracket : Lexeme := ⟨.leftBracket, "["⟩

/-- A closing bracket. -/
def rightBracket : Lexeme := ⟨.rightBracket, "]"⟩

/-- A comma. -/
def comma : Lexeme := ⟨.comma, ","⟩

/-- A question mark. -/
def question : Lexeme := ⟨.question, "?"⟩

/-- A colon. -/
def colon : Lexeme := ⟨.colon, ":"⟩

/-- A point. -/
def dot : Lexeme := ⟨.dot, "."⟩

theorem spells_leftParen (h : Spells cs ls rest) : Spells ('(' :: cs) (.leftParen :: ls) rest :=
  .lexeme (l := .leftParen) ⟨by decide, rfl⟩ h

theorem spells_rightParen (h : Spells cs ls rest) : Spells (')' :: cs) (.rightParen :: ls) rest :=
  .lexeme (l := .rightParen) ⟨by decide, rfl⟩ h

theorem spells_leftBracket (h : Spells cs ls rest) : Spells ('[' :: cs) (.leftBracket :: ls) rest :=
  .lexeme (l := .leftBracket) ⟨by decide, rfl⟩ h

theorem spells_rightBracket (h : Spells cs ls rest) :
    Spells (']' :: cs) (.rightBracket :: ls) rest :=
  .lexeme (l := .rightBracket) ⟨by decide, rfl⟩ h

theorem spells_comma (h : Spells cs ls rest) : Spells (',' :: cs) (.comma :: ls) rest :=
  .lexeme (l := .comma) ⟨by decide, rfl⟩ h

theorem spells_question (h : Spells cs ls rest) : Spells ('?' :: cs) (.question :: ls) rest :=
  .lexeme (l := .question) ⟨by decide, rfl⟩ h

theorem spells_colon (h : Spells cs ls rest) : Spells (':' :: cs) (.colon :: ls) rest :=
  .lexeme (l := .colon) ⟨by decide, rfl⟩ h

theorem spells_dot (hc : c.isDigit = false) (h : Spells (c :: cs) ls rest) :
    Spells ('.' :: c :: cs) (.dot :: ls) rest := by
  refine .lexeme (l := .dot) ⟨by decide, ?_⟩ h
  have hfloat : Lexer.floatLiteral ('.' :: c :: cs) = none := by
    have hdot : Lexer.digits1 ('.' :: c :: cs) = none := Lexer.run1_cons_of_neg rfl _
    have hdigits : Lexer.digits1 (c :: cs) = none := Lexer.run1_cons_of_neg hc _
    simp [Lexer.floatLiteral, Lexer.floatDigits, Lexer.andThen, Lexer.orElse, hdot, hdigits,
      Lexer.one]
  show Lexer.scan ('.' :: c :: cs) = _
  simp only [Lexer.scan, hfloat]
  rfl

end Lexeme

/-! ## Numbers -/

namespace Lexer

variable {c : Char} {a b ds cs rest u : List Char} {m m' : List Char → Option Nat}

/-- The match takes `a` when `b` stands behind it. -/
def Takes (m : List Char → Option Nat) (a b : List Char) : Prop := m (a ++ b) = some a.length

theorem Takes.andThen (h : Takes m a (b ++ cs)) (h' : Takes m' b cs) :
    Takes (andThen m m') (a ++ b) cs := by
  unfold Takes at *
  rw [List.append_assoc, Lexer.andThen, h]
  simp only [Option.bind_eq_bind, Option.bind_some, List.drop_left, h', List.length_append]
  rfl

theorem Takes.andThen_eq_none (h : Takes m a b) (h' : m' b = none) :
    Lexer.andThen m m' (a ++ b) = none := by
  simp [Lexer.andThen, show m (a ++ b) = some a.length from h, h']

theorem Takes.orElse (h : Takes m a b) : Takes (orElse m m') a b := by
  unfold Takes at *
  rw [Lexer.orElse, h]

theorem Takes.orElse_of_none (h : m (a ++ b) = none) (h' : Takes m' a b) :
    Takes (Lexer.orElse m m') a b := by
  unfold Takes at *
  rw [Lexer.orElse, h, h']

theorem Takes.optionally (h : Takes m a b) : Takes (optionally m) a b := by
  unfold Takes at *
  rw [Lexer.optionally, h]
  rfl

theorem takes_optionally_nil (h : m b = none) : Takes (optionally m) [] b := by
  simp [Takes, Lexer.optionally, h]

theorem andThen_eq_none (h : m cs = none) : andThen m m' cs = none := by
  simp [andThen, h]

theorem takes_one {p : Char → Bool} (h : p c = true) : Takes (one p) [c] rest := by
  simp [Takes, one, h]

theorem one_eq_none {p : Char → Bool} (h : ∀ c ∈ rest.head?, p c = false) : one p rest = none := by
  cases rest with
  | nil => rfl
  | cons c cs => exact one_cons_of_neg (h c rfl) cs

/-- Decimal digits, at least one. -/
def IsDigits (ds : List Char) : Prop := ds ≠ [] ∧ ds.all Char.isDigit = true

/-- The exponent of ten of a number. -/
def IsExponent (es : List Char) : Prop :=
  ∃ sign ds, es = ['e'] ++ (sign ++ ds) ∧ (sign = [] ∨ sign = ['-']) ∧ IsDigits ds

/-- Digits with a point, with an exponent, or with both. -/
inductive IsNumeral : List Char → Prop
  | point {ws fs es : List Char} : IsDigits ws → fs.all Char.isDigit = true →
    es = [] ∨ IsExponent es → IsNumeral (ws ++ (['.'] ++ (fs ++ es)))
  | exponent {ws es : List Char} : IsDigits ws → IsExponent es → IsNumeral (ws ++ es)

theorem IsDigits.exists_cons (h : IsDigits ds) : ∃ d ds', ds = d :: ds' ∧ d.isDigit = true := by
  obtain ⟨d, ds', rfl⟩ := List.exists_cons_of_ne_nil h.1
  exact ⟨d, ds', rfl, List.all_eq_true.1 h.2 d (by simp)⟩

theorem IsDigits.takes (h : IsDigits ds) (hrest : ∀ c ∈ rest.head?, c.isDigit = false) :
    Takes digits1 ds rest := by
  have hpos := List.length_pos_iff.2 h.1
  rw [Takes, digits1, run1, run_append _ h.2 hrest]
  cases hlen : ds.length with
  | zero => omega
  | succ n => rfl

theorem isIdentContinue_of_isDigit (h : c.isDigit = true) : isIdentContinue c = true := by
  simp [isIdentContinue, Char.isAlphanum, h]

theorem Bounds.isDigit (h : Bounds rest) : ∀ c ∈ rest.head?, c.isDigit = false := by
  intro c hc
  cases hdigit : c.isDigit with
  | false => rfl
  | true => rw [← h c hc, isIdentContinue_of_isDigit hdigit]

theorem Bounds.ne (h : Bounds rest) {d : Char} (hd : isIdentContinue d = true) :
    ∀ c ∈ rest.head?, c ≠ d := by
  rintro c hc rfl
  simp [h c hc] at hd

theorem scan_of_floatLiteral {n : Nat} (hc : c.isDigit = true)
    (h : floatLiteral (c :: cs) = some n) : scan (c :: cs) = (.floatLiteral, n) := by
  have hblank := isBlank_of_isIdentContinue (isIdentContinue_of_isDigit hc)
  have hslash : c ≠ '/' := by rintro rfl; exact absurd hc (by decide)
  simp only [scan, run1_cons_of_neg hblank, lineComment, blockComment, andThen,
    exactly_cons_of_ne hslash, h, Option.bind_eq_bind, Option.bind_none, Option.map_none]
  rfl

theorem scan_of_intLiteral {n : Nat} (hc : c.isDigit = true)
    (hfloat : floatLiteral (c :: cs) = none) (h : intLiteral (c :: cs) = some n) :
    scan (c :: cs) = (.intLiteral, n) := by
  have hblank := isBlank_of_isIdentContinue (isIdentContinue_of_isDigit hc)
  have hslash : c ≠ '/' := by rintro rfl; exact absurd hc (by decide)
  simp only [scan, run1_cons_of_neg hblank, lineComment, blockComment, andThen,
    exactly_cons_of_ne hslash, hfloat, h, Option.bind_eq_bind, Option.bind_none, Option.map_none]
  rfl

/-- No number starts with a point here. -/
theorem IsDigits.one_dot (h : IsDigits ds) (rest : List Char) :
    one (· = '.') (ds ++ rest) = none := by
  obtain ⟨d, ds', rfl, hd⟩ := h.exists_cons
  refine one_cons_of_neg ?_ _
  rw [decide_eq_false_iff_not]
  rintro rfl
  exact absurd hd (by decide)

/-- Digits before something that goes on with neither a point nor an exponent are no float. -/
theorem IsDigits.floatLiteral_eq_none (h : IsDigits ds)
    (hrest : ∀ c ∈ rest.head?, c.isDigit = false ∧ c ≠ '.' ∧ c ≠ 'e' ∧ c ≠ 'E') :
    floatLiteral (ds ++ rest) = none := by
  have htakes := h.takes fun c hc => (hrest c hc).1
  have hpoint : andThen digits1 (andThen (one (· = '.')) (andThen digits0 (optionally exponent)))
      (ds ++ rest) = none :=
    htakes.andThen_eq_none (andThen_eq_none (one_eq_none fun c hc => by simp [(hrest c hc).2.1]))
  have hexponent : andThen digits1 exponent (ds ++ rest) = none :=
    htakes.andThen_eq_none (andThen_eq_none (one_eq_none fun c hc => by simp [(hrest c hc).2.2]))
  refine andThen_eq_none ?_
  simp only [floatDigits, orElse, hpoint, andThen_eq_none (h.one_dot rest), hexponent]

theorem takes_intLiteral (h : IsDigits ds) (hu : u = [] ∨ u = ['u']) (hrest : Bounds rest) :
    Takes intLiteral (ds ++ u) rest := by
  have hnext : ∀ c ∈ (u ++ rest).head?, c.isDigit = false ∧ c ≠ 'x' ∧ c ≠ 'X' := by
    rcases hu with rfl | rfl
    · exact fun c hc => ⟨hrest.isDigit c hc, hrest.ne (by decide) c hc, hrest.ne (by decide) c hc⟩
    · rintro c hc
      obtain rfl : 'u' = c := by simpa using hc
      decide
  refine .andThen (.orElse_of_none ?_ (h.takes fun c hc => (hnext c hc).1)) ?_
  · -- A zero is not followed by the mark of a hexadecimal number.
    obtain ⟨d, ds', rfl, hd⟩ := h.exists_cons
    by_cases hzero : d = '0'
    · refine Takes.andThen_eq_none (a := [d]) (takes_one (by simpa using hzero))
        (andThen_eq_none (one_eq_none fun c hc => ?_))
      cases ds' with
      | nil => simp [(hnext c hc).2]
      | cons e es =>
        obtain rfl : e = c := by simpa using hc
        have he := List.all_eq_true.1 h.2 e (by simp)
        have : e ≠ 'x' ∧ e ≠ 'X' := by
          constructor <;> rintro rfl <;> exact absurd he (by decide)
        simp [this]
    · exact andThen_eq_none (one_cons_of_neg (decide_eq_false hzero) _)
  · rcases hu with rfl | rfl
    · refine takes_optionally_nil (one_eq_none fun c hc => ?_)
      simp [hrest.ne (d := 'u') (by decide) c hc, hrest.ne (d := 'U') (by decide) c hc]
    · exact (takes_one rfl).optionally

theorem scan_integer (h : IsDigits ds) (hu : u = [] ∨ u = ['u']) (hrest : Bounds rest)
    (hdot : rest.head? ≠ some '.') :
    scan ((ds ++ u) ++ rest) = (.intLiteral, (ds ++ u).length) := by
  have hfloat : floatLiteral ((ds ++ u) ++ rest) = none := by
    rw [List.append_assoc]
    refine h.floatLiteral_eq_none fun c hc => ?_
    rcases hu with rfl | rfl
    · refine ⟨hrest.isDigit c hc, ?_, hrest.ne (by decide) c hc, hrest.ne (by decide) c hc⟩
      rintro rfl
      exact hdot hc
    · obtain rfl : 'u' = c := by simpa using hc
      decide
  have hint : intLiteral ((ds ++ u) ++ rest) = _ := takes_intLiteral h hu hrest
  obtain ⟨d, ds', rfl, hd⟩ := h.exists_cons
  exact scan_of_intLiteral hd hfloat hint

theorem IsExponent.takes (h : IsExponent cs) (hrest : Bounds rest) : Takes exponent cs rest := by
  obtain ⟨sign, ds, rfl, hsign, hds⟩ := h
  refine .andThen (takes_one rfl) (.andThen ?_ (hds.takes hrest.isDigit))
  rcases hsign with rfl | rfl
  · refine takes_optionally_nil (one_eq_none fun c hc => ?_)
    obtain ⟨d, ds', rfl, hd⟩ := hds.exists_cons
    obtain rfl : d = c := by simpa using hc
    have : d ≠ '+' ∧ d ≠ '-' := by constructor <;> rintro rfl <;> exact absurd hd (by decide)
    simp [this]
  · exact (takes_one rfl).optionally

theorem isDigit_of_exponent (h : cs = [] ∨ IsExponent cs) (hrest : Bounds rest) :
    ∀ c ∈ (cs ++ rest).head?, c.isDigit = false := by
  rcases h with rfl | ⟨sign, ds, rfl, -⟩
  · exact hrest.isDigit
  · rintro c hc
    obtain rfl : 'e' = c := by simpa using hc
    decide

theorem takes_floatDigits (h : IsNumeral cs) (hrest : Bounds rest) :
    Takes floatDigits cs rest := by
  cases h with
  | point hws hfs hes =>
    refine .orElse (.andThen (hws.takes ?_) (.andThen (takes_one rfl) (.andThen ?_ ?_)))
    · rintro c hc
      obtain rfl : '.' = c := by simpa using hc
      decide
    · rw [Takes, digits0, run_append _ hfs (isDigit_of_exponent hes hrest)]
    · rcases hes with rfl | hes
      · refine takes_optionally_nil (andThen_eq_none (one_eq_none fun c hc => ?_))
        simp [hrest.ne (d := 'e') (by decide) c hc, hrest.ne (d := 'E') (by decide) c hc]
      · exact (hes.takes hrest).optionally
  | exponent hws hes =>
    have htakes := hws.takes (isDigit_of_exponent (.inr hes) hrest)
    refine .orElse_of_none ?_ (.orElse_of_none ?_ (htakes.andThen (hes.takes hrest)))
    · rw [List.append_assoc]
      refine htakes.andThen_eq_none (andThen_eq_none ?_)
      obtain ⟨sign, ds, rfl, -⟩ := hes
      rfl
    · rw [List.append_assoc]
      exact andThen_eq_none (hws.one_dot _)

theorem IsNumeral.exists_cons (h : IsNumeral cs) : ∃ d ds, cs = d :: ds ∧ d.isDigit = true := by
  cases h with
  | point hws =>
    obtain ⟨d, ws, rfl, hd⟩ := hws.exists_cons
    exact ⟨d, _, rfl, hd⟩
  | exponent hws =>
    obtain ⟨d, ws, rfl, hd⟩ := hws.exists_cons
    exact ⟨d, _, rfl, hd⟩

theorem scan_numeral (h : IsNumeral cs) (hrest : Bounds rest) :
    scan (cs ++ rest) = (.floatLiteral, cs.length) := by
  have hfloat : Takes floatLiteral (cs ++ []) rest := by
    refine (takes_floatDigits h hrest).andThen (takes_optionally_nil (one_eq_none fun c hc => ?_))
    simp [hrest.ne (d := 'f') (by decide) c hc, hrest.ne (d := 'F') (by decide) c hc]
  rw [List.append_nil, Takes] at hfloat
  obtain ⟨d, ds, rfl, hd⟩ := h.exists_cons
  exact scan_of_floatLiteral hd hfloat

end Lexer

end RasterShader
