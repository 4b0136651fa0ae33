import RasterShader.Token.Basic

/-!
# The lexer

`Lexer.next` takes one token off the source. Each class of tokens is recognized by the number of
characters it takes from the front of the text; the classes are tried in a fixed order and the
first that matches wins, so `scan` is a function of the remaining characters alone. A lexer is a
value: keeping one is all it takes to come back to it later.

`length_rest_next_lt` says that every token but the last makes progress, and `tokenize` is total
because of it.
-/

namespace RasterShader

namespace Lexer

/-! ## Character classes -/

/-- Characters an identifier may start with. -/
def isIdentStart (c : Char) : Bool := c.isAlpha || c = '_' || c = '$'

/-- Characters an identifier may go on with. -/
def isIdentContinue (c : Char) : Bool := c.isAlphanum || c = '_' || c = '$'

/-- Blank characters. -/
def isBlank (c : Char) : Bool := c = ' ' || c = '\t' || c = '\r' || c = '\n'

/-- Hexadecimal digits. -/
def isHexDigit (c : Char) : Bool :=
  c.isDigit || ('a' ≤ c && c ≤ 'f') || ('A' ≤ c && c ≤ 'F')

/-! ## Lengths of matches

A function here gives the number of characters at the front of the text that belong to what it
recognizes. -/

/-- Characters at the front that satisfy `p`. -/
def run (p : Char → Bool) (cs : List Char) : Nat := (cs.takeWhile p).length

/-- Like `run`, but at least one. -/
def run1 (p : Char → Bool) (cs : List Char) : Option Nat :=
  match run p cs with
  | 0 => none
  | n => some n

/-- One character that satisfies `p`. -/
def one (p : Char → Bool) : List Char → Option Nat
  | c :: _ => if p c then some 1 else none
  | [] => none

/-- A fixed text. -/
def exactly (text cs : List Char) : Option Nat :=
  if text.isPrefixOf cs then some text.length else none

/-- A match or nothing. -/
def optionally (m : List Char → Option Nat) (cs : List Char) : Option Nat := some ((m cs).getD 0)

/-- One match directly after another. -/
def andThen (first second : List Char → Option Nat) (cs : List Char) : Option Nat := do
  let n ← first cs
  let m ← second (cs.drop n)
  return n + m

/-- The first match of two. -/
def orElse (first second : List Char → Option Nat) (cs : List Char) : Option Nat :=
  match first cs with
  | some n => some n
  | none => second cs

/-- Decimal digits, at least one. -/
def digits1 : List Char → Option Nat := run1 Char.isDigit

/-- Decimal digits, possibly none. -/
def digits0 (cs : List Char) : Option Nat := some (run Char.isDigit cs)

/-- The exponent of a float literal. -/
def exponent : List Char → Option Nat :=
  andThen (one fun c => c = 'e' || c = 'E')
    (andThen (optionally (one fun c => c = '+' || c = '-')) digits1)

/-- Digits with a point, or with an exponent, or both. -/
def floatDigits : List Char → Option Nat :=
  orElse (andThen digits1 (andThen (one (· = '.')) (andThen digits0 (optionally exponent))))
    (orElse (andThen (one (· = '.')) (andThen digits1 (optionally exponent)))
      (andThen digits1 exponent))

/-- A float literal with its suffix. -/
def floatLiteral : List Char → Option Nat :=
  andThen floatDigits (optionally (one fun c => c = 'f' || c = 'F'))

/-- An integer literal, decimal or hexadecimal, with its suffix. -/
def intLiteral : List Char → Option Nat :=
  andThen
    (orElse
      (andThen (one (· = '0')) (andThen (one fun c => c = 'x' || c = 'X') (run1 isHexDigit)))
      digits1)
    (optionally (one fun c => c = 'u' || c = 'U'))

/-- An identifier or keyword. -/
def word : List Char → Option Nat :=
  andThen (run1 isIdentStart) (fun cs => some (run isIdentContinue cs))

/-- A hash sign and a word. -/
def directive : List Char → Option Nat := andThen (one (· = '#')) (run1 isIdentContinue)

/-- Characters up to and including the first closing mark of a block comment. -/
def throughCommentEnd : List Char → Option Nat
  | '*' :: '/' :: _ => some 2
  | _ :: rest => (throughCommentEnd rest).map (· + 1)
  | [] => none

/-- A line comment, without the line feed that ends it. -/
def lineComment : List Char → Option Nat :=
  andThen (exactly ['/', '/']) (fun cs => some (run (· != '\n') cs))

/-- A block comment with its closing mark. -/
def blockComment : List Char → Option Nat := andThen (exactly ['/', '*']) throughCommentEnd

/-- A block comment that is not closed, with the rest of the text. -/
def openComment : List Char → Option Nat :=
  andThen (exactly ['/', '*']) (fun cs => some cs.length)

/-! ## Keywords and operators -/

/-- Words with a token kind of their own. -/
def keywords : List (String × TokenKind) :=
  [("true", .trueLiteral), ("false", .falseLiteral), ("if", .kwIf), ("else", .kwElse),
    ("for", .kwFor), ("while", .kwWhile), ("do", .kwDo), ("switch", .kwSwitch), ("case", .kwCase),
    ("default", .kwDefault), ("break", .kwBreak), ("continue", .kwContinue),
    ("discard", .kwDiscard), ("return", .kwReturn), ("in", .kwIn), ("out", .kwOut),
    ("inout", .kwInout), ("uniform", .kwUniform), ("const", .kwConst), ("flat", .kwFlat),
    ("noperspective", .kwNoperspective), ("inline", .kwInline), ("noinline", .kwNoinline),
    ("$pure", .kwPure), ("workgroup", .kwWorkgroup), ("readonly", .kwReadonly),
    ("writeonly", .kwWriteonly), ("buffer", .kwBuffer), ("highp", .kwHighp),
    ("mediump", .kwMediump), ("lowp", .kwLowp), ("struct", .kwStruct), ("layout", .kwLayout)]

/-- Words that are kept free and may not be used as identifiers. -/
def reservedWords : List String :=
  ["attribute", "varying", "precision", "invariant", "asm", "class", "union", "enum", "typedef",
    "template", "this", "packed", "goto", "volatile", "public", "static", "extern", "external",
    "interface", "long", "double", "fixed", "unsigned", "superp", "input", "output", "hvec2",
    "hvec3", "hvec4", "dvec2", "dvec3", "dvec4", "fvec2", "fvec3", "fvec4", "sampler3DRect",
    "sizeof", "cast", "namespace", "using", "resource", "smooth", "centroid", "subroutine",
    "coherent", "restrict", "patch", "sample", "shared", "atomic_uint"]

/-- The kind of a word. -/
def wordKind (text : String) : TokenKind :=
  match keywords.lookup text with
  | some kind => kind
  | none => if reservedWords.contains text then .reserved else .identifier

/-- Punctuation and operators. A text stands before its own beginnings, so that the first match is
the longest. -/
def punctuation : List (List Char × TokenKind) :=
  [(['<', '<', '='], .shlEq), (['>', '>', '='], .shrEq), (['+', '+'], .plusPlus),
    (['-', '-'], .minusMinus), (['<', '<'], .shl), (['>', '>'], .shr), (['|', '|'], .logicalOr),
    (['^', '^'], .logicalXor), (['&', '&'], .logicalAnd), (['=', '='], .eqEq),
    (['!', '='], .neq), (['>', '='], .gtEq), (['<', '='], .ltEq), (['+', '='], .plusEq),
    (['-', '='], .minusEq), (['*', '='], .starEq), (['/', '='], .slashEq),
    (['%', '='], .percentEq), (['|', '='], .bitwiseOrEq), (['^', '='], .bitwiseXorEq),
    (['&', '='], .bitwiseAndEq), (['('], .leftParen), ([')'], .rightParen), (['{'], .leftBrace),
    (['}'], .rightBrace), (['['], .leftBracket), ([']'], .rightBracket), (['.'], .dot),
    ([','], .comma), ([';'], .semicolon), (['?'], .question), ([':'], .colon), (['+'], .plus),
    (['-'], .minus), (['*'], .star), (['/'], .slash), (['%'], .percent), (['|'], .bitwiseOr),
    (['^'], .bitwiseXor), (['&'], .bitwiseAnd), (['~'], .bitwiseNot), (['!'], .logicalNot),
    (['='], .assign), (['>'], .gt), (['<'], .lt)]

/-- The first operator the text starts with. -/
def operator? (cs : List Char) : Option (TokenKind × Nat) :=
  (punctuation.find? fun entry => entry.1.isPrefixOf cs).map fun entry => (entry.2, entry.1.length)

/-! ## Scanning -/

/-- Kind and length of the token at the front of a text that is not empty. A comment that is not
closed is an invalid token, and so is a character that starts no token. -/
def scan (cs : List Char) : TokenKind × Nat :=
  let kinded (kind : TokenKind) (m : List Char → Option Nat) := (m cs).map (kind, ·)
  let candidates :=
    kinded .whitespace (run1 isBlank) <|> kinded .lineComment lineComment <|>
    kinded .blockComment blockComment <|> kinded .floatLiteral floatLiteral <|>
    kinded .intLiteral intLiteral <|>
    (word cs).map (fun n => (wordKind (String.ofList (cs.take n)), n)) <|>
    kinded .directive directive <|> operator? cs <|> kinded .invalid openComment
  candidates.getD (.invalid, 1)

end Lexer

/-- A place in a source text from which tokens are taken. -/
structure Lexer where
  /-- Characters still to be read. -/
  rest : List Char
  /-- Byte offset of the first of them. -/
  offset : Nat
deriving Inhabited

namespace Lexer

/-- A lexer at the start of a text. -/
def ofSource (source : String) : Lexer := ⟨source.toList, 0⟩

/-- The next token, trivia included, and the lexer after it. At the end of the text the token is
`endOfFile` and the lexer stays where it is. -/
def next (lexer : Lexer) : Token × Lexer :=
  if lexer.rest.isEmpty then (⟨.endOfFile, lexer.offset, ""⟩, lexer)
  else
    let (kind, n) := scan lexer.rest
    -- Every class takes at least one character.
    let n := max n 1
    let token : Token := ⟨kind, lexer.offset, String.ofList (lexer.rest.take n)⟩
    (token, ⟨lexer.rest.drop n, token.stop⟩)

/-- A token that is not the end of the text shortens what is left of it. -/
theorem length_rest_next_lt (lexer : Lexer) (h : lexer.rest.isEmpty = false) :
    lexer.next.2.rest.length < lexer.rest.length := by
  have pos : 0 < lexer.rest.length := by
    cases hr : lexer.rest with
    | nil => simp [hr] at h
    | cons c cs => simp
  simp only [next, h]
  simp only [Bool.false_eq_true, if_false, List.length_drop]
  omega

/-- Every token from here to the end of the text, the end excluded. -/
def tokens (lexer : Lexer) : List Token :=
  if _ : lexer.rest.isEmpty then []
  else lexer.next.1 :: tokens lexer.next.2
termination_by lexer.rest.length
decreasing_by exact length_rest_next_lt lexer (by simp_all)

end Lexer

/-- The tokens of a text without trivia. -/
def tokenize (source : String) : List Token :=
  (Lexer.ofSource source).tokens.filter fun t => !t.kind.isTrivia

end RasterShader
