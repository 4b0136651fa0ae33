import RasterShader.Source.Span

/-!
# Tokens

The kinds of tokens of the shading language and tokens as they stand in a source text. White
space and comments are tokens too (`TokenKind.isTrivia`), because directives look for line ends.
-/

namespace RasterShader

/-- Classes of tokens. -/
inductive TokenKind where
  | endOfFile
  | identifier
  | intLiteral
  | floatLiteral
  | trueLiteral
  | falseLiteral
  | kwIf
  | kwElse
  | kwFor
  | kwWhile
  | kwDo
  | kwSwitch
  | kwCase
  | kwDefault
  | kwBreak
  | kwContinue
  | kwDiscard
  | kwReturn
  | kwIn
  | kwOut
  | kwInout
  | kwUniform
  | kwConst
  | kwFlat
  | kwNoperspective
  | kwInline
  | kwNoinline
  | kwPure
  | kwWorkgroup
  | kwReadonly
  | kwWriteonly
  | kwBuffer
  | kwHighp
  | kwMediump
  | kwLowp
  | kwStruct
  | kwLayout
  /-- A word with no meaning here that programs may not use. -/
  | reserved
  /-- A hash sign and a word. -/
  | directive
  | leftParen
  | rightParen
  | leftBrace
  | rightBrace
  | leftBracket
  | rightBracket
  | dot
  | comma
  | semicolon
  | question
  | colon
  | plusPlus
  | minusMinus
  | plus
  | minus
  | star
  | slash
  | percent
  | shl
  | shr
  | bitwiseOr
  | bitwiseXor
  | bitwiseAnd
  | bitwiseNot
  | logicalOr
  | logicalXor
  | logicalAnd
  | logicalNot
  | assign
  | eqEq
  | neq
  | gt
  | lt
  | gtEq
  | ltEq
  | plusEq
  | minusEq
  | starEq
  | slashEq
  | percentEq
  | shlEq
  | shrEq
  | bitwiseOrEq
  | bitwiseXorEq
  | bitwiseAndEq
  | whitespace
  | lineComment
  | blockComment
  | invalid
deriving DecidableEq, Repr, Inhabited

/-- White space and comments, which only separate tokens. -/
def TokenKind.isTrivia : TokenKind → Bool
  | .whitespace | .lineComment | .blockComment => true
  | _ => false

/-- A token: its kind, the byte offset it starts at and its text. The text is empty exactly at the
end of the source. -/
structure Token where
  kind : TokenKind
  offset : Nat
  text : String
deriving DecidableEq, Repr, Inhabited

namespace Token

/-- Bytes the token takes up. -/
def length (t : Token) : Nat := t.text.utf8ByteSize

/-- Offset just after the token. -/
def stop (t : Token) : Nat := t.offset + t.length

/-- The token's place in the source. -/
def span (t : Token) : Span := .range t.offset t.stop

/-- From the start of one token to the end of another. -/
def spanTo (first last : Token) : Span := .range first.offset last.stop

/-- How messages quote the token. -/
def quoted (t : Token) : String :=
  match t.kind with
  | .endOfFile => "end of file"
  | _ => s!"'{t.text}'"

end Token

end RasterShader
