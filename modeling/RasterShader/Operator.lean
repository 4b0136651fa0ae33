import RasterShader.Token.Basic

/-!
# Operators and their precedence
-/

namespace RasterShader

/-- Operators of expressions. -/
inductive Operator where
  | plus
  | minus
  | star
  | slash
  | percent
  | shl
  | shr
  | logicalNot
  | logicalAnd
  | logicalOr
  | logicalXor
  | bitwiseNot
  | bitwiseAnd
  | bitwiseOr
  | bitwiseXor
  | assign
  | eqEq
  | neq
  | lt
  | gt
  | ltEq
  | gtEq
  | plusEq
  | minusEq
  | starEq
  | slashEq
  | percentEq
  | shlEq
  | shrEq
  | bitwiseAndEq
  | bitwiseOrEq
  | bitwiseXorEq
  | plusPlus
  | minusMinus
  | comma
deriving DecidableEq, Repr, Inhabited

/-- Binding strength, tightest first. -/
inductive Precedence where
  | parentheses
  | postfixed
  | prefixed
  | multiplicative
  | additive
  | shift
  | relational
  | equality
  | bitwiseAnd
  | bitwiseXor
  | bitwiseOr
  | logicalAnd
  | logicalXor
  | logicalOr
  | ternary
  | assignment
  | sequence
  | topLevel
deriving DecidableEq, Repr, Inhabited

/-- The place of a precedence, counted from the tightest. -/
def Precedence.rank : Precedence → Nat := Precedence.ctorIdx

/-- `a` binds at least as loosely as `b`. -/
def Precedence.looserOrEqual (a b : Precedence) : Bool := b.rank ≤ a.rank

namespace Operator

/-- Every operator. -/
def all : List Operator :=
  [plus, minus, star, slash, percent, shl, shr, logicalNot, logicalAnd, logicalOr, logicalXor,
    bitwiseNot, bitwiseAnd, bitwiseOr, bitwiseXor, assign, eqEq, neq, lt, gt, ltEq, gtEq, plusEq,
    minusEq, starEq, slashEq, percentEq, shlEq, shrEq, bitwiseAndEq, bitwiseOrEq, bitwiseXorEq,
    plusPlus, minusMinus, comma]

/-- The spelling of an operator. -/
def symbol : Operator → String
  | plus => "+"
  | minus => "-"
  | star => "*"
  | slash => "/"
  | percent => "%"
  | shl => "<<"
  | shr => ">>"
  | logicalNot => "!"
  | logicalAnd => "&&"
  | logicalOr => "||"
  | logicalXor => "^^"
  | bitwiseNot => "~"
  | bitwiseAnd => "&"
  | bitwiseOr => "|"
  | bitwiseXor => "^"
  | assign => "="
  | eqEq => "=="
  | neq => "!="
  | lt => "<"
  | gt => ">"
  | ltEq => "<="
  | gtEq => ">="
  | plusEq => "+="
  | minusEq => "-="
  | starEq => "*="
  | slashEq => "/="
  | percentEq => "%="
  | shlEq => "<<="
  | shrEq => ">>="
  | bitwiseAndEq => "&="
  | bitwiseOrEq => "|="
  | bitwiseXorEq => "^="
  | plusPlus => "++"
  | minusMinus => "--"
  | comma => ","

/-- The operator a token spells. -/
def ofToken? : TokenKind → Option Operator
  | .plus => some plus
  | .minus => some minus
  | .star => some star
  | .slash => some slash
  | .percent => some percent
  | .shl => some shl
  | .shr => some shr
  | .logicalNot => some logicalNot
  | .logicalAnd => some logicalAnd
  | .logicalOr => some logicalOr
  | .logicalXor => some logicalXor
  | .bitwiseNot => some bitwiseNot
  | .bitwiseAnd => some bitwiseAnd
  | .bitwiseOr => some bitwiseOr
  | .bitwiseXor => some bitwiseXor
  | .assign => some assign
  | .eqEq => some eqEq
  | .neq => some neq
  | .lt => some lt
  | .gt => some gt
  | .ltEq => some ltEq
  | .gtEq => some gtEq
  | .plusEq => some plusEq
  | .minusEq => some minusEq
  | .starEq => some starEq
  | .slashEq => some slashEq
  | .percentEq => some percentEq
  | .shlEq => some shlEq
  | .shrEq => some shrEq
  | .bitwiseAndEq => some bitwiseAndEq
  | .bitwiseOrEq => some bitwiseOrEq
  | .bitwiseXorEq => some bitwiseXorEq
  | .plusPlus => some plusPlus
  | .minusMinus => some minusMinus
  | .comma => some comma
  | _ => none

/-- Simple and compound assignments. -/
def isAssignment : Operator → Bool
  | assign | plusEq | minusEq | starEq | slashEq | percentEq | shlEq | shrEq | bitwiseAndEq
  | bitwiseOrEq | bitwiseXorEq => true
  | _ => false

/-- The operation a compound assignment applies; other operators stay as they are. -/
def removeAssignment : Operator → Operator
  | plusEq => plus
  | minusEq => minus
  | starEq => star
  | slashEq => slash
  | percentEq => percent
  | shlEq => shl
  | shrEq => shr
  | bitwiseAndEq => bitwiseAnd
  | bitwiseOrEq => bitwiseOr
  | bitwiseXorEq => bitwiseXor
  | op => op

/-- Assignments that read what they write. -/
def isCompoundAssignment (op : Operator) : Bool := op.isAssignment && op != assign

/-- Comparisons for equality. -/
def isEquality : Operator → Bool
  | eqEq | neq => true
  | _ => false

/-- Comparisons by order. -/
def isRelational : Operator → Bool
  | lt | gt | ltEq | gtEq => true
  | _ => false

/-- Connectives of booleans. -/
def isLogical : Operator → Bool
  | logicalAnd | logicalOr | logicalXor => true
  | _ => false

/-- Operations on the bits of integers. -/
def isBitwise : Operator → Bool
  | bitwiseAnd | bitwiseOr | bitwiseXor | shl | shr => true
  | _ => false

/-- Arithmetic. -/
def isArithmetic : Operator → Bool
  | plus | minus | star | slash | percent => true
  | _ => false

/-- The operands may be exchanged, whatever their type. -/
def isCommutative : Operator → Bool
  | plus | star | bitwiseAnd | bitwiseOr | bitwiseXor | logicalXor | eqEq | neq => true
  | _ => false

/-- How tightly an operator binds. -/
def precedence : Operator → Precedence
  | star | slash | percent => .multiplicative
  | plus | minus => .additive
  | shl | shr => .shift
  | lt | gt | ltEq | gtEq => .relational
  | eqEq | neq => .equality
  | bitwiseAnd => .bitwiseAnd
  | bitwiseXor => .bitwiseXor
  | bitwiseOr => .bitwiseOr
  | logicalAnd => .logicalAnd
  | logicalXor => .logicalXor
  | logicalOr => .logicalOr
  | comma => .sequence
  | logicalNot | bitwiseNot | plusPlus | minusMinus => .prefixed
  | _ => .assignment

end Operator

end RasterShader
