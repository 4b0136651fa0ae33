import RasterShader.Ir.Expr

/-!
# Statements

Type-checked statements and their source text. A `while` loop is a loop with neither an
initializer nor a step. A declaration of several variables at once is a block that opens no
scope.
-/

namespace RasterShader

/-- Trip information of a loop with constant bounds and step. -/
structure TripInfo where
  index : Variable
  start : Float
  delta : Float
  /-- How often the body runs. -/
  count : Nat
deriving Inhabited

/-- One case of a switch; the default case has no value and comes last. -/
structure CaseOf (σ : Type) where
  span : Span
  value : Option Int
  statements : List σ
deriving Inhabited

/-- Statements. -/
inductive Stmt where
  | block (span : Span) (statements : List Stmt) (opensScope : Bool)
  | expression (span : Span) (e : Expr)
  | declare (span : Span) (v : Variable) (value : Option Expr)
  | branch (span : Span) (test : Expr) (ifTrue : Stmt) (ifFalse : Option Stmt)
  | loop (span : Span) (initializer : Option Stmt) (test next : Option Expr) (body : Stmt)
      (trips : Option TripInfo)
  | doWhile (span : Span) (body : Stmt) (test : Expr)
  | switch (span : Span) (value : Expr) (cases : List (CaseOf Stmt))
  | breaks (span : Span)
  | continues (span : Span)
  | discards (span : Span)
  | returns (span : Span) (value : Option Expr)
  | nop (span : Span)
deriving Inhabited

/-- Cases of a switch statement. -/
abbrev SwitchCase := CaseOf Stmt

namespace Stmt

/-- Place in the source. -/
def span : Stmt → Span
  | block s .. | expression s _ | declare s .. | branch s .. | loop s .. | doWhile s ..
  | switch s .. | breaks s | continues s | discards s | returns s _ | nop s => s

mutual

/-- The statement does nothing: it is empty, or a block of such. -/
def isEmpty : Stmt → Bool
  | nop _ => true
  | block _ statements _ => allEmpty statements
  | _ => false

/-- All of them do nothing. -/
def allEmpty : List Stmt → Bool
  | [] => true
  | s :: rest => s.isEmpty && allEmpty rest

end

/-- Blocks, scoped or not. -/
def isBlock : Stmt → Bool
  | block .. => true
  | _ => false

/-! ## Text -/

/-- Four blanks per level. -/
def indent (level : Nat) : String := String.ofList (List.replicate (4 * level) ' ')

/-- A type name split before its first bracket, since brackets follow the declared name. -/
def splitArraySuffix (name : String) : String × String :=
  let cs := name.toList
  (String.ofList (cs.takeWhile (· != '[')), String.ofList (cs.dropWhile (· != '[')))

/-- A declaration as source text. -/
def declarationText (v : Variable) (value : Option Expr) : String :=
  let (base, suffix) := splitArraySuffix v.ty.name
  let start := s!"{v.modifiers.text}{base} {v.name}{suffix}"
  match value with
  | some e => start ++ " = " ++ e.text ++ ";"
  | none => start ++ ";"

mutual

/-- The statement as source text at an indentation level. -/
def textAt (level : Nat) : Stmt → String
  | block _ statements opensScope =>
    if !opensScope && 0 < level then String.intercalate "\n" (textsAt level statements)
    else
      let lines := (textsAt (level + 1) statements).map (· ++ "\n")
      indent level ++ "\x7b\n" ++ String.join lines ++ indent level ++ "\x7d"
  | expression _ e => indent level ++ e.text ++ ";"
  | declare _ v value => indent level ++ declarationText v value
  | branch _ test ifTrue ifFalse =>
    indent level ++ "if (" ++ test.text ++ ")\n" ++
      textAt (if ifTrue.isBlock then level else level + 1) ifTrue ++ elseText level ifFalse
  | loop _ initializer test next body _ =>
    let inner := textAt (if body.isBlock then level else level + 1) body
    let forText :=
      indent level ++ "for (" ++ initializerText initializer ++ " " ++
        (test.map Expr.text).getD "" ++ "; " ++ (next.map Expr.text).getD "" ++ ")\n" ++ inner
    match initializer, next, test with
    | none, none, some t => indent level ++ "while (" ++ t.text ++ ")\n" ++ inner
    | _, _, _ => forText
  | doWhile _ body test =>
    indent level ++ "do\n" ++ textAt (if body.isBlock then level else level + 1) body ++ "\n" ++
      indent level ++ "while (" ++ test.text ++ ");"
  | switch _ value cases =>
    indent level ++ "switch (" ++ value.text ++ ") \x7b\n" ++ casesText level cases ++
      indent level ++ "\x7d"
  | breaks _ => indent level ++ "break;"
  | continues _ => indent level ++ "continue;"
  | discards _ => indent level ++ "discard;"
  | returns _ (some e) => indent level ++ "return " ++ e.text ++ ";"
  | returns _ none => indent level ++ "return;"
  | nop _ => indent level ++ ";"

/-- Several statements at one level. -/
def textsAt (level : Nat) : List Stmt → List String
  | [] => []
  | s :: rest => textAt level s :: textsAt level rest

/-- The second half of a branch. -/
def elseText (level : Nat) : Option Stmt → String
  | none => ""
  | some s =>
    "\n" ++ indent level ++ "else\n" ++ textAt (if s.isBlock then level else level + 1) s

/-- The first part of a loop's header. -/
def initializerText : Option Stmt → String
  | none => ";"
  | some s => textAt 0 s

/-- The cases of a switch. -/
def casesText (level : Nat) : List (CaseOf Stmt) → String
  | [] => ""
  | ⟨_, value, statements⟩ :: rest =>
    let label :=
      match value with
      | some v => indent level ++ "    case " ++ toString v ++ ":\n"
      | none => indent level ++ "    default:\n"
    label ++ String.join ((textsAt (level + 2) statements).map (· ++ "\n")) ++
      casesText level rest

end

/-- The statement as source text. -/
def text (s : Stmt) : String := s.textAt 0

end Stmt

end RasterShader
