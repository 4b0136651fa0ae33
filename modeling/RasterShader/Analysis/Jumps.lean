import RasterShader.Ir.Walk

/-!
# How control leaves a statement

`Stmt.jumps` tells which jumps can leave a statement, `Stmt.exit` whether its end can be reached at
all. A loop keeps the `break`s and `continue`s of its body to itself, and a switch its `break`s.
-/

namespace RasterShader

/-- Jumps that leave a statement. -/
structure Jumps where
  hasBreak : Bool
  hasContinue : Bool
  hasReturn : Bool
deriving DecidableEq, Repr, Inhabited

namespace Jumps

/-- No jump. -/
def none : Jumps := ⟨false, false, false⟩

/-- The jumps of either. -/
def union (a b : Jumps) : Jumps :=
  ⟨a.hasBreak || b.hasBreak, a.hasContinue || b.hasContinue, a.hasReturn || b.hasReturn⟩

/-- The jumps that pass through a loop. -/
def outOfLoop (j : Jumps) : Jumps := ⟨false, false, j.hasReturn⟩

/-- The jumps that pass through a switch. -/
def outOfSwitch (j : Jumps) : Jumps := ⟨false, j.hasContinue, j.hasReturn⟩

end Jumps

/-- How control leaves a statement. -/
inductive Exit where
  /-- Every path returns or discards. -/
  | returns
  /-- Some path breaks or continues out of the enclosing construct. -/
  | jumps
  /-- Some path reaches the end of the statement. -/
  | fallsThrough
deriving DecidableEq, Repr, Inhabited

/-- The exit of a branch, by the exits of its two sides. -/
def Exit.either : Exit → Exit → Exit
  | .returns, .returns => .returns
  | .fallsThrough, _ | _, .fallsThrough => .fallsThrough
  | _, _ => .jumps

namespace Stmt

mutual

/-- The jumps that can leave the statement. -/
def jumps : Stmt → Jumps
  | breaks _ => { Jumps.none with hasBreak := true }
  | continues _ => { Jumps.none with hasContinue := true }
  | returns _ _ => { Jumps.none with hasReturn := true }
  | block _ statements _ => jumpsOfAll statements
  | branch _ _ ifTrue ifFalse => ifTrue.jumps.union (jumpsOfOption ifFalse)
  | loop _ initializer _ _ body _ => ((jumpsOfOption initializer).union body.jumps).outOfLoop
  | doWhile _ body _ => body.jumps.outOfLoop
  | switch _ _ cases => (jumpsOfCases cases).outOfSwitch
  | expression .. | declare .. | discards _ | nop _ => .none

/-- The jumps that can leave one of the statements. -/
def jumpsOfAll : List Stmt → Jumps
  | [] => .none
  | s :: rest => s.jumps.union (jumpsOfAll rest)

/-- The jumps that can leave a statement that may be missing. -/
def jumpsOfOption : Option Stmt → Jumps
  | none => .none
  | some s => s.jumps

/-- The jumps that can leave one of the cases. -/
def jumpsOfCases : List (CaseOf Stmt) → Jumps
  | [] => .none
  | ⟨_, _, statements⟩ :: rest => (jumpsOfAll statements).union (jumpsOfCases rest)

end

mutual

/-- How control leaves the statement. A loop without a test ends only by a jump out of its body,
and a switch without a default case can always be passed over. -/
def exit : Stmt → Exit
  | returns .. | discards _ => .returns
  | breaks _ | continues _ => .jumps
  | block _ statements _ => exitOfAll .fallsThrough statements
  | branch _ _ ifTrue (some ifFalse) => ifTrue.exit.either ifFalse.exit
  | branch _ _ _ none => .fallsThrough
  | loop _ _ none _ body _ => if body.jumps.hasBreak then .fallsThrough else .returns
  | doWhile _ body _ =>
    if body.exit == .returns && !body.jumps.hasBreak then .returns else .fallsThrough
  | switch _ _ cases =>
    if cases.all (·.value.isSome) then .fallsThrough
    else if (exitsOfCases cases).all (· == .returns) then .returns
    else .fallsThrough
  | expression .. | declare .. | loop .. | nop _ => .fallsThrough

/-- How control leaves statements in sequence, when reaching their end amounts to `atEnd`. -/
def exitOfAll (atEnd : Exit) : List Stmt → Exit
  | [] => atEnd
  | s :: rest =>
    match s.exit with
    | .fallsThrough => exitOfAll atEnd rest
    | exit => exit

/-- How control leaves each case when entered there. A case that reaches its end goes on with the
next one, and a `break` in it leads past the switch. -/
def exitsOfCases : List (CaseOf Stmt) → List Exit
  | [] => []
  | ⟨_, _, statements⟩ :: rest =>
    let after := exitsOfCases rest
    match exitOfAll (after.head?.getD .fallsThrough) statements with
    | .jumps => .fallsThrough :: after
    | exit => exit :: after

end

/-- Control can reach the end of a function with this body. -/
def canExitWithoutReturning (body : Stmt) : Bool := body.exit != .returns

/-- A return statement. -/
def isReturn : Stmt → Bool
  | returns .. => true
  | _ => false

/-- Number of return statements anywhere in the statement. -/
def returnCount (s : Stmt) : Nat :=
  s.nodes.countP fun
    | .statement t => t.isReturn
    | .expression _ => false

/-- The body of a function is, or ends with, a return statement. -/
def endsWithReturn : Stmt → Bool
  | block _ statements _ => (statements.getLast?.map isReturn).getD false
  | s => s.isReturn

/-- A function with this body returns anywhere other than as its final statement. -/
def hasEarlyReturn (body : Stmt) : Bool :=
  body.returnCount != 0 && !(body.returnCount == 1 && body.endsWithReturn)

end Stmt

end RasterShader
