import Mathlib
import RasterShader.Proofs.Analysis.Executions
import RasterShader.Proofs.Codegen.Statement

/-!
# Where masks are left out

The lanes that have left a loop or a function are kept out by masks.  A loop whose number of rounds
is known is written without a mask if no jump leads out of its body (`Stmt.write_loop`), and a
function without an early return keeps no mask of the lanes that have returned
(`writeFunction_eq_inFrame`).  Executions say that this is right: no lane leaves such a loop in the
middle of a round, and no lane returns from such a function while there is something left to do.
-/

namespace RasterShader

open Gen

namespace Stmt

variable (ctx : CodeContext) (span : Span) (initializer : Option Stmt) (test next : Option Expr)
  (body : Stmt)

/-- The code of a loop around that of its parts. -/
def loopCode (write : GenM Unit → Option (GenM Unit) → GenM Unit → GenM Unit → GenM Unit) :
    GenM Unit := do
  traceLine ctx span
  traceScope ctx 1
  write ((writeOption ctx initializer).getD (pure ())) (test.map fun e => (e.operand ctx).push)
    ((next.map fun e => e.writeDiscarded ctx).getD (pure ())) (body.write ctx)
  traceScope ctx (-1)

/-- A loop is written without masks where the number of its rounds is known and no jump leads out
of its body. -/
theorem write_loop (trips : Option TripInfo) :
    (loop span initializer test next body trips).write ctx =
      match if body.jumps == .none then trips else none with
      | some info => loopCode ctx span initializer test next body (writeCounted info.count)
      | none => loopCode ctx span initializer test next body (writeFor body.jumps) := by
  rw [write]
  dsimp only
  cases if body.jumps == .none then trips else none <;> rfl

end Stmt

/-- Code that is written within the frame of a function, with no jumps leading out of it. -/
def inFrame (frame : Frame) (code : GenM Unit) : GenM Unit := do
  let saved ← get
  modify fun g => { g with frame := some frame, breakTarget := none, continueStack := none }
  code
  modify fun g =>
    { g with
      frame := saved.frame
      breakTarget := saved.breakTarget
      continueStack := saved.continueStack }

/-- A function without an early return keeps no mask of the lanes that have returned, and its
returns do not clear one. -/
theorem writeFunction_eq_inFrame (ctx : CodeContext) (f : FunctionDef) (result : Option SlotRange) :
    writeFunction ctx f result =
      if f.body.hasEarlyReturn then
        inFrame ⟨result, true⟩ do
          build fun b => b.enableMaskWrites.pushMask .returns
          bodyCode ctx f
          build fun b => (b.popMask .returns).disableMaskWrites
      else inFrame ⟨result, false⟩ (bodyCode ctx f) := by
  rw [writeFunction_eq]
  by_cases h : f.body.hasEarlyReturn = true
  · simp only [h, frameCode, if_true, inFrame, bind_assoc]
  · simp only [h, frameCode, inFrame]
    rfl

namespace Stmt

/-- The jumps of a statement are all that executions of it can end with. -/
theorem has_of_executes {s : Stmt} {steps : List Stmt} {o : Outcome} (h : s.Executes steps o) :
    s.jumps.has o = true :=
  has_of_runs s o ((reaches_executes s o).1 ⟨steps, h⟩)

/-- The analyses of jumps are right, and masks are left out only where no lane leaves early.  A
body that discards ends early too, but there is no code for it: writing a discard fails. -/
theorem jump_analyses_sound (body : Stmt) :
    -- what leaves the body of a loop
    (∀ steps o, body.Executes steps o →
      (body.jumps.hasBreak = false → o ≠ .breaks) ∧
      (body.jumps.hasContinue = false → o ≠ .continues) ∧
      (body.jumps.hasReturn = false → o ≠ .returns)) ∧
    -- early returns
    (body.hasEarlyReturn = false → ∀ steps o, body.Executes steps o →
      o = .returns ∨ (∃ s ∈ steps, s.isReturn = true) →
        o = .returns ∧ body.ReturnsAtEnd steps) ∧
    -- loops
    (∀ ctx span initializer test next trips,
      (loop span initializer test next body trips).write ctx =
        loopCode ctx span initializer test next body (writeFor body.jumps) ∨
      ∃ info, trips = some info ∧
        (loop span initializer test next body trips).write ctx =
          loopCode ctx span initializer test next body (writeCounted info.count) ∧
        ∀ steps o, body.Executes steps o → o = .ends ∨ o = .discards) ∧
    -- functions
    (∀ ctx decl result,
      (writeFunction ctx ⟨decl, body⟩ result = inFrame ⟨result, true⟩ do
        build fun b => b.enableMaskWrites.pushMask .returns
        bodyCode ctx ⟨decl, body⟩
        build fun b => (b.popMask .returns).disableMaskWrites) ∨
      writeFunction ctx ⟨decl, body⟩ result = inFrame ⟨result, false⟩ (bodyCode ctx ⟨decl, body⟩) ∧
        ∀ steps o, body.Executes steps o → o = .returns → body.ReturnsAtEnd steps) := by
  have early (h : body.hasEarlyReturn = false) (steps : List Stmt) (o : Outcome)
      (hexec : body.Executes steps o) (hreturn : o = .returns ∨ ∃ s ∈ steps, s.isReturn = true) :
      o = .returns ∧ body.ReturnsAtEnd steps := by
    refine returnsAtEnd_of_not_hasEarlyReturn h hexec (hreturn.elim ?_ id)
    rintro rfl
    exact showsReturns_executes body steps hexec
  refine ⟨fun steps o hexec => ?_, early, fun ctx span initializer test next trips => ?_,
    fun ctx decl result => ?_⟩
  · have hjumps := has_of_executes hexec
    refine ⟨?_, ?_, ?_⟩ <;> rintro hnone rfl <;> simp [Jumps.has, hnone] at hjumps
  · rw [write_loop]
    by_cases hjumps : (body.jumps == .none) = true
    · rw [if_pos hjumps]
      cases trips with
      | none => exact .inl rfl
      | some info =>
        refine .inr ⟨info, rfl, rfl, fun steps o hexec => ?_⟩
        have hhas := has_of_executes hexec
        rw [beq_iff_eq.1 hjumps] at hhas
        cases o with
        | ends => exact .inl rfl
        | discards => exact .inr rfl
        | _ => cases hhas
    · rw [if_neg hjumps]
      exact .inl rfl
  · rw [writeFunction_eq_inFrame]
    by_cases h : body.hasEarlyReturn = true
    · exact .inl (if_pos h)
    · rw [if_neg h]
      exact .inr ⟨rfl, fun steps o hexec ho =>
        (early (Bool.eq_false_iff.2 h) steps o hexec (.inl ho)).2⟩

/-- The body `{ do { break; } while (false); return; }`. -/
def breakThenReturn : Stmt :=
  .block default [.doWhile default (.breaks default) (.boolean default false),
    .returns default none] true

theorem jump_analyses_sound_breakThenReturn :
    let steps : List Stmt := [.breaks default, .returns default none]
    breakThenReturn.jumps = ⟨false, false, true⟩ ∧ breakThenReturn.hasEarlyReturn = false ∧
      breakThenReturn.Executes steps .returns ∧ breakThenReturn.ReturnsAtEnd steps := by
  intro steps
  have hearly : breakThenReturn.hasEarlyReturn = false := by decide +kernel
  have hloop : Executes (.doWhile default (.breaks default) (.boolean default false))
      [.breaks default] .ends :=
    ⟨[.breaks default], [], .breaks, rfl, ⟨rfl, rfl⟩, .inl ⟨rfl, rfl⟩⟩
  have hreturn : ExecutesAll [.returns default none] [.returns default none] .returns :=
    .inl ⟨by decide, rfl, rfl⟩
  have hexec : breakThenReturn.Executes steps .returns := .inr ⟨_, _, rfl, hloop, hreturn⟩
  exact ⟨by decide +kernel, hearly, hexec,
    ((jump_analyses_sound breakThenReturn).2.1 hearly steps .returns hexec (.inl rfl)).2⟩

end Stmt

end RasterShader
