import Mathlib
import RasterShader.Program

/-!
# Runs of statements, and how they end

`Stmt.Runs` says which outcomes a statement can run to when every test and every value that a
switch is on may turn out any way each time.  It is decidable, since a loop runs to what its first
round runs to (`Rounds.iff_first`).

`Stmt.exit` sums a statement up by one of three exits and forgets a jump beside a path that goes on.
A `break` that is forgotten in this way leaves a switch, and a `continue` leads to the test of a
`do` loop, so that control reaches the end of a function that passes for one that always returns
(`hidden_jump_reaches_end`).  Where no such jump is hidden (`Stmt.hidesJump`), the exit is right: a
body that cannot be left without returning returns or discards on every run
(`Stmt.returns_unless_jump_hidden`).
-/

namespace RasterShader

/-- What a run of a statement comes to. -/
inductive Outcome where
  /-- The end of the statement is reached. -/
  | ends
  | breaks
  | continues
  | returns
  | discards
deriving DecidableEq, Repr

instance : Fintype Outcome where
  elems := {.ends, .breaks, .continues, .returns, .discards}
  complete o := by cases o <;> decide

namespace Outcome

/-- What a loop comes to after a round of its body, unless it has another round. -/
def leavesLoop : Outcome → Option Outcome
  | ends | continues => none
  | breaks => some ends
  | returns => some returns
  | discards => some discards

/-- Only a `break` leads from a round of a loop to its end. -/
theorem eq_breaks {o : Outcome} (h : o.leavesLoop = some ends) : o = breaks := by
  cases o <;> first | rfl | cases h

/-- What a switch comes to after its cases. -/
def leavesSwitch : Outcome → Outcome
  | breaks => ends
  | o => o

/-- The outcomes of one part and then another. -/
def Then (first next : Outcome → Prop) (o : Outcome) : Prop :=
  o ≠ ends ∧ first o ∨ first ends ∧ next o

instance {first next : Outcome → Prop} [DecidablePred first] [DecidablePred next] :
    DecidablePred (Then first next) :=
  fun o => inferInstanceAs (Decidable (o ≠ ends ∧ first o ∨ first ends ∧ next o))

end Outcome

/-- The outcomes of a loop in terms of those of its body.  Before a round the loop may end, if it
has a test. -/
inductive Rounds (body : Outcome → Prop) (tested : Bool) : Outcome → Prop
  | stop (h : tested = true) : Rounds body tested .ends
  | leave {o o' : Outcome} (round : body o) (h : o.leavesLoop = some o') : Rounds body tested o'
  | again {o o' : Outcome} (round : body o) (h : o.leavesLoop = none)
    (rest : Rounds body tested o') : Rounds body tested o'

/-- Further rounds of a loop bring nothing new. -/
theorem Rounds.iff_first {body : Outcome → Prop} {tested : Bool} {o : Outcome} :
    Rounds body tested o ↔
      tested = true ∧ o = .ends ∨ ∃ o', body o' ∧ o'.leavesLoop = some o := by
  constructor
  · intro h
    induction h with
    | stop h => exact .inl ⟨h, rfl⟩
    | leave round h => exact .inr ⟨_, round, h⟩
    | again _ _ _ ih => exact ih
  · rintro (⟨h, rfl⟩ | ⟨o', round, h⟩)
    · exact .stop h
    · exact .leave round h

instance {body : Outcome → Prop} [DecidablePred body] {tested : Bool} :
    DecidablePred (Rounds body tested) :=
  fun _ => decidable_of_iff _ Rounds.iff_first.symm

namespace Stmt

mutual

/-- The statement can run to an outcome, when tests and the values of switches may turn out any way
each time.  What a loop starts with declares or evaluates something and so comes to its end. -/
def Runs : Stmt → Outcome → Prop
  | expression .., o | declare .., o | nop _, o => o = .ends
  | breaks _, o => o = .breaks
  | continues _, o => o = .continues
  | returns .., o => o = .returns
  | discards _, o => o = .discards
  | block _ statements _, o => RunsAll statements o
  | branch _ _ ifTrue ifFalse, o => ifTrue.Runs o ∨ RunsOption ifFalse o
  | loop _ initializer test _ body _, o =>
    RunsOption initializer .ends ∧ Rounds body.Runs test.isSome o
  | doWhile _ body _, o =>
    ∃ o', body.Runs o' ∧
      (o'.leavesLoop = some o ∨ o'.leavesLoop = none ∧ Rounds body.Runs true o)
  | switch _ _ cases, o =>
    o = .ends ∧ cases.all (·.value.isSome) = true ∨ ∃ o', RunsCases cases o' ∧ o'.leavesSwitch = o

/-- Statements in sequence can run to an outcome. -/
def RunsAll : List Stmt → Outcome → Prop
  | [], o => o = .ends
  | s :: rest, o => Outcome.Then s.Runs (RunsAll rest) o

/-- A statement that may be missing can run to an outcome. -/
def RunsOption : Option Stmt → Outcome → Prop
  | none, o => o = .ends
  | some s, o => s.Runs o

/-- The cases of a switch can run to an outcome when entered at the first of them. A case that
reaches its end goes on with the next one. -/
def RunsFrom : List (CaseOf Stmt) → Outcome → Prop
  | [], o => o = .ends
  | ⟨_, _, statements⟩ :: rest, o => Outcome.Then (RunsAll statements) (RunsFrom rest) o

/-- The cases of a switch can run to an outcome when entered at any of them. -/
def RunsCases : List (CaseOf Stmt) → Outcome → Prop
  | [], _ => False
  | ⟨_, _, statements⟩ :: rest, o =>
    Outcome.Then (RunsAll statements) (RunsFrom rest) o ∨ RunsCases rest o

end

/-! ## Deciding runs -/

mutual

/-- Whether a statement can run to an outcome. -/
@[reducible] def decideRuns : (s : Stmt) → DecidablePred s.Runs
  | expression .., o | declare .., o | nop _, o => inferInstanceAs (Decidable (o = .ends))
  | breaks _, o => inferInstanceAs (Decidable (o = .breaks))
  | continues _, o => inferInstanceAs (Decidable (o = .continues))
  | returns .., o => inferInstanceAs (Decidable (o = .returns))
  | discards _, o => inferInstanceAs (Decidable (o = .discards))
  | block _ statements _, o => decideRunsAll statements o
  | branch _ _ ifTrue ifFalse, o =>
    have := decideRuns ifTrue
    have := decideRunsOption ifFalse
    inferInstanceAs (Decidable (ifTrue.Runs o ∨ RunsOption ifFalse o))
  | loop _ initializer test _ body _, o =>
    have := decideRuns body
    have := decideRunsOption initializer
    inferInstanceAs (Decidable (RunsOption initializer .ends ∧ Rounds body.Runs test.isSome o))
  | doWhile _ body _, o =>
    have := decideRuns body
    inferInstanceAs (Decidable (∃ o', body.Runs o' ∧
      (o'.leavesLoop = some o ∨ o'.leavesLoop = none ∧ Rounds body.Runs true o)))
  | switch _ _ cases, o =>
    have := decideRunsCases cases
    inferInstanceAs (Decidable (o = .ends ∧ cases.all (·.value.isSome) = true ∨
      ∃ o', RunsCases cases o' ∧ o'.leavesSwitch = o))

/-- Whether statements in sequence can run to an outcome. -/
@[reducible] def decideRunsAll : (statements : List Stmt) → DecidablePred (RunsAll statements)
  | [], o => inferInstanceAs (Decidable (o = .ends))
  | s :: rest, o =>
    have := decideRuns s
    have := decideRunsAll rest
    inferInstanceAs (Decidable (Outcome.Then s.Runs (RunsAll rest) o))

/-- Whether a statement that may be missing can run to an outcome. -/
@[reducible] def decideRunsOption : (s : Option Stmt) → DecidablePred (RunsOption s)
  | none, o => inferInstanceAs (Decidable (o = .ends))
  | some s, o => decideRuns s o

/-- Whether cases can run to an outcome when entered at the first. -/
@[reducible] def decideRunsFrom : (cases : List (CaseOf Stmt)) → DecidablePred (RunsFrom cases)
  | [], o => inferInstanceAs (Decidable (o = .ends))
  | ⟨_, _, statements⟩ :: rest, o =>
    have := decideRunsAll statements
    have := decideRunsFrom rest
    inferInstanceAs (Decidable (Outcome.Then (RunsAll statements) (RunsFrom rest) o))

/-- Whether cases can run to an outcome when entered at any of them. -/
@[reducible] def decideRunsCases : (cases : List (CaseOf Stmt)) → DecidablePred (RunsCases cases)
  | [], _ => inferInstanceAs (Decidable False)
  | ⟨_, _, statements⟩ :: rest, o =>
    have := decideRunsAll statements
    have := decideRunsFrom rest
    have := decideRunsCases rest
    inferInstanceAs (Decidable
      (Outcome.Then (RunsAll statements) (RunsFrom rest) o ∨ RunsCases rest o))

end

instance (s : Stmt) : DecidablePred s.Runs := decideRuns s

end Stmt

/-! ## Jumps are found -/

/-- A run may come to an outcome as far as the jumps are concerned. -/
def Jumps.has (j : Jumps) : Outcome → Bool
  | .breaks => j.hasBreak
  | .continues => j.hasContinue
  | .returns => j.hasReturn
  | .ends | .discards => true

theorem Jumps.has_union (a b : Jumps) (o : Outcome) :
    (a.union b).has o = (a.has o || b.has o) := by
  cases o <;> rfl

theorem Jumps.has_outOfLoop {j : Jumps} {o o' : Outcome} (h : j.has o = true)
    (hleaves : o.leavesLoop = some o') : j.outOfLoop.has o' = true := by
  cases o <;> cases hleaves <;> first | rfl | exact h

theorem Jumps.has_outOfSwitch {j : Jumps} {o : Outcome} (h : j.has o = true) :
    j.outOfSwitch.has o.leavesSwitch = true := by
  cases o <;> first | rfl | exact h

namespace Stmt

/-- What a loop comes to is the end, or a jump out of its body. -/
theorem has_of_rounds {body : Outcome → Prop} {tested : Bool} {j : Jumps} {o : Outcome}
    (hbody : ∀ o, body o → j.has o = true) (h : Rounds body tested o) :
    j.outOfLoop.has o = true := by
  obtain ⟨-, rfl⟩ | ⟨o', round, hleaves⟩ := Rounds.iff_first.1 h
  · rfl
  · exact Jumps.has_outOfLoop (hbody o' round) hleaves

theorem has_of_then {first next : Outcome → Prop} {a b : Jumps} {o : Outcome}
    (hfirst : ∀ o, first o → a.has o = true) (hnext : ∀ o, next o → b.has o = true)
    (h : Outcome.Then first next o) : (a.union b).has o = true := by
  rw [Jumps.has_union, Bool.or_eq_true]
  obtain ⟨-, h⟩ | ⟨-, h⟩ := h
  · exact .inl (hfirst o h)
  · exact .inr (hnext o h)

mutual

/-- A jump that a statement can run to is among its jumps. -/
theorem has_of_runs : (s : Stmt) → ∀ o, s.Runs o → s.jumps.has o = true
  | expression .., _, h | declare .., _, h | nop _, _, h | breaks _, _, h | continues _, _, h
  | returns .., _, h | discards _, _, h => by
    cases h
    rfl
  | block _ statements _, o, h => has_of_runsAll statements o h
  | branch _ _ ifTrue ifFalse, o, h => by
    rw [jumps, Jumps.has_union, Bool.or_eq_true]
    exact h.imp (has_of_runs ifTrue o) (has_of_runsOption ifFalse o)
  | loop _ initializer test _ body _, o, h => by
    have hbody := has_of_rounds (j := (jumpsOfOption initializer).union body.jumps)
      (fun o' ho' => by simp [Jumps.has_union, has_of_runs body o' ho']) h.2
    exact hbody
  | doWhile _ body _, o, ⟨o', hbody, h⟩ => by
    obtain h | ⟨-, h⟩ := h
    · exact Jumps.has_outOfLoop (has_of_runs body o' hbody) h
    · exact has_of_rounds (has_of_runs body) h
  | switch _ _ cases, o, h => by
    obtain ⟨rfl, -⟩ | ⟨o', h, rfl⟩ := h
    · rfl
    · exact Jumps.has_outOfSwitch (has_of_runsCases cases o' h)

theorem has_of_runsAll : (statements : List Stmt) → ∀ o, RunsAll statements o →
    (jumpsOfAll statements).has o = true
  | [], _, h => by
    cases h
    rfl
  | s :: rest, _, h => has_of_then (has_of_runs s) (has_of_runsAll rest) h

theorem has_of_runsOption : (s : Option Stmt) → ∀ o, RunsOption s o →
    (jumpsOfOption s).has o = true
  | none, _, h => by
    cases h
    rfl
  | some s, o, h => has_of_runs s o h

theorem has_of_runsFrom : (cases : List (CaseOf Stmt)) → ∀ o, RunsFrom cases o →
    (jumpsOfCases cases).has o = true
  | [], _, h => by
    cases h
    rfl
  | ⟨_, _, statements⟩ :: rest, _, h =>
    has_of_then (has_of_runsAll statements) (has_of_runsFrom rest) h

theorem has_of_runsCases : (cases : List (CaseOf Stmt)) → ∀ o, RunsCases cases o →
    (jumpsOfCases cases).has o = true
  | [], _, h => h.elim
  | ⟨_, _, statements⟩ :: rest, o, h => by
    obtain h | h := h
    · exact has_of_then (has_of_runsAll statements) (has_of_runsFrom rest) h
    · rw [jumpsOfCases, Jumps.has_union, has_of_runsCases rest o h, Bool.or_true]

end

end Stmt

/-! ## Exits -/

theorem Exit.either_fallsThrough (e : Exit) : e.either .fallsThrough = .fallsThrough := by
  cases e <;> rfl

/-- The statement passes for one that always returns, and a jump in it leads to its end all the
same: a `break` in a case of a switch, or a `continue` in the body of a `do` loop. -/
def Node.hidesJump : Node → Bool
  | .statement (.doWhile span body test) =>
    (Stmt.doWhile span body test).exit == .returns && body.jumps.hasContinue
  | .statement (.switch span value cases) =>
    (Stmt.switch span value cases).exit == .returns && (Stmt.jumpsOfCases cases).hasBreak
  | _ => false

namespace Stmt

mutual

/-- A statement whose end can be reached has that exit, where no jump is hidden. -/
theorem exit_of_runs_ends : (s : Stmt) → s.nodes.any Node.hidesJump = false → s.Runs .ends →
    s.exit = .fallsThrough
  | expression .., _, _ | declare .., _, _ | nop _, _, _ => rfl
  | breaks _, _, h | continues _, _, h | returns .., _, h | discards _, _, h => by cases h
  | block _ statements _, plain, h => by
    simp only [nodes, List.any_cons, Bool.or_eq_false_iff] at plain
    exact exitOfAll_of_runs_ends statements plain.2 h .fallsThrough
  | branch _ _ ifTrue none, _, _ => rfl
  | branch _ _ ifTrue (some ifFalse), plain, h => by
    simp only [nodes, nodesOfOption, List.any_cons, List.any_append, Bool.or_eq_false_iff] at plain
    obtain h | h := h
    · rw [exit, exit_of_runs_ends ifTrue plain.2.1.2 h, Exit.either]
    · rw [exit, exit_of_runs_ends ifFalse plain.2.2 h, Exit.either_fallsThrough]
  | loop _ _ (some _) _ _ _, _, _ => rfl
  | loop _ _ none _ body _, _, h => by
    obtain ⟨htested, -⟩ | ⟨o, round, hleaves⟩ := Rounds.iff_first.1 h.2
    · cases htested
    · obtain rfl := Outcome.eq_breaks hleaves
      exact if_pos (has_of_runs body _ round)
  | doWhile _ body _, plain, ⟨o, hbody, h⟩ => by
    simp only [nodes, List.any_cons, List.any_append, Bool.or_eq_false_iff] at plain
    obtain ⟨hhides, hplain, -⟩ := plain
    by_contra hexit
    have hreturns : (body.exit == .returns && !body.jumps.hasBreak) = true := by
      by_contra hfalse
      exact hexit (by rw [exit, if_neg hfalse])
    simp only [Node.hidesJump, exit, hreturns, if_true] at hhides
    simp only [Bool.and_eq_true, beq_iff_eq, Bool.not_eq_true'] at hreturns
    have hround := has_of_runs body o hbody
    obtain h | ⟨h, -⟩ := h
    · rw [Outcome.eq_breaks h] at hround
      simp [Jumps.has, hreturns.2] at hround
    · cases o with
      | ends => simp [exit_of_runs_ends body hplain hbody] at hreturns
      | continues => simp [show body.jumps.hasContinue = true from hround] at hhides
      | _ => cases h
  | switch _ _ cases, plain, h => by
    simp only [nodes, List.any_cons, List.any_append, Bool.or_eq_false_iff] at plain
    obtain ⟨hhides, -, hplain⟩ := plain
    obtain ⟨-, h⟩ | ⟨o, h, hleaves⟩ := h
    · rw [exit, if_pos h]
    by_contra hexit
    have hdefault : ¬ cases.all (·.value.isSome) = true := by
      intro hall
      exact hexit (by rw [exit, if_pos hall])
    have hreturns : (exitsOfCases cases).all (· == .returns) = true := by
      by_contra hfalse
      exact hexit (by rw [exit, if_neg hdefault, if_neg hfalse])
    simp only [Node.hidesJump, exit, hdefault, hreturns, if_true] at hhides
    cases o with
    | ends =>
      have hmem := mem_exitsOfCases_of_runs_ends cases hplain h
      simpa using List.all_eq_true.1 hreturns _ hmem
    | breaks =>
      have hbreak := has_of_runsCases cases _ h
      simp [show (jumpsOfCases cases).hasBreak = true from hbreak] at hhides
    | _ => cases hleaves

theorem exitOfAll_of_runs_ends : (statements : List Stmt) →
    (nodesOfAll statements).any Node.hidesJump = false → RunsAll statements .ends →
    ∀ atEnd, exitOfAll atEnd statements = atEnd
  | [], _, _, _ => rfl
  | s :: rest, plain, h, atEnd => by
    simp only [nodesOfAll, List.any_append, Bool.or_eq_false_iff] at plain
    obtain ⟨h, -⟩ | ⟨hfirst, hrest⟩ := h
    · exact absurd rfl h
    · rw [exitOfAll, exit_of_runs_ends s plain.1 hfirst]
      exact exitOfAll_of_runs_ends rest plain.2 hrest atEnd

theorem head_exitsOfCases_of_runs_ends : (cases : List (CaseOf Stmt)) →
    (nodesOfCases cases).any Node.hidesJump = false → RunsFrom cases .ends →
    (exitsOfCases cases).head?.getD .fallsThrough = .fallsThrough
  | [], _, _ => rfl
  | ⟨_, _, statements⟩ :: rest, plain, h => by
    simp only [nodesOfCases, List.any_append, Bool.or_eq_false_iff] at plain
    obtain ⟨h, -⟩ | ⟨hfirst, hrest⟩ := h
    · exact absurd rfl h
    · rw [exitsOfCases, exitOfAll_of_runs_ends statements plain.1 hfirst,
        head_exitsOfCases_of_runs_ends rest plain.2 hrest]
      rfl

theorem mem_exitsOfCases_of_runs_ends : (cases : List (CaseOf Stmt)) →
    (nodesOfCases cases).any Node.hidesJump = false → RunsCases cases .ends →
    .fallsThrough ∈ exitsOfCases cases
  | [], _, h => h.elim
  | ⟨_, _, statements⟩ :: rest, plain, h => by
    simp only [nodesOfCases, List.any_append, Bool.or_eq_false_iff] at plain
    obtain (⟨h, -⟩ | ⟨hfirst, hrest⟩) | h := h
    · exact absurd rfl h
    · rw [exitsOfCases, exitOfAll_of_runs_ends statements plain.1 hfirst,
        head_exitsOfCases_of_runs_ends rest plain.2 hrest]
      exact List.mem_cons_self
    · have hmem := mem_exitsOfCases_of_runs_ends rest plain.2 h
      rw [exitsOfCases]
      split <;> exact List.mem_cons_of_mem _ hmem

end

/-- Missing returns are found where no jump is hidden.  If the body of a function cannot be left
without returning, then no run of it reaches its end, and if no jump leads out of it, every run
returns or discards. -/
theorem returns_unless_jump_hidden {body : Stmt} (plain : body.nodes.any Node.hidesJump = false)
    (h : body.canExitWithoutReturning = false) {o : Outcome} (runs : body.Runs o) :
    o ≠ .ends ∧ (body.jumps.hasBreak = false → body.jumps.hasContinue = false →
      o = .returns ∨ o = .discards) := by
  have hreturns : body.exit = .returns := by simpa [canExitWithoutReturning] using h
  have hends : o ≠ .ends := by
    rintro rfl
    rw [exit_of_runs_ends body plain runs] at hreturns
    cases hreturns
  have hjumps := has_of_runs body o runs
  refine ⟨hends, fun hbreak hcontinue => ?_⟩
  cases o with
  | ends => exact absurd rfl hends
  | breaks => simp [Jumps.has, hbreak] at hjumps
  | continues => simp [Jumps.has, hcontinue] at hjumps
  | returns => exact .inl rfl
  | discards => exact .inr rfl

/-- The statements `switch (1) { case 0: default: for (;;) { if (true) discard; else return 1; } }`,
which always leave the function. -/
def returningSwitch : Stmt :=
  let value : Expr := .literal ⟨default, .int⟩ 1
  let body : Stmt := .branch default (.boolean default true) (.discards default)
    (some (.returns default (some value)))
  .block default [.switch default value [⟨default, some 0, []⟩,
    ⟨default, none, [.loop default none none none body none]⟩]] true

theorem returns_unless_jump_hidden_switch :
    returningSwitch.nodes.any Node.hidesJump = false ∧
      returningSwitch.canExitWithoutReturning = false ∧ returningSwitch.Runs .returns ∧
      ∀ o, returningSwitch.Runs o → o = .returns ∨ o = .discards := by
  have plain : returningSwitch.nodes.any Node.hidesJump = false := by decide +kernel
  have hexit : returningSwitch.canExitWithoutReturning = false := by decide +kernel
  refine ⟨plain, hexit, by decide +kernel, fun o runs => ?_⟩
  exact (returns_unless_jump_hidden plain hexit runs).2 (by decide +kernel) (by decide +kernel)

end Stmt

/-- The functions of a source text that do not return nothing: whether their bodies can be left
without returning, and whether they can run to their ends. -/
def Program.exitsOf (source : String) : Option (List (String × Bool × Bool)) :=
  (readOn .root ⟨.fragment, .standard⟩ source).toOption.map fun program =>
    (program.functions.filter (!·.decl.returnType.isVoid)).map fun f =>
      (f.decl.name, f.body.canExitWithoutReturning, f.body.Runs .ends)

/-- A `break` beside a `return` in a switch, and a `continue` beside a `return` in a `do` loop, are
not seen, so that functions are accepted which reach their end without a value. -/
theorem hidden_jump_reaches_end :
    Program.exitsOf ("float f(float x) \x7b switch (int(x)) " ++
      "\x7b default: if (x > 0.5) break; return x; \x7d \x7d void main() \x7b\x7d") =
        some [("f", false, true)] ∧
    Program.exitsOf ("float f(float x) \x7b do \x7b if (x > 0.5) continue; return x; \x7d " ++
      "while (x > 1.0); \x7d void main() \x7b\x7d") = some [("f", false, true)] := by
  decide +kernel

end RasterShader
