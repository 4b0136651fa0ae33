import Mathlib
import RasterShader.Proofs.Analysis.Exits

/-!
# Executions of statements

`Stmt.Executes` adds to the outcomes of a statement what is done on the way: the simple statements
that are executed, in order.  The outcomes that executions lead to are those of the statement
(`Stmt.reaches_executes`), and what is executed stands in it (`Stmt.mem_nodes_of_executes`).

A loop whose number of rounds is known may be written without masks if no jump leads out of its
body, and a function without a mask for the lanes that have returned if it returns at its end only.
-/

namespace RasterShader

/-- What executions of a part of a program may do: statements one after the other, and the outcome
they lead to. -/
abbrev Executions := List Stmt → Outcome → Prop

namespace Executions

/-- The executions of one part and then another. -/
def Then (first next : Executions) : Executions := fun steps o =>
  o ≠ .ends ∧ first steps o ∨
    ∃ earlier later, steps = earlier ++ later ∧ first earlier .ends ∧ next later o

/-- The executions of a loop in terms of those of its body. -/
inductive Rounds (body : Executions) (tested : Bool) : Executions
  | stop (h : tested = true) : Rounds body tested [] .ends
  | leave {steps : List Stmt} {o o' : Outcome} (round : body steps o)
    (h : o.leavesLoop = some o') : Rounds body tested steps o'
  | again {steps later : List Stmt} {o o' : Outcome} (round : body steps o)
    (h : o.leavesLoop = none) (rest : Rounds body tested later o') :
    Rounds body tested (steps ++ later) o'

/-- The outcomes that executions lead to. -/
def Reaches (executions : Executions) (o : Outcome) : Prop := ∃ steps, executions steps o

theorem reaches_then (first next : Executions) (o : Outcome) :
    (first.Then next).Reaches o ↔ Outcome.Then first.Reaches next.Reaches o := by
  constructor
  · rintro ⟨steps, ⟨ho, h⟩ | ⟨earlier, later, -, h, h'⟩⟩
    · exact .inl ⟨ho, steps, h⟩
    · exact .inr ⟨⟨earlier, h⟩, later, h'⟩
  · rintro (⟨ho, steps, h⟩ | ⟨⟨earlier, h⟩, later, h'⟩)
    · exact ⟨steps, .inl ⟨ho, h⟩⟩
    · exact ⟨earlier ++ later, .inr ⟨earlier, later, rfl, h, h'⟩⟩

theorem reaches_rounds (body : Executions) (tested : Bool) (o : Outcome) :
    (Rounds body tested).Reaches o ↔ RasterShader.Rounds body.Reaches tested o := by
  constructor
  · rintro ⟨steps, h⟩
    induction h with
    | stop h => exact .stop h
    | leave round h => exact .leave ⟨_, round⟩ h
    | again round h _ ih => exact .again ⟨_, round⟩ h ih
  · intro h
    induction h with
    | stop h => exact ⟨[], .stop h⟩
    | leave round h =>
      obtain ⟨steps, round⟩ := round
      exact ⟨steps, .leave round h⟩
    | again round h _ ih =>
      obtain ⟨steps, round⟩ := round
      obtain ⟨later, rest⟩ := ih
      exact ⟨steps ++ later, .again round h rest⟩

/-- Every statement that is executed has the property. -/
def Only (P : Stmt → Prop) (executions : Executions) : Prop :=
  ∀ steps o, executions steps o → ∀ s ∈ steps, P s

variable {P Q : Stmt → Prop} {first next body : Executions}

theorem Only.then (h : first.Only P) (h' : next.Only Q) :
    (first.Then next).Only fun s => P s ∨ Q s := by
  rintro steps o (⟨-, hfirst⟩ | ⟨earlier, later, rfl, hfirst, hnext⟩) s hs
  · exact .inl (h steps o hfirst s hs)
  · obtain hs | hs := List.mem_append.1 hs
    · exact .inl (h earlier _ hfirst s hs)
    · exact .inr (h' later o hnext s hs)

theorem Only.rounds (h : body.Only P) (tested : Bool) : (Rounds body tested).Only P := by
  intro steps o hrounds
  induction hrounds with
  | stop _ => simp
  | leave round _ => exact h _ _ round
  | again round _ _ ih =>
    intro s hs
    obtain hs | hs := List.mem_append.1 hs
    · exact h _ _ round s hs
    · exact ih s hs

/-- An execution that ends with a return has executed a return statement. -/
def ShowsReturns (executions : Executions) : Prop :=
  ∀ steps, executions steps .returns → ∃ s ∈ steps, s.isReturn = true

theorem ShowsReturns.then (h : first.ShowsReturns) (h' : next.ShowsReturns) :
    (first.Then next).ShowsReturns := by
  rintro steps (⟨-, hfirst⟩ | ⟨earlier, later, rfl, -, hnext⟩)
  · exact h steps hfirst
  · obtain ⟨s, hs, hreturn⟩ := h' later hnext
    exact ⟨s, List.mem_append_right _ hs, hreturn⟩

theorem ShowsReturns.rounds (h : body.ShowsReturns) (tested : Bool) :
    (Rounds body tested).ShowsReturns := by
  intro steps hrounds
  generalize ho : Outcome.returns = o at hrounds
  induction hrounds with
  | stop _ => cases ho
  | @leave steps o o' round hleaves =>
    cases o <;> cases hleaves <;> cases ho
    exact h steps round
  | again _ _ _ ih =>
    obtain ⟨s, hs, hreturn⟩ := ih ho
    exact ⟨s, List.mem_append_right _ hs, hreturn⟩

/-- To do three things one after the other is to do two of them and then the third. -/
theorem then_assoc {third : Executions} {steps : List Stmt} {o : Outcome}
    (h : first.Then (next.Then third) steps o) : (first.Then next).Then third steps o := by
  obtain ⟨ho, hfirst⟩ | ⟨earlier, later, rfl, hfirst, h⟩ := h
  · exact .inl ⟨ho, .inl ⟨ho, hfirst⟩⟩
  · obtain ⟨ho, hnext⟩ | ⟨middle, last, rfl, hnext, hthird⟩ := h
    · exact .inl ⟨ho, .inr ⟨earlier, later, rfl, hfirst, hnext⟩⟩
    · refine .inr ⟨earlier ++ middle, last, (List.append_assoc ..).symm, ?_, hthird⟩
      exact .inr ⟨earlier, middle, rfl, hfirst, hnext⟩

end Executions

namespace Stmt

mutual

/-- An execution of a statement: the simple statements that are executed, in order, and what they
lead to.  Tests and the values of switches may turn out any way each time.  What a loop starts with
declares or evaluates something and so comes to its end. -/
def Executes : Stmt → Executions
  | expression span e, steps, o => steps = [expression span e] ∧ o = .ends
  | declare span v value, steps, o => steps = [declare span v value] ∧ o = .ends
  | nop span, steps, o => steps = [nop span] ∧ o = .ends
  | breaks span, steps, o => steps = [breaks span] ∧ o = .breaks
  | continues span, steps, o => steps = [continues span] ∧ o = .continues
  | returns span value, steps, o => steps = [returns span value] ∧ o = .returns
  | discards span, steps, o => steps = [discards span] ∧ o = .discards
  | block _ statements _, steps, o => ExecutesAll statements steps o
  | branch _ _ ifTrue ifFalse, steps, o =>
    ifTrue.Executes steps o ∨ ExecutesOption ifFalse steps o
  | loop _ initializer test _ body _, steps, o =>
    ∃ earlier later, steps = earlier ++ later ∧ ExecutesOption initializer earlier .ends ∧
      Executions.Rounds body.Executes test.isSome later o
  | doWhile _ body _, steps, o =>
    ∃ earlier later o', steps = earlier ++ later ∧ body.Executes earlier o' ∧
      (o'.leavesLoop = some o ∧ later = [] ∨
        o'.leavesLoop = none ∧ Executions.Rounds body.Executes true later o)
  | switch _ _ cases, steps, o =>
    steps = [] ∧ o = .ends ∧ cases.all (·.value.isSome) = true ∨
      ∃ o', ExecutesCases cases steps o' ∧ o'.leavesSwitch = o
termination_by structural s => s

/-- Statements in sequence are executed. -/
def ExecutesAll : List Stmt → Executions
  | [], steps, o => steps = [] ∧ o = .ends
  | s :: rest, steps, o => Executions.Then s.Executes (ExecutesAll rest) steps o
termination_by structural statements => statements

/-- A statement that may be missing is executed. -/
def ExecutesOption : Option Stmt → Executions
  | none, steps, o => steps = [] ∧ o = .ends
  | some s, steps, o => s.Executes steps o
termination_by structural s => s

/-- The cases of a switch are executed from the first of them on. -/
def ExecutesFrom : List (CaseOf Stmt) → Executions
  | [], steps, o => steps = [] ∧ o = .ends
  | ⟨_, _, statements⟩ :: rest, steps, o =>
    Executions.Then (ExecutesAll statements) (ExecutesFrom rest) steps o
termination_by structural cases => cases

/-- The cases of a switch are executed from any of them on. -/
def ExecutesCases : List (CaseOf Stmt) → Executions
  | [], _, _ => False
  | ⟨_, _, statements⟩ :: rest, steps, o =>
    Executions.Then (ExecutesAll statements) (ExecutesFrom rest) steps o ∨
      ExecutesCases rest steps o
termination_by structural cases => cases

end

/-! ## Outcomes of executions -/

mutual

/-- The outcomes of the executions of a statement are those it can run to. -/
theorem reaches_executes : (s : Stmt) → ∀ o, Executions.Reaches s.Executes o ↔ s.Runs o
  | expression .., o | declare .., o | nop _, o | breaks _, o | continues _, o | returns .., o
  | discards _, o => by simp [Executions.Reaches, Executes, Runs]
  | block _ statements _, o => reaches_executesAll statements o
  | branch _ _ ifTrue ifFalse, o => by
    rw [Runs, ← reaches_executes ifTrue o, ← reaches_executesOption ifFalse o]
    exact exists_or
  | loop _ initializer test _ body _, o => by
    have hbody : Executions.Reaches body.Executes = body.Runs :=
      funext fun o => propext (reaches_executes body o)
    rw [Runs, ← reaches_executesOption initializer .ends, ← hbody, ← Executions.reaches_rounds]
    constructor
    · rintro ⟨_, earlier, later, rfl, hinitializer, hrounds⟩
      exact ⟨⟨earlier, hinitializer⟩, later, hrounds⟩
    · rintro ⟨⟨earlier, hinitializer⟩, later, hrounds⟩
      exact ⟨_, earlier, later, rfl, hinitializer, hrounds⟩
  | doWhile _ body _, o => by
    have hbody : Executions.Reaches body.Executes = body.Runs :=
      funext fun o => propext (reaches_executes body o)
    rw [Runs, ← hbody, ← Executions.reaches_rounds]
    constructor
    · rintro ⟨_, earlier, later, o', rfl, hround, ⟨hleaves, -⟩ | ⟨hagain, hrounds⟩⟩
      · exact ⟨o', ⟨earlier, hround⟩, .inl hleaves⟩
      · exact ⟨o', ⟨earlier, hround⟩, .inr ⟨hagain, later, hrounds⟩⟩
    · rintro ⟨o', ⟨earlier, hround⟩, hleaves | ⟨hagain, later, hrounds⟩⟩
      · exact ⟨_, earlier, [], o', rfl, hround, .inl ⟨hleaves, rfl⟩⟩
      · exact ⟨_, earlier, later, o', rfl, hround, .inr ⟨hagain, hrounds⟩⟩
  | switch _ _ cases, o => by
    constructor
    · rintro ⟨steps, ⟨-, rfl, hall⟩ | ⟨o', hcases, rfl⟩⟩
      · exact .inl ⟨rfl, hall⟩
      · exact .inr ⟨o', (reaches_executesCases cases o').1 ⟨steps, hcases⟩, rfl⟩
    · rintro (⟨rfl, hall⟩ | ⟨o', hcases, rfl⟩)
      · exact ⟨[], .inl ⟨rfl, rfl, hall⟩⟩
      · obtain ⟨steps, hsteps⟩ := (reaches_executesCases cases o').2 hcases
        exact ⟨steps, .inr ⟨o', hsteps, rfl⟩⟩
termination_by structural s => s

theorem reaches_executesAll : (statements : List Stmt) → ∀ o,
    Executions.Reaches (ExecutesAll statements) o ↔ RunsAll statements o
  | [], o => by simp [Executions.Reaches, ExecutesAll, RunsAll]
  | s :: rest, o => by
    have hfirst : Executions.Reaches s.Executes = s.Runs :=
      funext fun o => propext (reaches_executes s o)
    have hrest : Executions.Reaches (ExecutesAll rest) = RunsAll rest :=
      funext fun o => propext (reaches_executesAll rest o)
    rw [RunsAll, ← hfirst, ← hrest]
    exact Executions.reaches_then _ _ o
termination_by structural statements => statements

theorem reaches_executesOption : (s : Option Stmt) → ∀ o,
    Executions.Reaches (ExecutesOption s) o ↔ RunsOption s o
  | none, o => by simp [Executions.Reaches, ExecutesOption, RunsOption]
  | some s, o => reaches_executes s o
termination_by structural s => s

theorem reaches_executesFrom : (cases : List (CaseOf Stmt)) → ∀ o,
    Executions.Reaches (ExecutesFrom cases) o ↔ RunsFrom cases o
  | [], o => by simp [Executions.Reaches, ExecutesFrom, RunsFrom]
  | ⟨_, _, statements⟩ :: rest, o => by
    have hfirst : Executions.Reaches (ExecutesAll statements) = RunsAll statements :=
      funext fun o => propext (reaches_executesAll statements o)
    have hrest : Executions.Reaches (ExecutesFrom rest) = RunsFrom rest :=
      funext fun o => propext (reaches_executesFrom rest o)
    rw [RunsFrom, ← hfirst, ← hrest]
    exact Executions.reaches_then _ _ o
termination_by structural cases => cases

theorem reaches_executesCases : (cases : List (CaseOf Stmt)) → ∀ o,
    Executions.Reaches (ExecutesCases cases) o ↔ RunsCases cases o
  | [], o => by simp [Executions.Reaches, ExecutesCases, RunsCases]
  | ⟨_, _, statements⟩ :: rest, o => by
    have hfirst : Executions.Reaches (ExecutesAll statements) = RunsAll statements :=
      funext fun o => propext (reaches_executesAll statements o)
    have hrest : Executions.Reaches (ExecutesFrom rest) = RunsFrom rest :=
      funext fun o => propext (reaches_executesFrom rest o)
    rw [RunsCases, ← hfirst, ← hrest, ← Executions.reaches_then, ← reaches_executesCases rest o]
    exact exists_or
termination_by structural cases => cases

end

/-! ## What is executed -/

mutual

/-- What is executed stands in the statement. -/
theorem mem_nodes_of_executes : (s : Stmt) →
    Executions.Only (.statement · ∈ s.nodes) s.Executes
  | expression .., _, _, ⟨hsteps, _⟩, t, ht | declare .., _, _, ⟨hsteps, _⟩, t, ht
  | nop _, _, _, ⟨hsteps, _⟩, t, ht | breaks _, _, _, ⟨hsteps, _⟩, t, ht
  | continues _, _, _, ⟨hsteps, _⟩, t, ht | returns .., _, _, ⟨hsteps, _⟩, t, ht
  | discards _, _, _, ⟨hsteps, _⟩, t, ht => by
    rw [hsteps, List.mem_singleton] at ht
    simp [ht, nodes]
  | block _ statements _, steps, o, h, t, ht => by
    have hmem := mem_nodes_of_executesAll statements steps o h t ht
    simp [nodes, hmem]
  | branch _ _ ifTrue ifFalse, steps, o, h, t, ht => by
    obtain h | h := h
    · have hmem := mem_nodes_of_executes ifTrue steps o h t ht
      simp [nodes, hmem]
    · have hmem := mem_nodes_of_executesOption ifFalse steps o h t ht
      simp [nodes, hmem]
  | loop _ initializer test _ body _, _, o, ⟨earlier, later, rfl, hinit, hrounds⟩, t, ht => by
    obtain ht | ht := List.mem_append.1 ht
    · have hmem := mem_nodes_of_executesOption initializer earlier _ hinit t ht
      simp [nodes, hmem]
    · have hmem := (mem_nodes_of_executes body).rounds _ later o hrounds t ht
      simp [nodes, hmem]
  | doWhile _ body _, _, o, ⟨earlier, later, o', rfl, hround, h⟩, t, ht => by
    have hmem : .statement t ∈ body.nodes := by
      obtain ht | ht := List.mem_append.1 ht
      · exact mem_nodes_of_executes body earlier o' hround t ht
      · obtain ⟨-, rfl⟩ | ⟨-, hrounds⟩ := h
        · cases ht
        · exact (mem_nodes_of_executes body).rounds _ later o hrounds t ht
    simp [nodes, hmem]
  | switch _ _ cases, steps, o, h, t, ht => by
    obtain ⟨rfl, -⟩ | ⟨o', h, -⟩ := h
    · cases ht
    · have hmem := mem_nodes_of_executesCases cases steps o' h t ht
      simp [nodes, hmem]
termination_by structural s => s

theorem mem_nodes_of_executesAll : (statements : List Stmt) →
    Executions.Only (.statement · ∈ nodesOfAll statements) (ExecutesAll statements)
  | [], _, _, ⟨hsteps, _⟩, t, ht => by simp [hsteps] at ht
  | s :: rest, steps, o, h, t, ht => by
    have hmem := (mem_nodes_of_executes s).then (mem_nodes_of_executesAll rest) steps o h t ht
    simpa [nodesOfAll] using hmem
termination_by structural statements => statements

theorem mem_nodes_of_executesOption : (s : Option Stmt) →
    Executions.Only (.statement · ∈ nodesOfOption s) (ExecutesOption s)
  | none, _, _, ⟨hsteps, _⟩, t, ht => by simp [hsteps] at ht
  | some s, steps, o, h, t, ht => mem_nodes_of_executes s steps o h t ht
termination_by structural s => s

theorem mem_nodes_of_executesFrom : (cases : List (CaseOf Stmt)) →
    Executions.Only (.statement · ∈ nodesOfCases cases) (ExecutesFrom cases)
  | [], _, _, ⟨hsteps, _⟩, t, ht => by simp [hsteps] at ht
  | ⟨_, _, statements⟩ :: rest, steps, o, h, t, ht => by
    have hmem :=
      (mem_nodes_of_executesAll statements).then (mem_nodes_of_executesFrom rest) steps o h t ht
    simpa [nodesOfCases] using hmem
termination_by structural cases => cases

theorem mem_nodes_of_executesCases : (cases : List (CaseOf Stmt)) →
    Executions.Only (.statement · ∈ nodesOfCases cases) (ExecutesCases cases)
  | [], _, _, h, _, _ => h.elim
  | ⟨_, _, statements⟩ :: rest, steps, o, h, t, ht => by
    obtain h | h := h
    · have hmem :=
        (mem_nodes_of_executesAll statements).then (mem_nodes_of_executesFrom rest) steps o h t ht
      simpa [nodesOfCases] using hmem
    · have hmem := mem_nodes_of_executesCases rest steps o h t ht
      simp [nodesOfCases, hmem]
termination_by structural cases => cases

end

mutual

/-- An execution of a statement that ends with a return has executed a return statement. -/
theorem showsReturns_executes : (s : Stmt) → Executions.ShowsReturns s.Executes
  | expression .., _, ⟨_, ho⟩ | declare .., _, ⟨_, ho⟩ | nop _, _, ⟨_, ho⟩ | breaks _, _, ⟨_, ho⟩
  | continues _, _, ⟨_, ho⟩ | discards _, _, ⟨_, ho⟩ => by cases ho
  | returns span value, _, ⟨hsteps, _⟩ => ⟨returns span value, by simp [hsteps], rfl⟩
  | block _ statements _, steps, h => showsReturns_executesAll statements steps h
  | branch _ _ ifTrue ifFalse, steps, h => by
    obtain h | h := h
    · exact showsReturns_executes ifTrue steps h
    · exact showsReturns_executesOption ifFalse steps h
  | loop _ initializer test _ body _, _, ⟨earlier, later, hsteps, _, hrounds⟩ => by
    obtain ⟨s, hs, hreturn⟩ := (showsReturns_executes body).rounds _ later hrounds
    exact ⟨s, hsteps ▸ List.mem_append_right _ hs, hreturn⟩
  | doWhile _ body _, _, ⟨earlier, later, o', hsteps, hround, h⟩ => by
    obtain ⟨hleaves, -⟩ | ⟨-, hrounds⟩ := h
    · cases o' <;> cases hleaves
      obtain ⟨s, hs, hreturn⟩ := showsReturns_executes body earlier hround
      exact ⟨s, hsteps ▸ List.mem_append_left _ hs, hreturn⟩
    · obtain ⟨s, hs, hreturn⟩ := (showsReturns_executes body).rounds _ later hrounds
      exact ⟨s, hsteps ▸ List.mem_append_right _ hs, hreturn⟩
  | switch _ _ cases, steps, h => by
    obtain ⟨-, ho, -⟩ | ⟨o', h, hleaves⟩ := h
    · cases ho
    · cases o' <;> cases hleaves
      exact showsReturns_executesCases cases steps h
termination_by structural s => s

theorem showsReturns_executesAll : (statements : List Stmt) →
    Executions.ShowsReturns (ExecutesAll statements)
  | [], _, ⟨_, ho⟩ => by cases ho
  | s :: rest, steps, h =>
    (showsReturns_executes s).then (showsReturns_executesAll rest) steps h
termination_by structural statements => statements

theorem showsReturns_executesOption : (s : Option Stmt) →
    Executions.ShowsReturns (ExecutesOption s)
  | none, _, ⟨_, ho⟩ => by cases ho
  | some s, steps, h => showsReturns_executes s steps h
termination_by structural s => s

theorem showsReturns_executesFrom : (cases : List (CaseOf Stmt)) →
    Executions.ShowsReturns (ExecutesFrom cases)
  | [], _, ⟨_, ho⟩ => by cases ho
  | ⟨_, _, statements⟩ :: rest, steps, h =>
    (showsReturns_executesAll statements).then (showsReturns_executesFrom rest) steps h
termination_by structural cases => cases

theorem showsReturns_executesCases : (cases : List (CaseOf Stmt)) →
    Executions.ShowsReturns (ExecutesCases cases)
  | [], _, h => h.elim
  | ⟨_, _, statements⟩ :: rest, steps, h => by
    obtain h | h := h
    · exact (showsReturns_executesAll statements).then (showsReturns_executesFrom rest) steps h
    · exact showsReturns_executesCases rest steps h
termination_by structural cases => cases

end

/-- Statements of which some follow others are executed one after the other. -/
theorem executesAll_append (before : List Stmt) {after steps : List Stmt} {o : Outcome}
    (h : ExecutesAll (before ++ after) steps o) :
    Executions.Then (ExecutesAll before) (ExecutesAll after) steps o := by
  induction before generalizing steps o with
  | nil => exact .inr ⟨[], steps, rfl, ⟨rfl, rfl⟩, h⟩
  | cons s before ih =>
    refine Executions.then_assoc (h.imp_right ?_)
    rintro ⟨earlier, later, hsteps, hfirst, hrest⟩
    exact ⟨earlier, later, hsteps, hfirst, ih hrest⟩

/-! ## Early returns -/

/-- Number of return statements among nodes. -/
def returnsAmong (nodes : List Node) : Nat :=
  nodes.countP fun
    | .statement t => t.isReturn
    | .expression _ => false

theorem mem_nodes_self (s : Stmt) : .statement s ∈ s.nodes := by
  cases s <;> simp [nodes]

theorem returnsAmong_nodesOfAll_append (before : List Stmt) (last : Stmt) :
    returnsAmong (nodesOfAll (before ++ [last])) =
      returnsAmong (nodesOfAll before) + returnsAmong last.nodes := by
  have hnodes : nodesOfAll (before ++ [last]) = nodesOfAll before ++ last.nodes := by
    induction before with
    | nil => simp [nodesOfAll]
    | cons s before ih => simp only [List.cons_append, nodesOfAll, ih, List.append_assoc]
  rw [hnodes]
  exact List.countP_append

theorem isReturn_eq_false_of_mem {nodes : List Node} (h : returnsAmong nodes = 0) {s : Stmt}
    (hs : .statement s ∈ nodes) : s.isReturn = false :=
  Bool.eq_false_iff.2 (List.countP_eq_zero.1 h (.statement s) hs)

/-- The execution of a body has one return, which is the last statement executed and the last one
of the body.  Everything before it has been executed to its end. -/
def ReturnsAtEnd (body : Stmt) (steps : List Stmt) : Prop :=
  ∃ earlier last, steps = earlier ++ [last] ∧ last.isReturn = true ∧
    (∀ s ∈ earlier, s.isReturn = false) ∧
    (body = last ∧ earlier = [] ∨
      ∃ span before opensScope, body = .block span (before ++ [last]) opensScope ∧
        ExecutesAll before earlier .ends)

theorem executes_of_isReturn {s : Stmt} (hs : s.isReturn = true) {steps : List Stmt} {o : Outcome}
    (h : s.Executes steps o) : steps = [s] ∧ o = .returns := by
  cases s with
  | returns span value => exact h
  | _ => cases hs

/-- A block whose only return is its last statement returns there. -/
theorem returnsAtEnd_block {span : Span} {before : List Stmt} {last : Stmt} {opensScope : Bool}
    (hlast : last.isReturn = true) (hbefore : returnsAmong (nodesOfAll before) = 0)
    {steps : List Stmt} {o : Outcome} (hexec : ExecutesAll (before ++ [last]) steps o)
    (hreturn : ∃ s ∈ steps, s.isReturn = true) :
    o = .returns ∧ (block span (before ++ [last]) opensScope).ReturnsAtEnd steps := by
  have hnone {earlier : List Stmt} {o : Outcome} (h : ExecutesAll before earlier o) :
      ∀ s ∈ earlier, s.isReturn = false := fun s hs =>
    isReturn_eq_false_of_mem hbefore (mem_nodes_of_executesAll before earlier o h s hs)
  obtain ⟨-, hexec⟩ | ⟨earlier, later, rfl, hearlier, hlater⟩ := executesAll_append before hexec
  · obtain ⟨s, hs, hreturn⟩ := hreturn
    simp [hnone hexec s hs] at hreturn
  · obtain ⟨-, hlater⟩ | ⟨_, _, -, hends, -⟩ := hlater
    · obtain ⟨rfl, rfl⟩ := executes_of_isReturn hlast hlater
      exact ⟨rfl, earlier, last, rfl, hlast, hnone hearlier,
        .inr ⟨span, before, opensScope, rfl, hearlier⟩⟩
    · cases (executes_of_isReturn hlast hends).2

/-- A function without an early return returns, if at all, at its end. -/
theorem returnsAtEnd_of_not_hasEarlyReturn {body : Stmt} (h : body.hasEarlyReturn = false)
    {steps : List Stmt} {o : Outcome} (hexec : body.Executes steps o)
    (hreturn : ∃ s ∈ steps, s.isReturn = true) : o = .returns ∧ body.ReturnsAtEnd steps := by
  have hcount : body.returnCount ≠ 0 := by
    intro hzero
    obtain ⟨s, hs, hreturn⟩ := hreturn
    have hmem := mem_nodes_of_executes body steps o hexec s hs
    simp [isReturn_eq_false_of_mem hzero hmem] at hreturn
  simp only [hasEarlyReturn, bne_iff_ne.2 hcount, Bool.true_and, Bool.not_eq_false',
    Bool.and_eq_true, beq_iff_eq] at h
  obtain ⟨hone, hends⟩ := h
  by_cases hbody : body.isReturn = true
  · obtain ⟨rfl, rfl⟩ := executes_of_isReturn hbody hexec
    exact ⟨rfl, [], body, rfl, hbody, by simp, .inl ⟨rfl, rfl⟩⟩
  · cases body with
    | block span statements opensScope =>
      simp only [endsWithReturn] at hends
      cases hlast : statements.getLast? with
      | none => simp [hlast] at hends
      | some last =>
        obtain ⟨before, rfl⟩ := List.getLast?_eq_some_iff.1 hlast
        have hlast : last.isReturn = true := by simpa using hends
        have hmany : 0 < returnsAmong last.nodes :=
          List.countP_pos_iff.2 ⟨.statement last, mem_nodes_self last, hlast⟩
        have hsum : returnsAmong (nodesOfAll (before ++ [last])) = 1 := hone
        rw [returnsAmong_nodesOfAll_append] at hsum
        exact returnsAtEnd_block hlast (by omega) hexec hreturn
    | _ => exact absurd hends hbody

end Stmt

end RasterShader
