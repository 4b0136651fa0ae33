import Mathlib
import RasterShader.Proofs.Stack.Simulation

/-!
# The flow of control through stages

What matters of a program for the flow of control is a list of pieces (`Flow`): rows of stages that
are entered at their start and left at their end, labels, and branches to labels.  `Flow.Runs` says
where a machine that runs such a list ends up; every branch that is taken goes on after its label.

The stages of a program are numbered, and a branch among them goes to a number.  A row of stages
whose own branches do not leave it (`Contained`) runs within a longer program as it does alone
(`Machine.runFrom_row_within`), so that a program runs as the flow that its stages were laid out
from.

How many stages a run may take does not matter once it has ended (`Machine.runFrom_unique`), and
where a flow ends up is determined if its branches have one label each (`Flow.Runs.unique`).
-/

namespace RasterShader

variable {lanes : Nat}

/-! ## Runs that end -/

namespace Machine

variable {stages : Array Stage} {batch : Batch lanes} {place : Nat} {m : Machine lanes}

/-- What the stage at a place leads to in a program of a given size: the place and the machine to go
on with, or the end of the run. -/
def advance (size : Nat) (batch : Batch lanes) (place : Nat) (m : Machine lanes) :
    Stage → (Nat × Machine lanes) ⊕ (Machine lanes × PipelineError)
  | .branch condition offset =>
    if m.takes batch condition then
      if (place : Int) + offset < 0 ∨ (size : Int) < place + offset then
        .inr (m, .branchOutOfRange place offset)
      else .inl (((place : Int) + offset).toNat, m)
    else .inl (place + 1, m)
  | stage =>
    match m.step batch stage with
    | (m, some e) => .inr (m, e)
    | (m, none) => .inl (place + 1, m)

theorem runFrom_end (h : stages[place]? = none) (fuel : Nat) :
    runFrom stages batch fuel place m = (m, none) := by
  rw [runFrom]
  simp only [h]

theorem runFrom_zero {stage : Stage} (h : stages[place]? = some stage) :
    runFrom stages batch 0 place m = (m, some (.tooManySteps maxSteps)) := by
  rw [runFrom]
  simp only [h]

theorem runFrom_succ {stage : Stage} (h : stages[place]? = some stage) (fuel : Nat) :
    runFrom stages batch (fuel + 1) place m =
      match advance stages.size batch place m stage with
      | .inl (place, m) => runFrom stages batch fuel place m
      | .inr (m, e) => (m, some e) := by
  rw [runFrom]
  simp only [h]
  cases stage with
  | branch condition offset =>
    simp only [advance]
    by_cases htakes : m.takes batch condition = true
    · by_cases hrange : (place : Int) + offset < 0 ∨ (stages.size : Int) < place + offset
      · simp only [htakes, hrange, if_true]
      · simp only [htakes, hrange, if_true, if_false]
    · simp only [htakes, Bool.false_eq_true, if_false]
  | _ =>
    simp only [advance]
    split <;> simp_all

/-- A run has reached its end or an error within the number of stages that it may take. -/
def Ended (result : Machine lanes × Option PipelineError) : Prop :=
  ∀ steps, result.2 ≠ some (.tooManySteps steps)

/-- A run that has ended does not need more steps. -/
theorem runFrom_mono {fuel fuel' : Nat} (h : Ended (runFrom stages batch fuel place m))
    (hle : fuel ≤ fuel') :
    runFrom stages batch fuel' place m = runFrom stages batch fuel place m := by
  induction fuel generalizing fuel' place m with
  | zero =>
    cases hstage : stages[place]? with
    | none => rw [runFrom_end hstage, runFrom_end hstage]
    | some stage =>
      rw [runFrom_zero hstage] at h
      exact absurd rfl (h maxSteps)
  | succ fuel ih =>
    obtain ⟨fuel', rfl⟩ : ∃ k, fuel' = k + 1 := ⟨fuel' - 1, by omega⟩
    cases hstage : stages[place]? with
    | none => rw [runFrom_end hstage, runFrom_end hstage]
    | some stage =>
      rw [runFrom_succ hstage] at h
      rw [runFrom_succ hstage, runFrom_succ hstage]
      cases hadvance : advance stages.size batch place m stage with
      | inl next =>
        rw [hadvance] at h
        exact ih h (by omega)
      | inr result => rfl

/-- A run that has ended and stands before a branch goes on at its target or after it. -/
theorem runFrom_branch {condition : StageCondition} {target fuel : Nat}
    (h : stages[place]? = some (.branch condition (target - place))) (hle : target ≤ stages.size)
    (ended : Ended (runFrom stages batch fuel place m)) :
    ∃ fuel' < fuel, runFrom stages batch fuel place m =
      runFrom stages batch fuel' (if m.takes batch condition then target else place + 1) m := by
  cases fuel with
  | zero =>
    rw [runFrom_zero h] at ended
    exact absurd rfl (ended maxSteps)
  | succ fuel =>
    refine ⟨fuel, Nat.lt_succ_self fuel, ?_⟩
    have hrange : ¬ ((place : Int) + (target - place) < 0 ∨
        (stages.size : Int) < place + (target - place)) := by omega
    have htarget : ((place : Int) + (target - place)).toNat = target := by omega
    rw [runFrom_succ h]
    simp only [advance, hrange, if_false, htarget]
    cases m.takes batch condition <;> rfl

/-- Runs from the same place that have both ended have ended alike. -/
theorem runFrom_unique {fuel fuel' : Nat} (h : Ended (runFrom stages batch fuel place m))
    (h' : Ended (runFrom stages batch fuel' place m)) :
    runFrom stages batch fuel place m = runFrom stages batch fuel' place m := by
  rw [← runFrom_mono h (Nat.le_max_left fuel fuel'),
    ← runFrom_mono h' (Nat.le_max_right fuel fuel')]

end Machine

/-! ## Rows within a program -/

/-- The branches of a row of stages do not lead out of it. -/
def Contained (row : List Stage) : Prop :=
  ∀ (i : Nat) (condition : StageCondition) (offset : Int),
    row[i]? = some (.branch condition offset) → 0 ≤ i + offset ∧ i + offset ≤ row.length

theorem contained_of_straight {row : List Stage} (h : ∀ stage ∈ row, stage.isBranch = false) :
    Contained row := by
  intro i condition offset hi
  have := h _ (List.mem_of_getElem? hi)
  simp [Stage.isBranch] at this

namespace Machine

variable {batch : Batch lanes} {m : Machine lanes}

/-- A row of stages, run by itself from its start, ends with a result. -/
def RowEnds (batch : Batch lanes) (row : List Stage) (m : Machine lanes)
    (result : Machine lanes × Option PipelineError) : Prop :=
  Ended result ∧ ∃ fuel, runFrom row.toArray batch fuel 0 m = result

theorem RowEnds.unique {row : List Stage} {r r' : Machine lanes × Option PipelineError}
    (h : RowEnds batch row m r) (h' : RowEnds batch row m r') : r = r' := by
  obtain ⟨ended, fuel, rfl⟩ := h
  obtain ⟨ended', fuel', rfl⟩ := h'
  exact runFrom_unique ended ended'

/-- A stage of a contained row leads to the same place of the row wherever the row stands. -/
theorem advance_row (batch : Batch lanes) (m : Machine lanes) {row : List Stage}
    (contained : Contained row) {i start size : Nat}
    (hi : i < row.length) (hsize : start + row.length ≤ size) :
    advance size batch (start + i) m row[i] =
        (advance row.length batch i m row[i]).map (fun next => (start + next.1, next.2)) id ∧
      ∀ next, advance row.length batch i m row[i] = .inl next → next.1 ≤ row.length := by
  generalize hstage : row[i] = stage
  have hget : row[i]? = some stage := by rw [List.getElem?_eq_getElem hi, hstage]
  cases stage with
  | branch condition offset =>
    obtain ⟨hlow, hhigh⟩ := contained i condition offset hget
    simp only [advance]
    have hout : ¬ ((i : Int) + offset < 0 ∨ (row.length : Int) < i + offset) := by omega
    have hout' : ¬ (((start + i : Nat) : Int) + offset < 0 ∨
        (size : Int) < ((start + i : Nat) : Int) + offset) := by omega
    by_cases htakes : m.takes batch condition = true
    · simp only [htakes, if_true, hout, hout', if_false]
      refine ⟨?_, ?_⟩
      · simp only [Sum.map_inl, Sum.inl.injEq, Prod.mk.injEq, and_true]
        omega
      · rintro next ⟨⟩
        omega
    · simp only [htakes, Bool.false_eq_true, if_false]
      exact ⟨by simp [Nat.add_assoc], by rintro next ⟨⟩; exact hi⟩
  | _ =>
    simp only [advance]
    split
    · exact ⟨rfl, by simp⟩
    · exact ⟨by simp [Nat.add_assoc], by rintro next ⟨⟩; exact hi⟩

/-- A run of a program that has ended and stands in a contained row either leaves the row at its end
and goes on with no more steps than before, or has ended with an error of the row. -/
theorem runFrom_row_within {stages : Array Stage} {before row after : List Stage}
    (h : stages.toList = before ++ row ++ after) (contained : Contained row) {fuel i : Nat}
    (hi : i ≤ row.length) (ended : Ended (runFrom stages batch fuel (before.length + i) m)) :
    (∃ m' fuel' fuel'', fuel' ≤ fuel ∧ runFrom row.toArray batch fuel'' i m = (m', none) ∧
      runFrom stages batch fuel (before.length + i) m =
        runFrom stages batch fuel' (before ++ row).length m') ∨
    ∃ m' e fuel'', runFrom row.toArray batch fuel'' i m = (m', some e) ∧
      runFrom stages batch fuel (before.length + i) m = (m', some e) := by
  have hsize : before.length + row.length ≤ stages.size := by
    rw [← Array.length_toList, h, List.length_append, List.length_append]
    omega
  have hget {i : Nat} (hlt : i < row.length) : stages[before.length + i]? = some row[i] := by
    rw [← Array.getElem?_toList, h, List.append_assoc,
      List.getElem?_append_right (Nat.le_add_right ..), Nat.add_sub_cancel_left,
      List.getElem?_append_left hlt, List.getElem?_eq_getElem hlt]
  -- the place stays within the row until the row is left at its end
  induction fuel generalizing i m with
  | zero =>
    rcases Nat.lt_or_ge i row.length with hlt | hge
    · have hstage := hget hlt
      rw [runFrom_zero hstage] at ended
      exact absurd rfl (ended maxSteps)
    · obtain rfl : i = row.length := by omega
      exact .inl ⟨m, 0, 0, le_rfl, runFrom_end (by simp) 0, by rw [List.length_append]⟩
  | succ fuel ih =>
    rcases Nat.lt_or_ge i row.length with hlt | hge
    · have hstage := hget hlt
      have hrow : row.toArray[i]? = some row[i] := by simp [hlt]
      obtain ⟨hadvance, hinside⟩ := advance_row batch m contained hlt hsize
      rw [runFrom_succ hstage, hadvance] at ended ⊢
      cases hnext : advance row.length batch i m row[i] with
      | inl next =>
        obtain ⟨j, m₁⟩ := next
        rw [hnext] at ended
        have hstep : ∀ fuel, runFrom row.toArray batch (fuel + 1) i m =
            runFrom row.toArray batch fuel j m₁ := by
          intro fuel
          rw [runFrom_succ hrow, List.size_toArray, hnext]
        rcases ih (hinside _ hnext) ended with
          ⟨m', fuel', fuel'', hle, hrun, hgo⟩ | ⟨m', e, fuel'', hrun, hgo⟩
        · exact .inl ⟨m', fuel', fuel'' + 1, by omega, by rw [hstep, hrun], hgo⟩
        · exact .inr ⟨m', e, fuel'' + 1, by rw [hstep, hrun], hgo⟩
      | inr stop =>
        obtain ⟨m', e⟩ := stop
        refine .inr ⟨m', e, 1, ?_, rfl⟩
        rw [runFrom_succ hrow, List.size_toArray, hnext]
    · obtain rfl : i = row.length := by omega
      exact .inl ⟨m, fuel + 1, 0, le_rfl, runFrom_end (by simp) 0, by rw [List.length_append]⟩

end Machine

/-! ## Pieces -/

/-- What an instruction is to the flow of control. -/
inductive Piece where
  /-- Stages that are entered at their start and left at their end. -/
  | row (stages : List Stage)
  | label (label : Int)
  | branch (condition : StageCondition) (label : Int)

/-- The piece places a label. -/
def Piece.places (label : Int) : Piece → Bool
  | .label l => l == label
  | _ => false

/-- Pieces in order. -/
abbrev Flow := List Piece

namespace Flow

/-- Every label that a branch goes to is placed once. -/
def Placed (flow : Flow) : Prop :=
  ∀ condition label, .branch condition label ∈ flow → flow.countP (·.places label) = 1

/-- A machine that has the pieces `rest` of a flow before it ends with a result.  A branch that is
taken goes on after its label, wherever that is in the whole flow. -/
inductive Runs (batch : Batch lanes) (flow : Flow) :
    (rest : Flow) → Machine lanes → Machine lanes × Option PipelineError → Prop
  | done {m : Machine lanes} : Runs batch flow [] m (m, none)
  | row {stages : List Stage} {rest : Flow} {m m' : Machine lanes}
    {result : Machine lanes × Option PipelineError} (ends : m.RowEnds batch stages (m', none))
    (runs : Runs batch flow rest m' result) : Runs batch flow (.row stages :: rest) m result
  | fault {stages : List Stage} {rest : Flow} {m m' : Machine lanes} {e : PipelineError}
    (ends : m.RowEnds batch stages (m', some e)) :
    Runs batch flow (.row stages :: rest) m (m', some e)
  | label {label : Int} {rest : Flow} {m : Machine lanes}
    {result : Machine lanes × Option PipelineError} (runs : Runs batch flow rest m result) :
    Runs batch flow (.label label :: rest) m result
  | skip {condition : StageCondition} {label : Int} {rest : Flow} {m : Machine lanes}
    {result : Machine lanes × Option PipelineError} (takes : m.takes batch condition = false)
    (runs : Runs batch flow rest m result) :
    Runs batch flow (.branch condition label :: rest) m result
  | take {condition : StageCondition} {label : Int} {before after rest : Flow}
    {m : Machine lanes} {result : Machine lanes × Option PipelineError}
    (takes : m.takes batch condition = true) (placed : flow = before ++ .label label :: after)
    (runs : Runs batch flow after m result) :
    Runs batch flow (.branch condition label :: rest) m result

/-- What follows a label that is placed once is determined. -/
theorem after_label_unique {flow before after before' after' : Flow} {label : Int}
    (once : flow.countP (·.places label) = 1) (h : flow = before ++ .label label :: after)
    (h' : flow = before' ++ .label label :: after') : after = after' := by
  have hlabel : (Piece.label label).places label = true := beq_self_eq_true label
  rw [h, List.countP_append, List.countP_cons_of_pos hlabel] at once
  rw [h] at h'
  rcases List.append_eq_append_iff.1 h' with ⟨middle, rfl, hrest⟩ | ⟨middle, rfl, hrest⟩
  · -- a second label after the first one would be counted too
    rcases middle with _ | ⟨piece, middle⟩
    · exact (List.cons.inj hrest).2
    · have hafter : after = middle ++ .label label :: after' := (List.cons.inj hrest).2
      rw [hafter, List.countP_append, List.countP_cons_of_pos hlabel] at once
      omega
  · rcases middle with _ | ⟨piece, middle⟩
    · exact (List.cons.inj hrest).2.symm
    · obtain ⟨rfl, -⟩ := List.cons.inj hrest
      rw [List.countP_append, List.countP_cons_of_pos hlabel] at once
      omega

/-- Where a flow ends up is determined. -/
theorem Runs.unique {batch : Batch lanes} {flow rest : Flow} {m : Machine lanes}
    {r r' : Machine lanes × Option PipelineError} (placed : flow.Placed)
    (inside : ∀ piece ∈ rest, piece ∈ flow) (h : Runs batch flow rest m r)
    (h' : Runs batch flow rest m r') : r = r' := by
  induction h generalizing r' with
  | done =>
    cases h'
    rfl
  | row ends _ ih =>
    cases h' with
    | row ends' runs' =>
      obtain ⟨rfl, -⟩ := Prod.mk.inj (ends.unique ends')
      exact ih (fun piece hp => inside piece (List.mem_cons_of_mem _ hp)) runs'
    | fault ends' => cases ends.unique ends'
  | fault ends =>
    cases h' with
    | row ends' _ => cases ends.unique ends'
    | fault ends' => exact ends.unique ends'
  | label _ ih =>
    cases h' with
    | label runs' => exact ih (fun piece hp => inside piece (List.mem_cons_of_mem _ hp)) runs'
  | skip takes _ ih =>
    cases h' with
    | skip _ runs' => exact ih (fun piece hp => inside piece (List.mem_cons_of_mem _ hp)) runs'
    | take takes' _ _ => simp [takes] at takes'
  | @take condition label before after rest m result takes hplaced _ ih =>
    cases h' with
    | skip takes' _ => simp [takes] at takes'
    | take _ hplaced' runs' =>
      have once := placed condition label (inside _ (List.mem_cons_self ..))
      obtain rfl := after_label_unique once hplaced hplaced'
      refine ih (fun piece hp => ?_) runs'
      rw [hplaced]
      exact List.mem_append_right _ (List.mem_cons_of_mem _ hp)

end Flow

end RasterShader
