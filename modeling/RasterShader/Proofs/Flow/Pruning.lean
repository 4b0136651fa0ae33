import Mathlib
import RasterShader.Proofs.Flow.Basic

/-!
# Branches that can be left out of a flow

`Flow.Prunes` takes one branch out of a flow: one that goes to the label right after it, one that
goes where the jump right after it goes, or one that comes right after a jump and is never reached.
What is left ends up where the flow did (`Flow.Prunes.runs`), because the two go through the same
pieces.

The proof follows the machine through the flow and says at every point what the other one still has
before it (`Flow.Without`): the same pieces, less the branch if that is still to come.  Where a
branch is taken, both go on after the same label, and that is such a point again
(`Flow.Without.exists_label`).
-/

namespace RasterShader

variable {lanes : Nat}

namespace Flow

/-- Takes out a branch that goes to the next label, a branch before a jump to the same label, or a
branch after a jump. -/
inductive Prunes : Flow → Flow → Prop
  | beforeLabel (front : Flow) (condition : StageCondition) (label : Int) (back : Flow) :
    Prunes (front ++ .branch condition label :: .label label :: back)
      (front ++ .label label :: back)
  | beforeJump (front : Flow) (condition : StageCondition) (label : Int) (back : Flow) :
    Prunes (front ++ .branch condition label :: .branch .always label :: back)
      (front ++ .branch .always label :: back)
  | afterJump (front : Flow) (target : Int) (condition : StageCondition) (label : Int)
    (back : Flow) :
    Prunes (front ++ .branch .always target :: .branch condition label :: back)
      (front ++ .branch .always target :: back)

/-- What is before a machine in a flow `front ++ piece :: back`, and at the same point of the flow
without the piece.  The point right before the piece counts only if the piece is `live`. -/
inductive Without (front : Flow) (piece : Piece) (back : Flow) (live : Prop) : Flow → Flow → Prop
  | early (passed rest : Flow) (split : front = passed ++ rest) (reached : live ∨ rest ≠ []) :
    Without front piece back live (rest ++ piece :: back) (rest ++ back)
  | late (passed rest : Flow) (split : back = passed ++ rest) :
    Without front piece back live rest rest

section Without

variable {front back : Flow} {condition : StageCondition} {label : Int} {live : Prop}

/-- What comes after a label of the flow comes after it in the flow without a branch. -/
theorem Without.exists_label
    (dead : live ∨ ∃ passed target, front = passed ++ [.branch .always target])
    {before after : Flow} {k : Int}
    (h : front ++ .branch condition label :: back = before ++ .label k :: after) :
    ∃ before' after', front ++ back = before' ++ .label k :: after' ∧
      Without front (.branch condition label) back live after after' := by
  rcases List.append_eq_append_iff.1 h with ⟨middle, rfl, hrest⟩ | ⟨middle, rfl, hrest⟩
  · rcases middle with _ | ⟨piece, middle⟩
    · cases hrest
    · have hback : back = middle ++ .label k :: after := (List.cons.inj hrest).2
      refine ⟨front ++ middle, after, by simp [hback], .late (middle ++ [.label k]) after ?_⟩
      simp [hback]
  · rcases middle with _ | ⟨piece, middle⟩
    · cases hrest
    · obtain ⟨rfl, rfl⟩ := List.cons.inj hrest
      refine ⟨before, middle ++ back, by simp, .early (before ++ [.label k]) middle (by simp) ?_⟩
      refine dead.imp_right ?_
      rintro ⟨passed, target, hfront⟩ rfl
      -- the front ends with a jump, and not with this label
      have := (List.append_inj' hfront rfl).2
      simp at this

/-- The next piece is the same in both, and so is what follows it, unless it is the branch. -/
theorem Without.head_cases
    (dead : live ∨ ∃ passed target, front = passed ++ [.branch .always target])
    {piece : Piece} {rest rest' : Flow}
    (h : Without front (.branch condition label) back live (piece :: rest) rest') :
    (∃ tail, rest' = piece :: tail ∧ ((∀ target, piece ≠ .branch .always target) →
        Without front (.branch condition label) back live rest tail)) ∨
      live ∧ piece = .branch condition label ∧ rest = back ∧ rest' = back := by
  generalize hall : piece :: rest = all at h
  cases h with
  | early passed ahead split reached =>
    rcases ahead with _ | ⟨first, ahead⟩
    · obtain ⟨rfl, rfl⟩ := List.cons.inj hall
      exact .inr ⟨reached.resolve_right (by simp), rfl, rfl, rfl⟩
    · obtain ⟨rfl, rfl⟩ := List.cons.inj hall
      refine .inl ⟨ahead ++ back, rfl, fun hjump => ?_⟩
      refine .early (passed ++ [piece]) ahead (by simp [split]) (dead.imp_right ?_)
      rintro ⟨passed', target, hfront⟩ rfl
      have hlast := (List.append_inj' (split.symm.trans hfront) rfl).2
      exact hjump target (List.cons.inj hlast).1
  | late passed _ split =>
    subst hall
    exact .inl ⟨rest, rfl, fun _ => .late (passed ++ [piece]) rest (by simp [split])⟩

/-- A flow ends up where it does without a branch, if the branch is dead, or if taking it leads to
where what follows it leads. -/
theorem Without.runs {batch : Batch lanes}
    (dead : live ∨ ∃ passed target, front = passed ++ [.branch .always target])
    (same : live → ∀ {before after m r}, front ++ back = before ++ .label label :: after →
      Runs batch (front ++ back) after m r → Runs batch (front ++ back) back m r)
    {rest rest' : Flow} {m : Machine lanes} {r : Machine lanes × Option PipelineError}
    (h : Runs batch (front ++ .branch condition label :: back) rest m r)
    (without : Without front (.branch condition label) back live rest rest') :
    Runs batch (front ++ back) rest' m r := by
  induction h generalizing rest' with
  | done =>
    generalize hnil : ([] : Flow) = rest at without
    cases without with
    | early passed ahead => simp at hnil
    | late => exact hnil ▸ .done
  | row ends _ ih =>
    obtain ⟨tail, rfl, hrest⟩ | ⟨-, hpiece, -⟩ := without.head_cases dead
    · exact .row ends (ih (hrest (by simp)))
    · cases hpiece
  | fault ends =>
    obtain ⟨tail, rfl, -⟩ | ⟨-, hpiece, -⟩ := without.head_cases dead
    · exact .fault ends
    · cases hpiece
  | label _ ih =>
    obtain ⟨tail, rfl, hrest⟩ | ⟨-, hpiece, -⟩ := without.head_cases dead
    · exact .label (ih (hrest (by simp)))
    · cases hpiece
  | skip takes _ ih =>
    obtain ⟨tail, rfl, hrest⟩ | ⟨-, -, rfl, rfl⟩ := without.head_cases dead
    · refine .skip takes (ih (hrest ?_))
      rintro target ⟨⟩
      cases takes
    · exact ih (.late [] _ rfl)
  | take takes placed _ ih =>
    obtain ⟨before', after', placed', without'⟩ := Without.exists_label dead placed
    have runs' := ih without'
    obtain ⟨tail, rfl, -⟩ | ⟨hlive, hpiece, -, rfl⟩ := without.head_cases dead
    · exact .take takes placed' runs'
    · obtain ⟨-, rfl⟩ := Piece.branch.inj hpiece
      exact same hlive placed' runs'

end Without

/-- A flow has the labels of the flow that it was pruned from, and no other branches. -/
theorem Prunes.placed {flow flow' : Flow} (h : Prunes flow flow') (placed : flow.Placed) :
    flow'.Placed := by
  obtain ⟨front, condition, label, back, rfl, rfl⟩ : ∃ front condition label back,
      flow = front ++ .branch condition label :: back ∧ flow' = front ++ back := by
    cases h with
    | beforeLabel front condition label back => exact ⟨front, condition, label, _, rfl, rfl⟩
    | beforeJump front condition label back => exact ⟨front, condition, label, _, rfl, rfl⟩
    | afterJump front target condition label back =>
      exact ⟨front ++ [.branch .always target], condition, label, back, by simp, by simp⟩
  intro condition' label' hmem
  have := placed condition' label' (by
    simp only [List.mem_append, List.mem_cons] at hmem ⊢
    tauto)
  rwa [List.countP_append, List.countP_cons_of_neg (by simp [Piece.places]),
    ← List.countP_append] at this

/-- What is left of a flow ends up where the flow does. -/
theorem Prunes.runs {flow flow' : Flow} (h : Prunes flow flow') (placed : flow.Placed)
    {batch : Batch lanes} {m : Machine lanes} {r : Machine lanes × Option PipelineError}
    (runs : Runs batch flow flow m r) : Runs batch flow' flow' m r := by
  cases h with
  | beforeLabel front condition label back =>
    have once : (front ++ .label label :: back).countP (·.places label) = 1 := by
      have := placed condition label (by simp)
      rwa [List.countP_append, List.countP_cons_of_neg (by simp [Piece.places]),
        ← List.countP_append] at this
    refine Without.runs (.inl trivial) (fun _ => ?_) runs (.early [] front rfl (.inl trivial))
    intro before after m r hlabel hruns
    obtain rfl := after_label_unique once hlabel rfl
    exact .label hruns
  | beforeJump front condition label back =>
    refine Without.runs (.inl trivial) (fun _ => ?_) runs (.early [] front rfl (.inl trivial))
    intro before after m r hlabel hruns
    exact .take rfl hlabel hruns
  | afterJump front target condition label back =>
    have start : Without (front ++ [.branch .always target]) (.branch condition label) back False
        (front ++ [.branch .always target] ++ .branch condition label :: back)
        (front ++ [.branch .always target] ++ back) := .early [] _ rfl (.inr (by simp))
    rw [List.append_cons] at runs ⊢
    exact Without.runs (.inr ⟨front, target, rfl⟩) False.elim runs start

/-- Taking out branches one after the other changes nothing either. -/
theorem runs_of_prunes {flow flow' : Flow} (h : Relation.ReflTransGen Prunes flow flow')
    (placed : flow.Placed) {batch : Batch lanes} {m : Machine lanes}
    {r : Machine lanes × Option PipelineError} (runs : Runs batch flow flow m r) :
    flow'.Placed ∧ Runs batch flow' flow' m r := by
  induction h with
  | refl => exact ⟨placed, runs⟩
  | tail _ hstep ih => exact ⟨hstep.placed ih.1, hstep.runs ih.1 ih.2⟩

end Flow

end RasterShader
