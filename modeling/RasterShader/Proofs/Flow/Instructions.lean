import Mathlib
import RasterShader.Proofs.Code.Running
import RasterShader.Proofs.Flow.Lowering
import RasterShader.Proofs.Flow.Pruning

/-!
# Code without some of its branches

`Code.Prunes` takes a branch out of code where `Flow.Prunes` takes it out of a flow.  A branch uses
no stack and places no label, so what is left can be finished if the code could, with the same room
for every stack (`Pipeline.ofInstructions_of_prunes`), and lowered with the same immutable words
(`Pipeline.lower_of_prunes`); and the two run alike (`Pipeline.runFrom_of_prunes`).

All that is asked of the code is that every label that a branch goes to is placed once
(`Code.Labelled`).
-/

namespace RasterShader

variable {lanes : Nat}

/-! ## Labels -/

namespace Code

/-- Every label that a branch goes to is placed once. -/
def Labelled (code : Code) : Prop :=
  ∀ i ∈ code, ∀ l, i.op.branchTarget? = some l → (code.map (·.op)).count (.label l) = 1

/-- Takes out a branch that goes to the next label, a branch before a jump to the same label, or a
branch after a jump. -/
inductive Prunes : Code → Code → Prop
  | beforeLabel (front : Code) (label stack : Int) (condition : BranchCondition) (stack' : Int)
    (back : Code) :
    Prunes (front ++ ⟨.label label, stack⟩ :: ⟨.branch condition label, stack'⟩ :: back)
      (front ++ ⟨.label label, stack⟩ :: back)
  | beforeJump (front : Code) (label stack : Int) (condition : BranchCondition) (stack' : Int)
    (back : Code) :
    Prunes (front ++ ⟨.branch .always label, stack⟩ :: ⟨.branch condition label, stack'⟩ :: back)
      (front ++ ⟨.branch .always label, stack⟩ :: back)
  | afterJump (front : Code) (condition : BranchCondition) (label stack target stack' : Int)
    (back : Code) :
    Prunes (front ++ ⟨.branch condition label, stack⟩ :: ⟨.branch .always target, stack'⟩ :: back)
      (front ++ ⟨.branch .always target, stack'⟩ :: back)

namespace Prunes

variable {code code' : Code}

/-- All that is taken out is one branch. -/
theorem exists_branch (h : Prunes code code') :
    ∃ front condition label stack back,
      code = front ++ ⟨.branch condition label, stack⟩ :: back ∧ code' = front ++ back := by
  cases h with
  | beforeLabel front label stack condition stack' back =>
    exact ⟨front ++ [⟨.label label, stack⟩], condition, label, stack', back, by simp, by simp⟩
  | beforeJump front label stack condition stack' back =>
    exact ⟨front ++ [⟨.branch .always label, stack⟩], condition, label, stack', back, by simp,
      by simp⟩
  | afterJump front condition label stack target stack' back =>
    exact ⟨front, condition, label, stack, _, rfl, rfl⟩

/-- More code may come after. -/
theorem append_left (h : Prunes code code') (front : Code) :
    Prunes (front ++ code) (front ++ code') := by
  cases h with
  | beforeLabel f l s c s' b => simpa using beforeLabel (front ++ f) l s c s' b
  | beforeJump f l s c s' b => simpa using beforeJump (front ++ f) l s c s' b
  | afterJump f c l s t s' b => simpa using afterJump (front ++ f) c l s t s' b

theorem labelled (h : Prunes code code') (labelled : code.Labelled) : code'.Labelled := by
  obtain ⟨front, condition, label, stack, back, rfl, rfl⟩ := h.exists_branch
  intro i hi l hl
  have once := labelled i (by simp only [List.mem_append, List.mem_cons] at hi ⊢; tauto) l hl
  simpa using once

end Prunes

theorem Labelled.of_prunes {code code' : Code} (labelled : code.Labelled)
    (h : Relation.ReflTransGen Prunes code code') : code'.Labelled := by
  induction h with
  | refl => exact labelled
  | tail _ step ih => exact step.labelled ih

end Code

/-! ## Flows -/

theorem stackDepth_branch (condition : BranchCondition) (label stack : Int) :
    stackDepth [⟨.branch condition label, stack⟩] = 0 := by
  funext s
  simp [stackDepth_cons, Op.stackUsage]

namespace Flow

variable {base : Nat → Nat} {host : Option Host}

theorem countP_places_ofInstructions (depth : Int → Int) (instructions : List Instruction)
    (l : Int) : (ofInstructions base host depth instructions).countP (·.places l) =
      (instructions.map (·.op)).count (.label l) := by
  induction instructions generalizing depth with
  | nil => rfl
  | cons i rest ih =>
    obtain ⟨op, s⟩ := i
    rw [ofInstructions, List.map_cons, List.countP_cons, List.count_cons, ih]
    congr 1
    cases op with
    | label l' => simp [Piece.ofInstruction, Piece.places]
    | _ => simp [Piece.ofInstruction, Piece.places]

theorem exists_branch_of_mem {depth : Int → Int} {instructions : List Instruction}
    {condition : StageCondition} {l : Int}
    (h : .branch condition l ∈ ofInstructions base host depth instructions) :
    ∃ i ∈ instructions, i.op.branchTarget? = some l := by
  induction instructions generalizing depth with
  | nil => cases h
  | cons i rest ih =>
    rw [ofInstructions, List.mem_cons] at h
    rcases h with h | h
    · refine ⟨i, List.mem_cons_self .., ?_⟩
      obtain ⟨op, s⟩ := i
      cases op with
      | branch c l' =>
        obtain ⟨-, rfl⟩ := Piece.branch.inj h
        rfl
      | _ => cases h
    · obtain ⟨j, hj, hl⟩ := ih h
      exact ⟨j, List.mem_cons_of_mem _ hj, hl⟩

/-- Labels that are placed once are placed once in the flow. -/
theorem placed_ofInstructions {code : Code} (labelled : code.Labelled) (depth : Int → Int) :
    (ofInstructions base host depth code.reverse).Placed := by
  intro condition l h
  obtain ⟨i, hi, hl⟩ := exists_branch_of_mem h
  rw [countP_places_ofInstructions, List.map_reverse, List.count_reverse]
  exact labelled i (List.mem_reverse.1 hi) l hl

/-- What is taken out of code is taken out of its flow. -/
theorem prunes_ofInstructions {code code' : Code} (h : code.Prunes code') :
    Prunes (ofInstructions base host 0 code.reverse)
      (ofInstructions base host 0 code'.reverse) := by
  have hreverse : ∀ (front back : Code) (i : Instruction),
      (front ++ i :: back).reverse = back.reverse ++ i :: front.reverse := by simp
  have hreverse' : ∀ (front back : Code) (i j : Instruction),
      (front ++ i :: j :: back).reverse = back.reverse ++ j :: i :: front.reverse := by simp
  cases h with
  | beforeLabel =>
    rw [hreverse', hreverse, ofInstructions_append, ofInstructions_append]
    simp only [ofInstructions, stackDepth_branch, add_zero]
    exact .beforeLabel ..
  | beforeJump =>
    rw [hreverse', hreverse, ofInstructions_append, ofInstructions_append]
    simp only [ofInstructions, stackDepth_branch, add_zero]
    exact .beforeJump ..
  | afterJump =>
    rw [hreverse', hreverse, ofInstructions_append, ofInstructions_append]
    simp only [ofInstructions, stackDepth_branch, add_zero]
    exact .afterJump ..

end Flow

/-! ## Finishing -/

namespace StackDepths

/-- The same depths of all stacks, whatever stacks were covered. -/
def Alike (depths depths' : StackDepths) : Prop :=
  ∀ s : Nat, depths.now.getD s 0 = depths'.now.getD s 0 ∧
    depths.most.getD s 0 = depths'.most.getD s 0

theorem Alike.refl (depths : StackDepths) : Alike depths depths := fun _ => ⟨rfl, rfl⟩

theorem Alike.trans {a b c : StackDepths} (h : Alike a b) (h' : Alike b c) : Alike a c :=
  fun s => ⟨(h s).1.trans (h' s).1, (h s).2.trans (h' s).2⟩

/-- An instruction moves like depths alike. -/
theorem Alike.step {depths depths' next : StackDepths} (alike : Alike depths depths')
    {index index' : Nat} {i : Instruction} (h : depths.step index i = .ok next) :
    ∃ next', depths'.step index' i = .ok next' ∧ Alike next next' := by
  obtain ⟨stack, hstack, hdepth, hnow, hmost⟩ := step_eq_ok h
  obtain ⟨next', h'⟩ := step_ok index' hstack ((alike stack).1 ▸ hdepth)
  obtain ⟨stack', hstack', -, hnow', hmost'⟩ := step_eq_ok h'
  obtain rfl : stack = stack' := by omega
  refine ⟨next', h', fun s => ⟨?_, ?_⟩⟩
  · rw [hnow, hnow', (alike s).1]
  · rw [hmost, hmost', (alike s).1, (alike s).2]

/-- Instructions move like depths alike. -/
theorem Alike.after {depths depths' last : StackDepths} (alike : Alike depths depths')
    {index index' : Nat} {instructions : List Instruction}
    (h : depths.after index instructions = .ok last) :
    ∃ last', depths'.after index' instructions = .ok last' ∧ Alike last last' := by
  induction instructions generalizing depths depths' index index' with
  | nil =>
    cases h
    exact ⟨depths', rfl, alike⟩
  | cons i rest ih =>
    simp only [StackDepths.after, bind, Except.bind] at h ⊢
    split at h
    · cases h
    · rename_i next hnext
      obtain ⟨next', hnext', alike'⟩ := alike.step hnext
      rw [hnext']
      exact ih alike' h

/-- A branch changes no depth. -/
theorem Sound.alike_branch {depths next : StackDepths} (sound : depths.Sound) {index : Nat}
    {condition : BranchCondition} {label stack : Int}
    (h : depths.step index ⟨.branch condition label, stack⟩ = .ok next) : Alike next depths := by
  obtain ⟨s, -, -, hnow, hmost⟩ := step_eq_ok h
  intro t
  have := sound t
  rw [hnow, hmost]
  simp only [Op.stackUsage, add_zero, ite_self, true_and]
  split
  · omega
  · rfl

/-- Depths after code without one of its branches. -/
theorem after_of_prunes {code code' : Code} (h : code.Prunes code') {last : StackDepths}
    (hafter : empty.after 0 code.reverse = .ok last) :
    ∃ last', empty.after 0 code'.reverse = .ok last' ∧ Alike last last' := by
  obtain ⟨front, condition, label, stack, back, rfl, rfl⟩ := h.exists_branch
  rw [List.reverse_append, List.reverse_cons, List.append_assoc, after_append] at hafter
  rw [List.reverse_append, after_append]
  cases hback : empty.after 0 back.reverse with
  | error e =>
    rw [hback] at hafter
    cases hafter
  | ok depths =>
    have sound := (after_eq_ok sound_empty hback).1
    rw [hback] at hafter
    simp only [Except.bind, List.singleton_append, after, bind] at hafter ⊢
    split at hafter
    · cases hafter
    · rename_i next hnext
      exact (sound.alike_branch hnext).after hafter

end StackDepths

namespace Pipeline

variable {p q : Pipeline}

theorem stackBase_eq (hvalue : p.valueSlots = q.valueSlots)
    (hdepths : ∀ s : Nat, p.stackDepths.getD s 0 = q.stackDepths.getD s 0) :
    p.stackBase = q.stackBase := by
  funext s
  induction s with
  | zero => simp [stackBase, hvalue]
  | succ s ih => rw [stackBase_succ, stackBase_succ, ih, hdepths]

theorem stackSlots_eq (hvalue : p.valueSlots = q.valueSlots) (hbase : p.stackBase = q.stackBase) :
    p.stackSlots = q.stackSlots := by
  have last : ∀ r : Pipeline, ∀ s ≥ r.stackDepths.length,
      r.stackBase s = r.valueSlots + r.stackSlots := by
    intro r s hs
    rw [stackBase, stackSlots, List.take_of_length_le hs]
  have hp := last p (max p.stackDepths.length q.stackDepths.length) (Nat.le_max_left ..)
  have hq := last q (max p.stackDepths.length q.stackDepths.length) (Nat.le_max_right ..)
  rw [hbase, hq] at hp
  omega

theorem ofInstructions_eq_ok_iff {instructions : List Instruction}
    {valueSlots uniformSlots immutableSlots labelCount : Nat} {debugTrace : Option DebugTrace} :
    ofInstructions instructions valueSlots uniformSlots immutableSlots labelCount debugTrace =
        .ok p ↔
      ∃ depths, StackDepths.empty.after 0 instructions = .ok depths ∧ depths.balanced = .ok () ∧
        p = ⟨instructions, valueSlots, uniformSlots, immutableSlots, labelCount, depths.most,
          debugTrace⟩ := by
  simp only [ofInstructions, bind, Except.bind, pure, Except.pure]
  cases StackDepths.empty.after 0 instructions with
  | error e => simp
  | ok depths =>
    simp only [Except.ok.injEq, exists_eq_left']
    cases depths.balanced with
    | error e => simp
    | ok u => simp [eq_comm]

/-- Code without some of its branches is finished with the same room for every stack. -/
theorem ofInstructions_of_prunes {code code' : Code}
    (h : Relation.ReflTransGen Code.Prunes code code')
    {valueSlots uniformSlots immutableSlots labelCount : Nat} {debugTrace : Option DebugTrace}
    (hq : ofInstructions code.reverse valueSlots uniformSlots immutableSlots labelCount debugTrace =
      .ok q) :
    ∃ p, ofInstructions code'.reverse valueSlots uniformSlots immutableSlots labelCount debugTrace =
        .ok p ∧ p.stackBase = q.stackBase ∧ p.stackSlots = q.stackSlots := by
  obtain ⟨depths, hdepths, hbalanced, rfl⟩ := ofInstructions_eq_ok_iff.1 hq
  obtain ⟨depths', hdepths', alike⟩ : ∃ depths', StackDepths.empty.after 0 code'.reverse =
      .ok depths' ∧ depths.Alike depths' := by
    clear hq
    induction h with
    | refl => exact ⟨depths, hdepths, .refl depths⟩
    | tail _ step ih =>
      obtain ⟨mid, hmid, alike⟩ := ih
      obtain ⟨last, hlast, alike'⟩ := StackDepths.after_of_prunes step hmid
      exact ⟨last, hlast, alike.trans alike'⟩
  have hbalanced' : depths'.balanced = .ok () := by
    rw [StackDepths.balanced_eq_ok_iff] at hbalanced ⊢
    intro s
    rw [← (alike s).1, hbalanced]
  refine ⟨_, ofInstructions_eq_ok_iff.2 ⟨depths', hdepths', hbalanced', rfl⟩, ?_⟩
  have hbase := stackBase_eq
    (p := ⟨code'.reverse, valueSlots, uniformSlots, immutableSlots, labelCount, depths'.most,
      debugTrace⟩)
    (q := ⟨code.reverse, valueSlots, uniformSlots, immutableSlots, labelCount, depths.most,
      debugTrace⟩) rfl fun s => (alike s).2.symm
  exact ⟨hbase, stackSlots_eq rfl hbase⟩

end Pipeline

/-! ## Lowering -/

namespace Lowering

/-- The same labels in use and the same immutable words. -/
structure Alike (L L' : Lowering) : Prop where
  labels : L.labels.size = L'.labels.size
  immutable : L.immutable = L'.immutable

namespace Alike

variable {L L' : Lowering}

theorem refl (L : Lowering) : Alike L L := ⟨rfl, rfl⟩

theorem trans {L'' : Lowering} (h : Alike L L') (h' : Alike L' L'') : Alike L L'' :=
  ⟨h.labels.trans h'.labels, h.immutable.trans h'.immutable⟩

theorem symm (h : Alike L L') : Alike L' L := ⟨h.labels.symm, h.immutable.symm⟩

end Alike

theorem alike_emitHost (L : Lowering) (stages : List Stage) : Alike (L.emitHost stages) L :=
  ⟨by rw [labels_emitHost], immutable_emitHost L stages⟩

theorem alike_rewind_cond (L : Lowering) (c : Bool) : Alike (if c then L.rewind else L) L := by
  obtain ⟨-, -, -, -, hlabels, himmutable⟩ := rewind_cond L c
  exact ⟨by rw [hlabels], himmutable⟩

variable {q : Pipeline} {host : Option Host} {tailCalls : Bool}

/-- Whether an operation can be lowered depends on the labels in use and the immutable words
only. -/
theorem Alike.lowerOp {L L' M : Lowering} (alike : Alike L L') (p : Pipeline) {i : Instruction}
    (h : L.lowerOp q host tailCalls i = .ok M) :
    ∃ M', L'.lowerOp p host tailCalls i = .ok M' ∧ Alike M M' := by
  obtain ⟨op, s⟩ := i
  cases op with
  | storeImmutable slot bits =>
    simp only [Lowering.lowerOp, alike.immutable] at h ⊢
    split at h
    · rename_i hslot
      cases h
      exact ⟨_, if_pos hslot, alike.labels, rfl⟩
    · cases h
  | label label =>
    simp only [Lowering.lowerOp, alike.labels] at h ⊢
    split at h
    · rename_i hlabel
      cases h
      exact ⟨_, if_pos hlabel, by simpa using alike.labels, alike.immutable⟩
    · cases h
  | branch condition label =>
    cases h
    have hL := alike_rewind_cond L (!tailCalls && (L.placed? label).isSome)
    have hL' := alike_rewind_cond L' (!tailCalls && (L'.placed? label).isSome)
    have := (hL.trans alike).trans hL'.symm
    exact ⟨_, rfl, this.labels, this.immutable⟩
  | invoke call =>
    have hhost : ∀ stages, Alike (L.emitHost stages) (L'.emitHost stages) := fun stages =>
      ((alike_emitHost L stages).trans alike).trans (alike_emitHost L' stages).symm
    cases host with
    | none => cases h
    | some host =>
      cases call with
      | child kind index =>
        simp only [Lowering.lowerOp] at h ⊢
        split at h
        · cases h
          exact ⟨_, rfl, hhost _⟩
        · cases h
      | toLinearSrgb | fromLinearSrgb =>
        cases h
        exact ⟨_, rfl, hhost _⟩
  | _ =>
    simp only [Lowering.lowerOp] at h ⊢
    split at h <;> split <;> cases h <;> exact ⟨_, rfl, alike.labels, alike.immutable⟩

/-- Lowering an instruction is lowering its operation, perhaps after a rewind. -/
theorem exists_lowerOp {L M : Lowering} {i : Instruction}
    (h : L.lowerInstruction q host tailCalls i = .ok M) :
    ∃ L₁ M₁, Alike L₁ L ∧ L₁.lowerOp q host tailCalls i = .ok M₁ ∧ Alike M M₁ := by
  simp only [lowerInstruction, bind, Except.bind, pure, Except.pure] at h
  split at h
  · cases h
  · rename_i M₁ hM₁
    cases h
    exact ⟨_, M₁, alike_rewind_cond L _, hM₁, rfl, rfl⟩

theorem Alike.lowerInstruction {L L' M : Lowering} (alike : Alike L L') (p : Pipeline)
    {i : Instruction} (h : L.lowerInstruction q host tailCalls i = .ok M) :
    ∃ M', L'.lowerInstruction p host tailCalls i = .ok M' ∧ Alike M M' := by
  obtain ⟨L₁, M₁, hL₁, hM₁, hM⟩ := exists_lowerOp h
  simp only [Lowering.lowerInstruction, bind, Except.bind, pure, Except.pure]
  obtain ⟨M', hM', alike'⟩ :=
    ((hL₁.trans alike).trans (alike_rewind_cond L' _).symm).lowerOp p hM₁
  rw [hM']
  exact ⟨_, rfl, (hM.trans alike').labels, (hM.trans alike').immutable⟩

theorem Alike.foldlM {L L' M : Lowering} (alike : Alike L L') (p : Pipeline)
    {instructions : List Instruction}
    (h : instructions.foldlM (·.lowerInstruction q host tailCalls ·) L = .ok M) :
    ∃ M', instructions.foldlM (·.lowerInstruction p host tailCalls ·) L' = .ok M' ∧
      Alike M M' := by
  induction instructions generalizing L L' with
  | nil =>
    cases h
    exact ⟨L', rfl, alike⟩
  | cons i rest ih =>
    simp only [List.foldlM_cons, bind, Except.bind] at h ⊢
    split at h
    · cases h
    · rename_i L₁ hL₁
      obtain ⟨L₁', hL₁', alike'⟩ := alike.lowerInstruction p hL₁
      rw [hL₁']
      exact ih alike' h

/-- A branch changes neither. -/
theorem alike_branch {L M : Lowering} {condition : BranchCondition} {label stack : Int}
    (h : L.lowerInstruction q host tailCalls ⟨.branch condition label, stack⟩ = .ok M) :
    Alike M L := by
  obtain ⟨L₁, M₁, hL₁, hM₁, hM⟩ := exists_lowerOp h
  cases hM₁
  have hback := alike_rewind_cond L₁ (!tailCalls && (L₁.placed? label).isSome)
  exact hM.trans (Alike.trans ⟨hback.labels, hback.immutable⟩ hL₁)

/-- Lowering code without some of its branches. -/
theorem foldlM_of_prunes {code code' : Code} (h : Relation.ReflTransGen Code.Prunes code code')
    {L M : Lowering} (hM : code.reverse.foldlM (·.lowerInstruction q host tailCalls ·) L = .ok M) :
    ∃ M', code'.reverse.foldlM (·.lowerInstruction q host tailCalls ·) L = .ok M' ∧
      Alike M M' := by
  induction h with
  | refl => exact ⟨M, hM, .refl M⟩
  | tail _ step ih =>
    obtain ⟨M₁, hM₁, alike₁⟩ := ih
    obtain ⟨front, condition, label, stack, back, rfl, rfl⟩ := step.exists_branch
    rw [List.reverse_append, List.reverse_cons, List.append_assoc, List.foldlM_append] at hM₁
    rw [List.reverse_append, List.foldlM_append]
    cases hback : back.reverse.foldlM (·.lowerInstruction q host tailCalls ·) L with
    | error e =>
      rw [hback] at hM₁
      cases hM₁
    | ok L₁ =>
      rw [hback] at hM₁
      simp only [bind, Except.bind, List.singleton_append, List.foldlM_cons] at hM₁ ⊢
      split at hM₁
      · cases hM₁
      · rename_i L₂ hL₂
        obtain ⟨M', hM', alike'⟩ := (alike_branch hL₂).foldlM q hM₁
        exact ⟨M', hM', alike₁.trans alike'⟩

/-- The labels that have been placed are those of the instructions. -/
theorem isSome_placed?_foldlM {L M : Lowering} {instructions : List Instruction}
    (h : instructions.foldlM (·.lowerInstruction q host tailCalls ·) L = .ok M) (l : Int) :
    (M.placed? l).isSome ↔ (L.placed? l).isSome ∨ .label l ∈ instructions.map (·.op) := by
  induction instructions generalizing L with
  | nil =>
    cases h
    simp
  | cons i rest ih =>
    simp only [List.foldlM_cons, bind, Except.bind] at h
    split at h
    · cases h
    · rename_i L₁ hL₁
      rw [ih h, placed?_lowerInstruction hL₁, List.map_cons, List.mem_cons]
      by_cases hi : i.op = .label l
      · simp [hi]
      · simp [hi, Ne.symm hi]

/-- Branches whose labels have been placed are resolved. -/
theorem resolve_ok {M : Lowering} {emitted : List Emitted}
    (h : ∀ condition l, .branch condition l ∈ emitted → (M.placed? l).isSome) (place : Nat) :
    ∃ stages, (emitted.zipIdx place).mapM (fun (e, place) => M.resolve place e) = .ok stages := by
  induction emitted generalizing place with
  | nil => exact ⟨[], rfl⟩
  | cons e rest ih =>
    obtain ⟨stages, hstages⟩ :=
      ih (fun condition l hmem => h condition l (List.mem_cons_of_mem _ hmem)) (place + 1)
    obtain ⟨stage, hstage⟩ : ∃ stage, M.resolve place e = .ok stage := by
      cases e with
      | stage stage => exact ⟨stage, rfl⟩
      | branch condition l =>
        obtain ⟨target, htarget⟩ := Option.isSome_iff_exists.1 (h condition l (by simp))
        exact ⟨_, by rw [resolve, htarget]⟩
    refine ⟨stage :: stages, ?_⟩
    rw [List.zipIdx_cons, List.mapM_cons, hstages]
    simp only [hstage, bind, Except.bind, pure, Except.pure]

end Lowering

namespace Pipeline

variable {p q : Pipeline} {host : Option Host} {tailCalls : Bool}

/-- Branches are emitted for branches only. -/
theorem exists_branch_of_emitted (fits : p.Fits) {before after : List Instruction}
    (hp : p.instructions = before ++ after) {L : Lowering}
    (hL : before.foldlM (·.lowerInstruction p host tailCalls ·) (Lowering.start p) = .ok L)
    {condition : StageCondition} {l : Int} (h : .branch condition l ∈ L.emitted.toList) :
    ∃ i ∈ before, i.op.branchTarget? = some l := by
  induction before using List.reverseRecOn generalizing after L with
  | nil =>
    cases hL
    simp [Lowering.start] at h
  | append_singleton before i ih =>
    obtain ⟨L₁, hL₁, hi⟩ := exists_of_foldlM_concat hL
    rw [List.append_assoc] at hp
    obtain ⟨rewinds, -, hemitted, -⟩ :=
      Lowering.lowerInstruction_piece (counts_foldlM fits hp hL₁) hi
    rw [hemitted, List.mem_append, List.mem_append] at h
    rcases h with (h | h) | h
    · obtain ⟨j, hj, hl⟩ := ih hp hL₁ h
      exact ⟨j, List.mem_append_left _ hj, hl⟩
    · simp at h
    · refine ⟨i, by simp, ?_⟩
      obtain ⟨op, s⟩ := i
      cases op with
      | branch c l' =>
        obtain ⟨-, rfl⟩ := Emitted.branch.inj (List.mem_singleton.1 h)
        rfl
      | label => cases h
      | _ => simp [Piece.ofInstruction, Piece.emitted] at h

/-- A pipeline whose branches have labels is lowered if its instructions are. -/
theorem lower_ok (fits : p.Fits) {code : Code} (hp : p.instructions = code.reverse)
    (labelled : code.Labelled) {L : Lowering}
    (hL : p.instructions.foldlM (·.lowerInstruction p host tailCalls ·) (Lowering.start p) =
      .ok L) :
    ∃ lowered, p.lower host tailCalls = .ok lowered ∧ lowered.immutable = L.immutable := by
  have hplaced : ∀ condition l, .branch condition l ∈ L.emitted.toList →
      (L.placed? l).isSome := by
    intro condition l hmem
    obtain ⟨i, hi, hl⟩ := exists_branch_of_emitted fits
      (show p.instructions = p.instructions ++ [] by simp) hL hmem
    rw [Lowering.isSome_placed?_foldlM hL, hp, List.map_reverse, List.mem_reverse]
    rw [hp, List.mem_reverse] at hi
    exact .inr (List.count_pos_iff.1 (by rw [labelled i hi l hl]; exact Nat.one_pos))
  obtain ⟨stages, hstages⟩ := Lowering.resolve_ok hplaced 0
  refine ⟨⟨stages.toArray, L.emitted.map Emitted.label?, L.immutable⟩, ?_, rfl⟩
  simp only [lower, lowerFrom, hL, bind, Except.bind, pure, Except.pure, hstages]

/-- Code without some of its branches is lowered with the same immutable words. -/
theorem lower_of_prunes {code code' : Code} (h : Relation.ReflTransGen Code.Prunes code code')
    (labelled : code.Labelled) (fits : p.Fits) (hp : p.instructions = code'.reverse)
    (hq : q.instructions = code.reverse) (hlabels : p.labelCount = q.labelCount)
    (himmutable : p.immutableSlots = q.immutableSlots) {spelled : Lowered}
    (hspelled : q.lower host tailCalls = .ok spelled) :
    ∃ built, p.lower host tailCalls = .ok built ∧ built.immutable = spelled.immutable := by
  simp only [lower, lowerFrom, bind, Except.bind, pure, Except.pure] at hspelled
  split at hspelled
  · cases hspelled
  rename_i M hM
  split at hspelled
  · cases hspelled
  cases hspelled
  rw [hq] at hM
  have start : (Lowering.start q).Alike (Lowering.start p) := by
    constructor
    · simp [Lowering.start, hlabels]
    · simp [Lowering.start, himmutable]
  obtain ⟨M₁, hM₁, alike₁⟩ := Lowering.foldlM_of_prunes h hM
  obtain ⟨M₂, hM₂, alike₂⟩ := start.foldlM p hM₁
  rw [← hp] at hM₂
  obtain ⟨built, hbuilt, himm⟩ := lower_ok fits hp (labelled.of_prunes h) hM₂
  exact ⟨built, hbuilt, by rw [himm, ← alike₂.immutable, ← alike₁.immutable]⟩

/-- Code without some of its branches runs as the code does. -/
theorem runFrom_of_prunes {code code' : Code} (h : Relation.ReflTransGen Code.Prunes code code')
    (labelled : code.Labelled) (fitsp : p.Fits) (fitsq : q.Fits)
    (hp : p.instructions = code'.reverse) (hq : q.instructions = code.reverse)
    (hbase : p.stackBase = q.stackBase) (contained : Host.Contained host)
    {built spelled : Lowered} (hbuilt : p.lower host tailCalls = .ok built)
    (hspelled : q.lower host tailCalls = .ok spelled) {batch : Batch lanes} {m : Machine lanes}
    {fuel fuel' : Nat} (ended : Machine.Ended (Machine.runFrom built.stages batch fuel 0 m))
    (ended' : Machine.Ended (Machine.runFrom spelled.stages batch fuel' 0 m)) :
    Machine.runFrom built.stages batch fuel 0 m =
      Machine.runFrom spelled.stages batch fuel' 0 m := by
  have runs := runs_flow fitsp contained hbuilt ended
  have runs' := runs_flow fitsq contained hspelled ended'
  have prunes : Relation.ReflTransGen Flow.Prunes (q.flow host) (p.flow host) := by
    rw [flow, flow, hp, hq, hbase]
    exact h.lift (fun code => Flow.ofInstructions q.stackBase host 0 code.reverse)
      fun _ _ step => Flow.prunes_ofInstructions step
  have placed : (q.flow host).Placed := by
    rw [flow, hq]
    exact Flow.placed_ofInstructions labelled 0
  obtain ⟨placed', runs''⟩ := Flow.runs_of_prunes prunes placed runs'
  exact runs.unique placed' (fun _ h => h) runs''

end Pipeline

end RasterShader
