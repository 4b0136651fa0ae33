import Mathlib
import RasterShader.Proofs.Stack.Layout

/-!
# Depths of stacks

The depth of a stack after a list of instructions is the sum of their `Op.stackUsage`
(`stackDepth`).  It is what `StackDepths.after` computes, which fails exactly when a depth would
become negative, and what the stack machine has on its stacks (`depth_steps`): an instruction pops
and pushes what its usage says, on its own stack only.
-/

namespace RasterShader

variable {lanes : Nat}

/-! ## Sums of usages -/

/-- The net change of the depth of a stack by instructions in any order. -/
def stackDepth (instructions : List Instruction) (s : Int) : Int :=
  (instructions.map fun i => if i.stack = s then i.op.stackUsage else 0).sum

@[simp] theorem stackDepth_nil (s : Int) : stackDepth [] s = 0 := rfl

theorem stackDepth_cons (i : Instruction) (rest : List Instruction) (s : Int) :
    stackDepth (i :: rest) s =
      (if i.stack = s then i.op.stackUsage else 0) + stackDepth rest s := by
  simp [stackDepth]

theorem stackDepth_append (first rest : List Instruction) (s : Int) :
    stackDepth (first ++ rest) s = stackDepth first s + stackDepth rest s := by
  simp [stackDepth]

@[simp] theorem stackDepth_reverse (instructions : List Instruction) (s : Int) :
    stackDepth instructions.reverse s = stackDepth instructions s := by
  simp [stackDepth, List.sum_reverse]

theorem stackDepth_cons_self (op : Op) (s : Int) (rest : List Instruction) :
    stackDepth (⟨op, s⟩ :: rest) s = op.stackUsage + stackDepth rest s := by
  simp [stackDepth_cons]

theorem stackDepth_of_forall_ne {instructions : List Instruction} {s : Int}
    (h : ∀ i ∈ instructions, i.stack ≠ s) : stackDepth instructions s = 0 := by
  induction instructions with
  | nil => rfl
  | cons i rest ih =>
    simp only [List.mem_cons, forall_eq_or_imp] at h
    rw [stackDepth_cons, if_neg h.1, ih h.2, add_zero]

/-- Every instruction of a list finds its operands on the stacks as they are after the instructions
before it. -/
def AllFind (valueSlots : Nat) (instructions : List Instruction) : Prop :=
  ∀ before i after, instructions = before ++ i :: after →
    i.op.Finds valueSlots (stackDepth before) i.stack

theorem allFind_iff_get {valueSlots : Nat} {instructions : List Instruction} :
    AllFind valueSlots instructions ↔ ∀ k : Fin instructions.length,
      (instructions.get k).op.Finds valueSlots (stackDepth (instructions.take k))
        (instructions.get k).stack := by
  constructor
  · intro h k
    exact h _ _ (instructions.drop (k + 1)) (by simp)
  · rintro h before i after rfl
    simpa using h ⟨before.length, by simp⟩

instance (valueSlots : Nat) (instructions : List Instruction) :
    Decidable (AllFind valueSlots instructions) := decidable_of_iff' _ allFind_iff_get

theorem allFind_concat {valueSlots : Nat} {instructions : List Instruction} {i : Instruction} :
    AllFind valueSlots (instructions ++ [i]) ↔
      AllFind valueSlots instructions ∧
        i.op.Finds valueSlots (stackDepth instructions) i.stack := by
  constructor
  · intro h
    refine ⟨?_, h instructions i [] rfl⟩
    intro before j after hl
    exact h before j (after ++ [i]) (by simp [hl])
  · rintro ⟨h, hi⟩ before j after hl
    rcases List.eq_nil_or_concat after with rfl | ⟨after, k, rfl⟩
    · obtain ⟨rfl, rfl⟩ : instructions = before ∧ i = j := by simpa using hl
      exact hi
    · have hl : instructions = before ++ j :: after := by
        have hl : instructions ++ [i] = (before ++ j :: after) ++ [k] := by simpa using hl
        exact (List.append_inj' hl rfl).1
      exact h before j after hl

/-! ## The depths of a pipeline -/

namespace StackDepths

/-- The depth of a stack is not negative, and at most the deepest point so far. -/
def Sound (depths : StackDepths) : Prop :=
  ∀ s : Nat, 0 ≤ depths.now.getD s 0 ∧ depths.now.getD s 0 ≤ depths.most.getD s 0

theorem sound_empty : Sound empty := by
  intro s
  simp [empty]

theorem getD_append_replicate {α : Type} (l : List α) (n i : Nat) (x : α) :
    (l ++ List.replicate n x).getD i x = l.getD i x := by
  simp only [List.getD_eq_getElem?_getD, List.getElem?_append, List.getElem?_replicate]
  split
  · rfl
  · rw [List.getElem?_eq_none (by omega)]
    split <;> simp

theorem now_cover (depths : StackDepths) (stack s : Nat) :
    (depths.cover stack).now.getD s 0 = depths.now.getD s 0 := getD_append_replicate ..

theorem most_cover (depths : StackDepths) (stack s : Nat) :
    (depths.cover stack).most.getD s 0 = depths.most.getD s 0 := getD_append_replicate ..

theorem getD_set {α : Type} (l : List α) (i j : Nat) (a x : α) (h : i < l.length) :
    (l.set i a).getD j x = if i = j then a else l.getD j x := by
  simp only [List.getD_eq_getElem?_getD, List.getElem?_set]
  by_cases hij : i = j
  · subst hij
    simp [h]
  · simp [hij]

/-- One instruction moves the depth of its own stack by its usage, which must not underflow, and
raises the deepest point if need be. -/
theorem step_eq_ok {depths depths' : StackDepths} {index : Nat} {i : Instruction}
    (h : depths.step index i = .ok depths') :
    ∃ stack : Nat, i.stack = stack ∧ 0 ≤ depths.now.getD stack 0 + i.op.stackUsage ∧
      (∀ s : Nat, depths'.now.getD s 0 =
        depths.now.getD s 0 + if stack = s then i.op.stackUsage else 0) ∧
      ∀ s : Nat, depths'.most.getD s 0 =
        if stack = s then
          max (depths.most.getD s 0) (depths.now.getD s 0 + i.op.stackUsage).toNat
        else depths.most.getD s 0 := by
  rw [step] at h
  split at h
  · cases h
  · rename_i stack hstack
    simp only at h
    split at h
    · cases h
    · rename_i hdepth
      cases h
      rw [now_cover, Int.not_lt] at hdepth
      have hnow : stack < (depths.cover stack).now.length := by simp [cover]; omega
      have hmost : stack < (depths.cover stack).most.length := by simp [cover]; omega
      refine ⟨stack, hstack, hdepth, ?_, ?_⟩
      · intro s
        rw [getD_set _ _ _ _ _ hnow, now_cover, now_cover]
        split
        · subst_vars
          rfl
        · simp
      · intro s
        rw [getD_set _ _ _ _ _ hmost, now_cover, most_cover, most_cover]
        split
        · subst_vars
          rfl
        · rfl

/-- The depths after a list of instructions, and room for them all along. -/
theorem after_eq_ok {instructions : List Instruction} {depths depths' : StackDepths} {index : Nat}
    (sound : depths.Sound) (h : depths.after index instructions = .ok depths') :
    depths'.Sound ∧ (∀ i ∈ instructions, 0 ≤ i.stack) ∧
      (∀ s : Nat, depths.most.getD s 0 ≤ depths'.most.getD s 0) ∧
      (∀ s : Nat, depths'.now.getD s 0 = depths.now.getD s 0 + stackDepth instructions s) ∧
      ∀ before after, instructions = before ++ after → ∀ s : Nat,
        0 ≤ depths.now.getD s 0 + stackDepth before s ∧
          depths.now.getD s 0 + stackDepth before s ≤ depths'.most.getD s 0 := by
  induction instructions generalizing depths index with
  | nil =>
    cases h
    refine ⟨sound, by simp, fun _ => le_rfl, by simp, ?_⟩
    intro before after hl s
    obtain ⟨rfl, -⟩ := List.append_eq_nil_iff.1 hl.symm
    simpa using sound s
  | cons i rest ih =>
    rw [after] at h
    obtain ⟨mid, hstep, hrest⟩ : ∃ mid, depths.step index i = .ok mid ∧
        mid.after (index + 1) rest = .ok depths' := by
      cases hm : depths.step index i with
      | error e => rw [hm] at h; cases h
      | ok mid => exact ⟨mid, rfl, by rw [hm] at h; exact h⟩
    obtain ⟨stack, hstack, hdepth, hnow, hmost⟩ := step_eq_ok hstep
    have soundMid : mid.Sound := by
      intro s
      have := sound s
      rw [hnow, hmost]
      split
      · subst_vars
        omega
      · omega
    obtain ⟨sound', hpos, hmono, hsum, hroom⟩ := ih soundMid hrest
    refine ⟨sound', ?_, ?_, ?_, ?_⟩
    · simp only [List.mem_cons, forall_eq_or_imp]
      exact ⟨by omega, hpos⟩
    · intro s
      refine le_trans ?_ (hmono s)
      rw [hmost]
      split
      · exact Nat.le_max_left ..
      · exact le_rfl
    · intro s
      rw [hsum, hnow, stackDepth_cons, hstack]
      simp [Int.add_assoc]
    · intro before after hl s
      cases before with
      | nil =>
        have h₁ := sound s
        have h₂ := hmono s
        rw [hmost] at h₂
        rw [stackDepth_nil]
        split at h₂ <;> omega
      | cons j before =>
        obtain ⟨rfl, rfl⟩ : i = j ∧ rest = before ++ after := by simpa using hl
        have := hroom before after rfl s
        rw [stackDepth_cons, hstack]
        rw [hnow] at this
        simp only [Nat.cast_inj]
        omega

end StackDepths

/-- The stacks of a pipeline never underflow, and have room for all that its instructions push. -/
structure Pipeline.Fits (p : Pipeline) : Prop where
  nonneg : ∀ i ∈ p.instructions, 0 ≤ i.stack
  room : ∀ before after, p.instructions = before ++ after → ∀ s : Nat,
    0 ≤ stackDepth before s ∧ stackDepth before s ≤ p.stackDepths.getD s 0

theorem Pipeline.fits_of_after {p : Pipeline} {depths : StackDepths}
    (h : StackDepths.empty.after 0 p.instructions = .ok depths)
    (hp : p.stackDepths = depths.most) : p.Fits := by
  obtain ⟨-, nonneg, -, -, room⟩ := StackDepths.after_eq_ok StackDepths.sound_empty h
  refine ⟨nonneg, ?_⟩
  intro before after hl s
  simpa [StackDepths.empty, hp] using room before after hl s

/-- Finished instructions fit. -/
theorem Pipeline.fits_of_ofInstructions {instructions : List Instruction}
    {valueSlots uniformSlots immutableSlots labelCount : Nat} {debugTrace : Option DebugTrace}
    {p : Pipeline}
    (h : Pipeline.ofInstructions instructions valueSlots uniformSlots immutableSlots labelCount
      debugTrace = .ok p) :
    p.Fits ∧ p.instructions = instructions ∧ p.valueSlots = valueSlots := by
  simp only [Pipeline.ofInstructions, bind, Except.bind, pure, Except.pure] at h
  split at h
  · cases h
  · rename_i depths hafter
    split at h
    · cases h
    · cases h
      exact ⟨Pipeline.fits_of_after hafter rfl, rfl, rfl⟩

/-! ## The depths of a stack machine -/

namespace StackMachine

variable {host : HostCall → Registers lanes → Registers lanes} {batch : Batch lanes}

theorem depth_replace (σ : StackMachine lanes) (s t : Int) {n : Nat}
    (ws : List (Vector UInt32 lanes)) (h : (n : Int) ≤ σ.depth s) :
    (σ.replace s n ws).depth t = σ.depth t + if t = s then (ws.length : Int) - n else 0 := by
  simp only [depth] at h ⊢
  by_cases hts : t = s
  · subst hts
    rw [stack_replace_self]
    simp
    omega
  · rw [stack_replace_of_ne σ hts]
    simp [hts]

theorem depth_push (σ : StackMachine lanes) (s t : Int) (ws : List (Vector UInt32 lanes)) :
    (σ.push s ws).depth t = σ.depth t + if t = s then (ws.length : Int) else 0 := by
  rw [push, depth_replace σ s t ws (by simp [depth])]
  simp

theorem depth_pop (σ : StackMachine lanes) (s t : Int) {n : Nat} (h : (n : Int) ≤ σ.depth s) :
    (σ.pop s n).depth t = σ.depth t + if t = s then -(n : Int) else 0 := by
  rw [pop, depth_replace σ s t [] h]
  simp

theorem depth_transform (σ : StackMachine lanes) (s t : Int) {n produced : Nat}
    {f : List (Vector UInt32 lanes) → List (Vector UInt32 lanes)}
    (hf : ∀ ws : List (Vector UInt32 lanes), ws.length = n → (f ws).length = produced)
    (h : (n : Int) ≤ σ.depth s) :
    (σ.transform s n f).depth t = σ.depth t + if t = s then (produced : Int) - n else 0 := by
  have hpeek : (σ.peek s n n).length = n :=
    σ.length_peek s le_rfl (by simp only [depth] at h; omega)
  rw [transform, depth_replace σ s t _ h, hf _ hpeek]

@[simp] theorem depth_onMemory (σ : StackMachine lanes) (f : Machine lanes → Machine lanes) :
    (σ.onMemory f).depth = σ.depth := rfl

/-- An operation that finds its operands moves the depth of its own stack by its usage, and keeps
the depths of all others. -/
theorem depth_exec (σ : StackMachine lanes) {valueSlots : Nat} {s : Int} {op : Op}
    (finds : op.Finds valueSlots σ.depth s) (t : Int) :
    (op.exec host batch s σ).depth t = σ.depth t + if t = s then op.stackUsage else 0 := by
  cases op with
  | pushClone count distance =>
    simp only [Op.exec, depth_push, Op.stackUsage]
    rw [length_peek σ s finds.1 (by simpa [depth] using finds.2)]
  | pushCloneFromStack count other distance =>
    simp only [Op.exec, depth_push, Op.stackUsage]
    rw [length_peek σ other finds.1 (by simpa [depth] using finds.2)]
  | popMask | popAndReenableLoop | mergeLoop =>
    simp only [Op.exec, Op.stackUsage]
    rw [depth_pop _ _ _ (by exact finds)]
    rfl
  | popCoords | popColor =>
    simp only [Op.exec, Op.stackUsage, setColor]
    rw [depth_pop _ _ _ (by exact finds)]
    rfl
  | discard count =>
    simp only [Op.exec, Op.stackUsage]
    rw [depth_pop _ _ _ (by exact finds)]
  | continueLoop other =>
    simp only [Op.exec, Op.stackUsage]
    rw [depth_replace _ _ _ _ (by exact finds)]
    simp
  | matchCase value =>
    simp only [Op.exec, Op.stackUsage]
    rw [depth_replace _ _ _ _ (by have : (2 : Int) ≤ σ.depth s := finds; simp; omega)]
    simp
  | unary op ty count =>
    simp only [Op.exec, Op.stackUsage]
    rw [depth_transform σ s t (fun ws h => by rw [List.length_map, h]) finds]
    simp
  | binary op ty count =>
    simp only [Op.exec, Op.stackUsage]
    rw [depth_transform σ s t (fun ws h => Words.length_combine _ h) (by exact_mod_cast finds)]
    congr 2
    omega
  | select count =>
    simp only [Op.exec, Op.stackUsage]
    rw [depth_transform σ s t (fun ws h => Words.length_combine _ h) (by exact_mod_cast finds)]
    congr 2
    omega
  | binaryImm op ty count bits slot =>
    cases slot with
    | none =>
      simp only [Op.exec, Op.stackUsage]
      rw [depth_transform σ s t (fun ws h => by rw [List.length_map, h]) finds]
      simp
    | some slot => simp [Op.exec, Op.stackUsage]
  | ternary op ty count =>
    simp only [Op.exec, Op.stackUsage]
    rw [depth_transform σ s t (fun ws _ => Words.length_combine3 count _ ws) (by exact_mod_cast finds)]
    congr 2
    omega
  | swizzle consumed count packed =>
    simp only [Op.exec, Op.stackUsage]
    rw [depth_transform σ s t (fun ws _ => Words.length_choose _ ws) finds.1]
    rw [length_unpackNybbles, Nat.min_eq_left finds.2]
  | shuffle consumed count low high =>
    have hcount := finds.2
    simp only [Op.exec, Op.stackUsage]
    rw [depth_transform σ s t (fun ws _ => Words.length_choose _ ws) finds.1]
    rw [List.length_append, length_unpackNybbles, length_unpackNybbles]
    congr 3
    omega
  | resize =>
    simp only [Op.exec, Op.stackUsage]
    rw [depth_transform σ s t (fun ws _ => Words.length_mapLanes _ _ ws) (by exact_mod_cast finds)]
  | transpose | diagonal | multiply | inverse | determinant | dot | refract =>
    simp only [Op.exec, Op.stackUsage]
    rw [depth_transform σ s t (fun ws _ => Words.length_mapLanes _ _ ws)
      (by exact_mod_cast finds)]
    norm_num
  | _ => simp [Op.exec, Op.stackUsage, depth_push, Rgba.toList]

/-- An instruction that finds its operands pops and pushes what its usage says. -/
theorem depth_steps (σ : StackMachine lanes) {τ : StackMachine lanes} {valueSlots : Nat}
    {i : Instruction} (finds : i.op.Finds valueSlots σ.depth i.stack)
    (h : Steps host batch i σ τ) (t : Int) :
    τ.depth t = σ.depth t + if t = i.stack then i.op.stackUsage else 0 := by
  obtain ⟨op, s⟩ := i
  cases op with
  | pad count =>
    obtain ⟨ws, rfl, rfl⟩ := h
    simp [depth_push, Op.stackUsage]
  | _ =>
    simp only [Steps] at h
    rw [h]
    exact depth_exec σ finds t

/-- The depths after instructions that find their operands and are all done. -/
theorem depth_runs {valueSlots : Nat} {before rest : List Instruction} {σ τ : StackMachine lanes}
    (finds : AllFind valueSlots (before ++ rest)) (hσ : σ.depth = stackDepth before)
    (h : Runs host batch rest σ τ none) : τ.depth = stackDepth (before ++ rest) := by
  induction rest generalizing before σ with
  | nil =>
    cases h
    simpa using hσ
  | cons i rest ih =>
    cases h with
    | step hfault hstep hrest =>
      rename_i σ₁
      have hσ₁ : σ₁.depth = stackDepth (before ++ [i]) := by
        funext t
        rw [depth_steps σ (by rw [hσ]; exact finds before i rest rfl) hstep t, hσ,
          stackDepth_append, stackDepth_cons, stackDepth_nil, add_zero]
        simp only [eq_comm]
      have := ih (by simpa using finds) hσ₁ hrest
      simpa using this

end StackMachine

end RasterShader
