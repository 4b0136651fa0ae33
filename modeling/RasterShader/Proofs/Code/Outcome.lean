import Mathlib
import RasterShader.Proofs.Code.Depth
import RasterShader.Proofs.Stack.Simulation

/-!
# What code does

`Code.outcome` runs code without branches on a machine with separate stacks.  Code is kept with the
latest instruction first, so the recursion follows the order in which a builder looks at it: what
an instruction does comes after the outcome of all that is behind it in the list.

A builder emits a `pad` only right after the pop of a mask, to push the same mask again.  Such a pad
has a meaning of its own (`Code.meaning`), which no longer depends on the words above the top.

Two pieces of code are the `Same` if they lead to the same depths, states and errors, and have the
same calls of the host and writes of immutable slots.  A rewrite `Improves` code if the result is
the same for all code in which every instruction finds its operands, and such code again.  Rewrites
of the latest instructions are shown on the stacks that these instructions find (`improves_front`).
-/

namespace RasterShader

variable {lanes : Nat}

namespace Code

/-! ## Outcomes -/

/-- The operation that an instruction stands for, after some code.  A pad of one word right after a
mask was popped from the same stack pushes that mask. -/
def meaning (i : Instruction) (rest : Code) : Op :=
  match i.op, rest with
  | .pad 1, ⟨.popMask mask, s⟩ :: _ => if s = i.stack then .pushMask mask else .pad 1
  | op, _ => op

/-- The state after code without branches, or the error and the state at that point. -/
def outcome (host : HostCall → Registers lanes → Registers lanes) (batch : Batch lanes)
    (σ : StackMachine lanes) : Code → StackMachine lanes × Option PipelineError
  | [] => (σ, none)
  | i :: rest =>
    match outcome host batch σ rest with
    | (τ, some e) => (τ, some e)
    | (τ, none) =>
      match i.op.fault? with
      | some e => (τ, some e)
      | none => ((meaning i rest).exec host batch i.stack τ, none)

/-- Every instruction is on a stack that there is, and finds its operands on the stacks as they are
after the code before it.  Pads only push masks again. -/
def Valid (valueSlots : Nat) : Code → Prop
  | [] => True
  | i :: rest =>
    Valid valueSlots rest ∧ 0 ≤ i.stack ∧ i.op.Finds valueSlots (stackDepth rest) i.stack ∧
      ∀ n, i.op = .pad n → n = 1 ∧ ∃ mask before, rest = ⟨.popMask mask, i.stack⟩ :: before

theorem meaning_of_ne_pad {i : Instruction} (h : ∀ n, i.op ≠ .pad n) (rest : Code) :
    meaning i rest = i.op := by
  obtain ⟨op, s⟩ := i
  cases op with
  | pad n => exact absurd rfl (h n)
  | _ => simp [meaning]

theorem meaning_pad (s : Int) (mask : Mask) (before : Code) :
    meaning ⟨.pad 1, s⟩ (⟨.popMask mask, s⟩ :: before) = .pushMask mask := by
  simp [meaning]

theorem Valid.of_allFind {valueSlots : Nat} {code : Code}
    (finds : AllFind valueSlots code.reverse) (stack : ∀ i ∈ code, 0 ≤ i.stack)
    (pad : ∀ i ∈ code, ∀ n, i.op ≠ .pad n) : Valid valueSlots code := by
  induction code with
  | nil => trivial
  | cons i rest ih =>
    rw [List.reverse_cons, allFind_concat] at finds
    have hdepth : stackDepth (List.reverse rest) = stackDepth rest := by
      funext s
      exact stackDepth_reverse rest s
    rw [hdepth] at finds
    simp only [List.mem_cons, forall_eq_or_imp] at stack pad
    exact ⟨ih finds.1 stack.2 pad.2, stack.1, finds.2, fun n hn => absurd hn (pad.1 n)⟩

variable {host : HostCall → Registers lanes → Registers lanes} {batch : Batch lanes}

/-- An instruction of valid code finds the operands of what it stands for, and moves the top as
that does. -/
theorem Valid.meaning {valueSlots : Nat} {i : Instruction} {rest : Code}
    (h : Valid valueSlots (i :: rest)) :
    (meaning i rest).Finds valueSlots (stackDepth rest) i.stack ∧
      (Code.meaning i rest).stackUsage = i.op.stackUsage := by
  obtain ⟨op, s⟩ := i
  obtain ⟨-, -, finds, hpad⟩ := h
  cases op with
  | pad n =>
    obtain ⟨rfl, mask, before, rfl⟩ := hpad n rfl
    rw [meaning_pad]
    exact ⟨trivial, rfl⟩
  | _ =>
    rw [meaning_of_ne_pad (by simp)]
    exact ⟨finds, rfl⟩

/-- Valid code leads to the depths that its instructions add up to. -/
theorem depth_outcome {valueSlots : Nat} {code : Code} (valid : Valid valueSlots code)
    {σ τ : StackMachine lanes} (empty : ∀ s, σ.stack s = [])
    (h : outcome host batch σ code = (τ, none)) : τ.depth = stackDepth code := by
  induction code generalizing τ with
  | nil =>
    cases h
    funext s
    simp [StackMachine.depth, empty]
  | cons i rest ih =>
    rw [outcome] at h
    split at h
    · cases h
    · rename_i τ₁ hrest
      split at h
      · cases h
      · cases h
        have hτ₁ := ih valid.1 hrest
        obtain ⟨finds, usage⟩ := valid.meaning
        funext t
        rw [StackMachine.depth_exec τ₁ (by rw [hτ₁]; exact finds) t, hτ₁, stackDepth_cons, usage]
        simp only [eq_comm (a := t)]
        omega

/-! ## The same code -/

/-- An operation that calls the host, writes an immutable slot, or belongs to the control flow.  No
rewrite of data touches these. -/
def isFixed : Op → Bool
  | .storeImmutable .. | .invoke _ | .label _ | .branch .. => true
  | _ => false

/-- The fixed operations of code, the latest first. -/
def fixed (code : Code) : List Op := (code.map (·.op)).filter isFixed

/-- Code leads to the same depths, states and errors from empty stacks, and has the same fixed
operations. -/
structure Same (c d : Code) : Prop where
  depth : stackDepth c = stackDepth d
  fixed : fixed c = fixed d
  outcome : ∀ {lanes : Nat} (host : HostCall → Registers lanes → Registers lanes)
    (batch : Batch lanes) (σ : StackMachine lanes), (∀ s, σ.stack s = []) →
    outcome host batch σ c = outcome host batch σ d

/-- If the second code is valid, the first one is, and does the same. -/
def Improves (valueSlots : Nat) (c d : Code) : Prop :=
  Valid valueSlots d → Valid valueSlots c ∧ Same c d

theorem Same.refl (c : Code) : Same c c := ⟨rfl, rfl, fun _ _ _ _ => rfl⟩

theorem Same.trans {c d e : Code} (h : Same c d) (h' : Same d e) : Same c e where
  depth := h.depth.trans h'.depth
  fixed := h.fixed.trans h'.fixed
  outcome := by
    intro lanes host batch σ empty
    rw [h.outcome host batch σ empty, h'.outcome host batch σ empty]

namespace Improves

variable {valueSlots : Nat} {c d e : Code}

theorem refl (c : Code) : Improves valueSlots c c := fun h => ⟨h, Same.refl c⟩

theorem trans (h : Improves valueSlots c d) (h' : Improves valueSlots d e) :
    Improves valueSlots c e := by
  intro valid
  obtain ⟨valid, same'⟩ := h' valid
  obtain ⟨valid, same⟩ := h valid
  exact ⟨valid, same.trans same'⟩

/-- Code is improved below an instruction that is no pad. -/
theorem cons {i : Instruction} (hi : ∀ n, i.op ≠ .pad n) (h : Improves valueSlots c d) :
    Improves valueSlots (i :: c) (i :: d) := by
  rintro ⟨valid, stack, finds, -⟩
  obtain ⟨valid, same⟩ := h valid
  refine ⟨⟨valid, stack, by rwa [same.depth], fun n hn => absurd hn (hi n)⟩, ?_⟩
  refine ⟨?_, ?_, ?_⟩
  · funext s
    rw [stackDepth_cons, stackDepth_cons, same.depth]
  · have := same.fixed
    simp only [Code.fixed, List.map_cons, List.filter_cons] at this ⊢
    rw [this]
  · intro lanes host batch σ empty
    rw [Code.outcome, Code.outcome, same.outcome host batch σ empty, meaning_of_ne_pad hi,
      meaning_of_ne_pad hi]

theorem append {a : Code} (ha : ∀ i ∈ a, ∀ n, i.op ≠ .pad n) (h : Improves valueSlots c d) :
    Improves valueSlots (a ++ c) (a ++ d) := by
  induction a with
  | nil => exact h
  | cons i a ih =>
    simp only [List.mem_cons, forall_eq_or_imp] at ha
    exact (ih ha.2).cons ha.1

end Improves

/-! ## Rewriting the latest instructions -/

/-- No pads, faults or fixed operations. -/
def Plain (code : Code) : Prop :=
  ∀ i ∈ code, (∀ n, i.op ≠ .pad n) ∧ i.op.fault? = none ∧ isFixed i.op = false

/-- Given instructions are seen to be plain one by one. -/
theorem plain_of_all {code : Code}
    (h : (code.all fun i => !(i.op matches .pad _) && i.op.fault?.isNone && !isFixed i.op) = true) :
    Plain code := by
  intro i hi
  have hplain := List.all_eq_true.1 h i hi
  simp only [Bool.and_eq_true, Bool.not_eq_true', Option.isNone_iff_eq_none] at hplain
  obtain ⟨⟨hpad, hfault⟩, hfixed⟩ := hplain
  refine ⟨fun n hn => ?_, hfault, hfixed⟩
  rw [hn] at hpad
  cases hpad

/-- What plain code does. -/
def execs (host : HostCall → Registers lanes → Registers lanes) (batch : Batch lanes)
    (τ : StackMachine lanes) : Code → StackMachine lanes
  | [] => τ
  | i :: rest => i.op.exec host batch i.stack (execs host batch τ rest)

theorem outcome_append {a : Code} (plain : Plain a) (rest : Code) (σ : StackMachine lanes) :
    outcome host batch σ (a ++ rest) =
      match outcome host batch σ rest with
      | (τ, some e) => (τ, some e)
      | (τ, none) => (execs host batch τ a, none) := by
  induction a with
  | nil =>
    rw [List.nil_append]
    split <;> assumption
  | cons i a ih =>
    simp only [Plain, List.mem_cons, forall_eq_or_imp] at plain
    obtain ⟨⟨hpad, hfault, -⟩, plain⟩ := plain
    rw [List.cons_append, outcome, ih plain, hfault, meaning_of_ne_pad hpad]
    obtain ⟨τ, e⟩ := outcome host batch σ rest
    cases e <;> rfl

theorem fixed_append {a : Code} (plain : Plain a) (rest : Code) :
    fixed (a ++ rest) = fixed rest := by
  have hnone : (a.map (·.op)).filter isFixed = [] := by
    rw [List.filter_eq_nil_iff]
    intro op hop
    obtain ⟨i, hi, rfl⟩ := List.mem_map.1 hop
    simp [(plain i hi).2.2]
  rw [fixed, List.map_append, List.filter_append, hnone, List.nil_append]
  rfl

/-- The latest instructions are rewritten to others that do the same to the stacks they find. -/
theorem improves_front {valueSlots : Nat} {a b rest : Code} (ha : Plain a) (hb : Plain b)
    (depth : ∀ t, stackDepth a t = stackDepth b t)
    (h : Valid valueSlots (b ++ rest) → Valid valueSlots (a ++ rest) ∧
      ∀ {lanes : Nat} (host : HostCall → Registers lanes → Registers lanes) (batch : Batch lanes)
        (τ : StackMachine lanes), τ.depth = stackDepth rest →
        execs host batch τ a = execs host batch τ b) :
    Improves valueSlots (a ++ rest) (b ++ rest) := by
  intro valid
  have validRest : Valid valueSlots rest := by
    clear h hb depth
    induction b with
    | nil => exact valid
    | cons i b ih => exact ih valid.1
  obtain ⟨valid', hexec⟩ := h valid
  refine ⟨valid', ?_, ?_, ?_⟩
  · funext t
    rw [stackDepth_append, stackDepth_append, depth]
  · rw [fixed_append ha, fixed_append hb]
  · intro lanes host batch σ empty
    rw [outcome_append ha, outcome_append hb]
    split
    · rfl
    · rename_i τ hτ
      rw [hexec host batch τ (depth_outcome validRest empty hτ)]

end Code

end RasterShader
