import Mathlib
import RasterShader.Proofs.Code.Outcome

/-!
# Finishing, lowering and running valid code

Valid code without branches and labels can be finished if it leaves the stacks empty
(`Code.ofInstructions_eq_ok`), and lowered if the host takes the calls it makes and the immutable
slots it writes are there (`Code.lower_eq_ok`).  The stages then run as `Code.outcome` says
(`Code.runFrom_lowered`).

The machine keeps words above the top of a stack as they are, so after a mask was popped its word
is still there.  The induction along the code carries this one fact about words above the top;
it is what makes a pad push the mask again.
-/

namespace RasterShader

variable {lanes : Nat}

/-! ## Depths while finishing -/

/-- An operation that finds its operands leaves at least an empty stack. -/
theorem Op.Finds.usage_nonneg {valueSlots : Nat} {depth : Int → Int} {s : Int} {op : Op}
    (finds : op.Finds valueSlots depth s) (h : 0 ≤ depth s) : 0 ≤ depth s + op.stackUsage := by
  cases op with
  | binaryImm op ty count bits slot => simpa [Op.stackUsage] using h
  | branch condition label => simpa [Op.stackUsage] using h
  | multiply left right =>
    have hproduct : (0 : Int) ≤ right.columns * left.rows := by positivity
    simp only [Op.Finds, Op.stackUsage] at finds ⊢
    omega
  | _ =>
    simp only [Op.Finds, Op.stackUsage] at finds ⊢
    omega

namespace StackDepths

theorem after_append (depths : StackDepths) (index : Nat) (first rest : List Instruction) :
    depths.after index (first ++ rest) =
      (depths.after index first).bind (·.after (index + first.length) rest) := by
  induction first generalizing depths index with
  | nil => rfl
  | cons i first ih =>
    simp only [List.cons_append, after, bind, Except.bind]
    cases depths.step index i with
    | error e => rfl
    | ok mid =>
      simp only [ih, List.length_cons]
      rw [Nat.add_assoc, Nat.add_comm 1]
      rfl

/-- An instruction on a stack that does not underflow. -/
theorem step_ok {depths : StackDepths} (index : Nat) {i : Instruction} {s : Nat}
    (hs : i.stack = s) (h : 0 ≤ depths.now.getD s 0 + i.op.stackUsage) :
    ∃ depths', depths.step index i = .ok depths' := by
  rw [step, hs]
  simp only [now_cover]
  rw [if_neg (by omega)]
  exact ⟨_, rfl⟩

/-- Depths are balanced if no stack holds a word. -/
theorem balanced_eq_ok_iff {depths : StackDepths} :
    depths.balanced = .ok () ↔ ∀ s : Nat, depths.now.getD s 0 = 0 := by
  constructor
  · intro h s
    rw [balanced] at h
    split at h
    · cases h
    · rename_i hnone
      rw [List.find?_eq_none] at hnone
      by_cases hs : s < depths.now.length
      · have := hnone (depths.now[s], s) (List.mk_mem_zipIdx_iff_getElem?.2 (by simp [hs]))
        rw [List.getD_eq_getElem _ _ hs]
        simpa using this
      · rw [List.getD_eq_default _ _ (by omega)]
  · intro h
    rw [balanced]
    split
    · rename_i depth s hsome
      have hmem := List.mk_mem_zipIdx_iff_getElem?.1 (List.mem_of_find?_eq_some hsome)
      have hne := List.find?_some hsome
      have := h s
      rw [List.getD_eq_getElem?_getD, hmem, Option.getD_some] at this
      simp [this] at hne
    · rfl

end StackDepths

namespace Code

variable {valueSlots : Nat} {code : Code}

/-- Valid code has depths, which are those its instructions add up to. -/
theorem Valid.after_eq_ok (valid : Valid valueSlots code) :
    ∃ depths, StackDepths.empty.after 0 code.reverse = .ok depths ∧
      ∀ s : Nat, depths.now.getD s 0 = stackDepth code s ∧ 0 ≤ stackDepth code s := by
  induction code with
  | nil => exact ⟨_, rfl, by simp [StackDepths.empty]⟩
  | cons i rest ih =>
    obtain ⟨valid, hstack, finds, -⟩ := valid
    obtain ⟨depths, hdepths, hnow⟩ := ih valid
    obtain ⟨s, hs⟩ := Int.eq_ofNat_of_zero_le hstack
    rw [hs] at finds
    have hnonneg := finds.usage_nonneg (hnow s).2
    rw [← (hnow s).1] at hnonneg
    obtain ⟨depths', hdepths'⟩ := StackDepths.step_ok (0 + rest.reverse.length) hs hnonneg
    have hafter : StackDepths.empty.after 0 (i :: rest).reverse = .ok depths' := by
      rw [List.reverse_cons, StackDepths.after_append, hdepths]
      simp only [Except.bind, StackDepths.after, hdepths', bind]
    obtain ⟨sound, -, -, hsum, -⟩ := StackDepths.after_eq_ok StackDepths.sound_empty hafter
    have hnow' : ∀ t : Nat, depths'.now.getD t 0 = stackDepth (i :: rest) t := by
      intro t
      rw [hsum, stackDepth_reverse]
      simp [StackDepths.empty]
    refine ⟨depths', hafter, fun t => ⟨hnow' t, ?_⟩⟩
    rw [← hnow']
    exact (sound t).1

/-- Valid code that leaves the stacks empty can be finished. -/
theorem Valid.ofInstructions_eq_ok (valid : Valid valueSlots code)
    (uniformSlots immutableSlots labelCount : Nat) (debugTrace : Option DebugTrace) :
    (∃ p, Pipeline.ofInstructions code.reverse valueSlots uniformSlots immutableSlots labelCount
      debugTrace = .ok p) ↔ ∀ s : Nat, stackDepth code s = 0 := by
  obtain ⟨depths, hafter, hnow⟩ := valid.after_eq_ok
  simp only [Pipeline.ofInstructions, hafter, bind, Except.bind, pure, Except.pure]
  rw [show (∀ s : Nat, stackDepth code s = 0) ↔ depths.balanced = .ok () by
    simp only [StackDepths.balanced_eq_ok_iff, (hnow _).1]]
  cases depths.balanced with
  | error e => simp
  | ok u => simp

end Code

/-! ## What lowering asks for -/

/-- Lowering can do what an operation asks for: the immutable slot is there, or the host takes the
call. -/
def Op.Accepted (p : Pipeline) (host : Option Host) : Op → Prop
  | .storeImmutable slot _ => slot < p.immutableSlots
  | .invoke call => (Host.stages? host call).isSome
  | _ => True

theorem Op.Accepted.of_immutableSlots {p q : Pipeline} {host : Option Host} {op : Op}
    (h : p.immutableSlots = q.immutableSlots) (accepted : op.Accepted q host) :
    op.Accepted p host := by
  cases op with
  | storeImmutable slot bits =>
    have accepted : slot < q.immutableSlots := accepted
    show slot < p.immutableSlots
    omega
  | _ => exact accepted

/-- The immutable words after an operation. -/
def Op.writeImmutable (words : Array UInt32) : Op → Array UInt32
  | .storeImmutable slot bits => words.setIfInBounds slot bits
  | _ => words

theorem Op.size_writeImmutable (op : Op) (words : Array UInt32) :
    (op.writeImmutable words).size = words.size := by
  cases op with
  | storeImmutable slot bits => exact Array.size_setIfInBounds
  | _ => rfl

namespace Lowering

variable {p : Pipeline}

theorem immutable_emitHost (L : Lowering) (stages : List Stage) :
    (L.emitHost stages).immutable = L.immutable := by
  have : (stages.foldl emit L).immutable = L.immutable := by
    induction stages generalizing L with
    | nil => rfl
    | cons stage stages ih => exact ih (L.emit stage)
  exact this

/-- Lowering an operation writes the immutable slot that it stores to, and no other. -/
theorem immutable_lowerOp {host : Option Host} {tailCalls : Bool} {L L' : Lowering}
    {i : Instruction} (h : L.lowerOp p host tailCalls i = .ok L') :
    L'.immutable = i.op.writeImmutable L.immutable := by
  obtain ⟨op, s⟩ := i
  cases op with
  | storeImmutable | label =>
    simp only [lowerOp] at h
    split at h
    · cases h
      rfl
    · cases h
  | branch condition label =>
    obtain rfl := Except.ok.inj h
    show (if _ then L.rewind else L).immutable = L.immutable
    split <;> rfl
  | invoke call =>
    have hinvoked : ∃ stages, L' = L.emitHost stages := by
      simp only [lowerOp] at h
      split at h
      · cases h
      · split at h
        · exact ⟨_, (Except.ok.inj h).symm⟩
        · cases h
      · exact ⟨_, (Except.ok.inj h).symm⟩
      · exact ⟨_, (Except.ok.inj h).symm⟩
    obtain ⟨stages, rfl⟩ := hinvoked
    exact immutable_emitHost L stages
  | _ =>
    simp only [lowerOp] at h
    split at h <;> cases h <;> rfl

theorem immutable_lowerInstruction {host : Option Host} {tailCalls : Bool} {L L' : Lowering}
    {i : Instruction} (h : L.lowerInstruction p host tailCalls i = .ok L') :
    L'.immutable = i.op.writeImmutable L.immutable := by
  simp only [lowerInstruction, bind, Except.bind, pure, Except.pure] at h
  split at h
  · cases h
  · rename_i L₁ hop
    cases h
    have himmutable := immutable_lowerOp hop
    split at himmutable <;> exact himmutable

/-- A lowering writes the immutable slots that its instructions store to, in order. -/
theorem immutable_foldlM {host : Option Host} {tailCalls : Bool} {instructions : List Instruction}
    {L L' : Lowering}
    (h : instructions.foldlM (·.lowerInstruction p host tailCalls ·) L = .ok L') :
    L'.immutable = instructions.foldl (fun words i => i.op.writeImmutable words) L.immutable := by
  induction instructions generalizing L with
  | nil =>
    cases h
    rfl
  | cons i rest ih =>
    rw [List.foldlM_cons] at h
    cases hi : L.lowerInstruction p host tailCalls i with
    | error e => simp [hi, bind, Except.bind] at h
    | ok L₁ =>
      rw [hi] at h
      rw [ih h, immutable_lowerInstruction hi, List.foldl_cons]

theorem size_immutable_foldlM {host : Option Host} {tailCalls : Bool}
    {instructions : List Instruction} {L L' : Lowering}
    (h : instructions.foldlM (·.lowerInstruction p host tailCalls ·) L = .ok L') :
    L'.immutable.size = L.immutable.size := by
  rw [immutable_foldlM h]
  clear h
  generalize L.immutable = words
  induction instructions generalizing words with
  | nil => rfl
  | cons i rest ih => rw [List.foldl_cons, ih, Op.size_writeImmutable]

/-- An operation without control flow is lowered if it is accepted. -/
theorem lowerOp_iff (host : Option Host) (tailCalls : Bool) {L : Lowering} {i : Instruction}
    (hbranch : i.op.branchTarget? = none) (hlabel : ∀ label, i.op ≠ .label label)
    (hsize : L.immutable.size = p.immutableSlots) :
    i.op.Accepted p host ↔ ∃ L', L.lowerOp p host tailCalls i = .ok L' := by
  obtain ⟨op, s⟩ := i
  cases op with
  | branch => simp [Op.branchTarget?] at hbranch
  | label label => exact absurd rfl (hlabel label)
  | storeImmutable slot bits =>
    simp only [lowerOp, Op.Accepted, hsize]
    split <;> simp [*]
  | invoke call =>
    have hiff : ∀ stages, Host.stages? host call = some stages →
        L.lowerOp p host tailCalls ⟨.invoke call, s⟩ = .ok (L.emitHost stages) := by
      intro stages hstages
      cases host with
      | none => cases call <;> simp [Host.stages?] at hstages
      | some host =>
        cases call with
        | child kind index =>
          have hchild : host.child kind index = some stages := hstages
          simp only [lowerOp, hchild]
        | toLinearSrgb | fromLinearSrgb =>
          cases hstages
          rfl
    constructor
    · intro h
      obtain ⟨stages, hstages⟩ := Option.isSome_iff_exists.1 h
      exact ⟨_, hiff stages hstages⟩
    · rintro ⟨L', h⟩
      exact (lowerOp_eq_ok rfl h).2.2 call rfl
  | _ =>
    simp only [lowerOp, Op.Accepted, true_iff]
    split <;> exact ⟨_, rfl⟩

/-- An instruction without control flow is lowered if its operation is accepted. -/
theorem lowerInstruction_iff (host : Option Host) (tailCalls : Bool) {L : Lowering}
    {i : Instruction}
    (hbranch : i.op.branchTarget? = none) (hlabel : ∀ label, i.op ≠ .label label)
    (hsize : L.immutable.size = p.immutableSlots) :
    i.op.Accepted p host ↔ ∃ L', L.lowerInstruction p host tailCalls i = .ok L' := by
  simp only [lowerInstruction, bind, Except.bind, pure, Except.pure]
  obtain ⟨L₀, hstart⟩ : ∃ L₀, L₀ = if (!tailCalls &&
      decide (rewindInterval ≤ L.emitted.size - L.lastRewind)) = true then L.rewind else L := ⟨_, rfl⟩
  rw [← hstart]
  have himmutable : L₀.immutable = L.immutable := by
    subst hstart
    split <;> rfl
  rw [← himmutable] at hsize
  rw [lowerOp_iff host tailCalls hbranch hlabel hsize]
  cases hop : L₀.lowerOp p host tailCalls i with
  | error e => simp
  | ok L₁ => simp

end Lowering

namespace Code

variable {p : Pipeline} {host : Option Host} {tailCalls : Bool} {code : Code}

theorem accepted_of_not_isFixed (p : Pipeline) (host : Option Host) {op : Op}
    (h : isFixed op = false) : op.Accepted p host := by
  cases op with
  | storeImmutable | invoke => simp [isFixed] at h
  | _ => trivial

theorem writeImmutable_of_not_isFixed {op : Op} (h : isFixed op = false) (words : Array UInt32) :
    op.writeImmutable words = words := by
  cases op with
  | storeImmutable => simp [isFixed] at h
  | _ => rfl

/-- Only fixed operations write immutable words. -/
theorem foldr_fixed (words : Array UInt32) :
    (fixed code).foldr (fun op words => op.writeImmutable words) words =
      code.foldr (fun i words => i.op.writeImmutable words) words := by
  rw [fixed, List.foldr_filter, List.foldr_map]
  congr 1
  funext i words
  cases hi : isFixed i.op with
  | true => rfl
  | false => exact (writeImmutable_of_not_isFixed hi words).symm

/-- Code without control flow is lowered if its fixed operations are accepted. -/
theorem foldlM_lower_iff (p : Pipeline) (host : Option Host) (tailCalls : Bool)
    (straight : ∀ i ∈ code, i.op.branchTarget? = none ∧ ∀ label, i.op ≠ .label label) :
    (∀ op ∈ fixed code, op.Accepted p host) ↔
      ∃ L, code.reverse.foldlM (·.lowerInstruction p host tailCalls ·) (Lowering.start p) =
        .ok L := by
  induction code with
  | nil => simp [fixed, pure, Except.pure]
  | cons i rest ih =>
    simp only [List.mem_cons, forall_eq_or_imp] at straight
    obtain ⟨⟨hbranch, hlabel⟩, straight⟩ := straight
    have haccepted := ih straight
    have hmem : (∀ op ∈ fixed (i :: rest), op.Accepted p host) ↔
        i.op.Accepted p host ∧ ∀ op ∈ fixed rest, op.Accepted p host := by
      simp only [fixed, List.map_cons, List.filter_cons]
      cases hi : isFixed i.op with
      | true => simp
      | false => simp [accepted_of_not_isFixed p host hi]
    rw [hmem, List.reverse_cons]
    simp only [List.foldlM_append, List.foldlM_cons, List.foldlM_nil, bind_pure]
    cases hrest : rest.reverse.foldlM (·.lowerInstruction p host tailCalls ·)
        (Lowering.start p) with
    | error e =>
      rw [hrest] at haccepted
      have hno : ¬ ∀ op ∈ fixed rest, op.Accepted p host := by simp [haccepted]
      simp [hno, bind, Except.bind]
    | ok L =>
      have hsize : L.immutable.size = p.immutableSlots :=
        (Lowering.size_immutable_foldlM hrest).trans Array.size_replicate
      rw [hrest] at haccepted
      rw [and_iff_left (haccepted.2 ⟨L, rfl⟩)]
      exact Lowering.lowerInstruction_iff host tailCalls hbranch hlabel hsize

/-! ## Running -/

/-- After code that pops a mask, the word of the mask is still above the top. -/
def Remembers (p : Pipeline) (m : Machine lanes) (σ : StackMachine lanes) (code : Code) : Prop :=
  ∀ (mask : Mask) (s : Nat) (before : Code), code = ⟨.popMask mask, s⟩ :: before →
    m.slot (p.stackBase s + (σ.stack s).length) = m.mask mask

theorem Remembers.of_ne {m : Machine lanes} {σ : StackMachine lanes} {i : Instruction}
    {rest : Code} (h : ∀ mask, i.op ≠ .popMask mask) : Remembers p m σ (i :: rest) := by
  rintro mask s before heq
  obtain ⟨rfl, -⟩ := List.cons.inj heq
  exact absurd rfl (h mask)

/-- The stage that pops a mask leaves its word where it is. -/
theorem Remembers.popMask {m m' : Machine lanes} {σ : StackMachine lanes} {mask : Mask} {s : Nat}
    {rest : Code} {L : Lowering} {batch : Batch lanes} (hlen : 1 ≤ (σ.stack s).length)
    (htop : L.topOf p s = p.stackBase s + (σ.stack s).length)
    (h : m.runStages batch (L.stagesOf p host ⟨.popMask mask, s⟩) = (m', none)) :
    Remembers p m' ((Op.popMask mask).exec (Host.effect host) batch s σ)
      (⟨.popMask mask, s⟩ :: rest) := by
  have hstage : L.stagesOf p host ⟨.popMask mask, s⟩ = [.loadMask mask (L.topOf p s - 1)] := rfl
  rw [hstage] at h
  simp only [Machine.runStages, Machine.step] at h
  split at h
  · simp at h
  · rename_i heq
    split at heq
    · cases heq
    · obtain ⟨rfl, -⟩ := Prod.mk.inj heq
      obtain ⟨rfl, -⟩ := Prod.mk.inj h
      rintro mask' s' before heq'
      obtain ⟨hinstruction, -⟩ := List.cons.inj heq'
      obtain ⟨hmask, hs⟩ := Instruction.mk.inj hinstruction
      obtain rfl := Op.popMask.inj hmask
      obtain rfl : s = s' := by exact_mod_cast hs
      have hpop : (((Op.popMask mask).exec (Host.effect host) batch s σ).stack s).length =
          (σ.stack s).length - 1 := by
        simp [Op.exec, StackMachine.pop, StackMachine.stack_replace_self]
      rw [hpop, htop, Nat.add_sub_assoc hlen]
      cases mask <;> rfl

/-- The stages of the latest instruction of valid code do what the instruction stands for. -/
theorem simulates_last {after : List Instruction} {L : Lowering} {i : Instruction} {rest : Code}
    (fits : p.Fits) (hp : p.instructions = rest.reverse ++ i :: after)
    (counts : Lowering.Counts p L rest.reverse) (hbranch : i.op.branchTarget? = none)
    (valid : Valid p.valueSlots (i :: rest)) (own : Host.OwnStages host)
    (takes : ∀ call, i.op = .invoke call → (Host.stages? host call).isSome)
    (batch : Batch lanes) {m : Machine lanes} {τ : StackMachine lanes} (lay : LaidOut p m τ)
    (hτ : τ.depth = stackDepth rest.reverse) (remembers : Remembers p m τ rest) :
    let result := m.runStages batch (L.stagesOf p host i)
    let expected := match i.op.fault? with
      | some e => (τ, some e)
      | none => ((meaning i rest).exec (Host.effect host) batch i.stack τ, none)
    result.2 = expected.2 ∧ LaidOut p result.1 expected.1 ∧
      (result.2 = none → Remembers p result.1 expected.1 (i :: rest)) := by
  obtain ⟨op, stack⟩ := i
  obtain ⟨-, hstack, finds, hpad⟩ := valid
  obtain ⟨s, hs⟩ := Int.eq_ofNat_of_zero_le hstack
  obtain rfl : stack = s := hs
  by_cases hop : ∃ n, op = .pad n
  · -- the word above the top is the mask that was popped
    obtain ⟨n, rfl⟩ := hop
    obtain ⟨rfl, mask, before, rfl⟩ := hpad n rfl
    have hroom := (fits.room (List.reverse (⟨.popMask mask, (s : Int)⟩ :: before) ++ [⟨.pad 1, s⟩]) after
      (by simpa using hp) s).2
    rw [stackDepth_append, stackDepth_cons_self, stackDepth_nil, add_zero, ← hτ] at hroom
    have hroom : (τ.stack s).length + 1 ≤ p.stackDepths.getD s 0 := by
      simp only [StackMachine.depth, Op.stackUsage] at hroom
      omega
    have hwindow : m.window (p.stackBase s + (τ.stack s).length) 1 = [τ.memory.mask mask] := by
      rw [← lay.mask, ← remembers mask s before rfl]
      rfl
    have hpush := lay.push s (m.window (p.stackBase s + (τ.stack s).length) 1)
      (by rw [Machine.length_window]; exact hroom)
    rw [Machine.overwrite_window, hwindow] at hpush
    simp only [meaning_pad]
    exact ⟨rfl, hpush, fun _ => Remembers.of_ne (by simp)⟩
  · have hne : ∀ n, op ≠ .pad n := fun n hn => hop ⟨n, hn⟩
    have hdepth : stackDepth rest.reverse = stackDepth rest := by
      funext t
      exact stackDepth_reverse rest t
    rw [← hdepth] at finds
    rw [meaning_of_ne_pad hne]
    rcases Lowering.simulates fits hp counts hbranch finds own takes batch lay hτ with
      ⟨e, hfault, hrun⟩ | ⟨hfault, m₁, τ₁, hrun, hstep, lay₁⟩
    · simp only [hrun, hfault]
      exact ⟨trivial, lay, by simp⟩
    · have hτ₁ : τ₁ = op.exec (Host.effect host) batch s τ := by
        cases op with
        | pad n => exact absurd rfl (hne n)
        | _ => exact hstep
      subst hτ₁
      simp only [hrun, hfault]
      refine ⟨trivial, lay₁, fun _ => ?_⟩
      by_cases hmask : ∃ mask, op = .popMask mask
      · obtain ⟨mask, rfl⟩ := hmask
        have hlen : (1 : Int) ≤ stackDepth rest.reverse s := finds
        rw [← hτ] at hlen
        exact Remembers.popMask (by simpa [StackMachine.depth] using hlen) (counts.topOf hτ s) hrun
      · exact Remembers.of_ne fun mask h => hmask ⟨mask, h⟩

/-- Valid code is lowered to a row of stages, which leads to the outcome of the code. -/
theorem simulates {after : List Instruction} {L : Lowering} (fits : p.Fits)
    (hp : p.instructions = code.reverse ++ after) (valid : Valid p.valueSlots code)
    (straight : ∀ i ∈ code, i.op.branchTarget? = none) (own : Host.OwnStages host)
    (h : code.reverse.foldlM (·.lowerInstruction p host tailCalls ·) (Lowering.start p) = .ok L) :
    ∃ row : List Stage, L.emitted.toList = row.map .stage ∧
      (∀ stage ∈ row, stage.isBranch = false) ∧ Lowering.Counts p L code.reverse ∧
      ∀ {lanes : Nat} (batch : Batch lanes) {m : Machine lanes} {σ : StackMachine lanes},
        LaidOut p m σ → (∀ s, σ.stack s = []) →
        (m.runStages batch row).2 = (outcome (Host.effect host) batch σ code).2 ∧
        LaidOut p (m.runStages batch row).1 (outcome (Host.effect host) batch σ code).1 ∧
        ((m.runStages batch row).2 = none → Remembers p (m.runStages batch row).1
          (outcome (Host.effect host) batch σ code).1 code) := by
  induction code generalizing L after with
  | nil =>
    cases h
    refine ⟨[], rfl, by simp, Lowering.counts_start p, ?_⟩
    intro lanes batch m σ lay _
    refine ⟨rfl, lay, ?_⟩
    rintro - mask s before hcode
    cases hcode
  | cons i rest ih =>
    rw [List.reverse_cons] at hp h
    simp only [List.foldlM_append, List.foldlM_cons, List.foldlM_nil, bind_pure] at h
    obtain ⟨L₀, hL₀, hi⟩ : ∃ L₀, rest.reverse.foldlM (·.lowerInstruction p host tailCalls ·)
        (Lowering.start p) = .ok L₀ ∧ L₀.lowerInstruction p host tailCalls i = .ok L := by
      simp only [bind, Except.bind] at h
      split at h
      · cases h
      · rename_i L₀ hL₀
        exact ⟨L₀, hL₀, h⟩
    have hp₁ : p.instructions = rest.reverse ++ i :: after := by simpa using hp
    have hbranch := straight i (List.mem_cons_self ..)
    obtain ⟨row, hrow, hrowBranch, counts, sim⟩ := ih hp₁ valid.1
      (fun j hj => straight j (List.mem_cons_of_mem _ hj)) hL₀
    obtain ⟨rewinds, hrewinds, hemitted, hdepths, takes⟩ :=
      Lowering.lowerInstruction_eq_ok hbranch hi
    have hcounts := counts.moveTop fits hp₁
    refine ⟨row ++ (rewinds ++ L₀.stagesOf p host i), ?_, ?_, ?_, ?_⟩
    · rw [hemitted, hrow, ← List.map_append]
    · intro stage hstage
      simp only [List.mem_append] at hstage
      rcases hstage with hstage | hstage | hstage
      · exact hrowBranch stage hstage
      · rw [hrewinds stage hstage]
        rfl
      · exact Lowering.isBranch_stagesOf own stage hstage
    · rw [List.reverse_cons]
      exact ⟨by rw [hdepths]; exact hcounts.length, fun s => by rw [hdepths]; exact hcounts.depth s⟩
    · intro lanes batch m σ lay empty
      obtain ⟨herror, lay₀, remembers⟩ := sim batch lay empty
      rw [Machine.runStages_append, outcome]
      rcases hrun₀ : m.runStages batch row with ⟨m₀, e₀⟩
      rcases hout : outcome (Host.effect host) batch σ rest with ⟨τ, e⟩
      simp only [hrun₀, hout] at herror lay₀ remembers
      subst herror
      cases e₀ with
      | some e => exact ⟨rfl, lay₀, by simp⟩
      | none =>
        have hdepth : stackDepth rest.reverse = stackDepth rest := by
          funext s
          exact stackDepth_reverse rest s
        have hτ : τ.depth = stackDepth rest.reverse := by
          rw [hdepth, depth_outcome valid.1 empty hout]
        simp only [Lowering.runStages_rewinds batch hrewinds]
        exact simulates_last fits hp₁ counts hbranch valid own takes batch lay₀ hτ (remembers rfl)

/-- A lowering that has emitted a row of stages is resolved to it. -/
theorem lower_eq_of_foldlM {L : Lowering} {row : List Stage}
    (h : p.instructions.foldlM (·.lowerInstruction p host tailCalls ·) (Lowering.start p) = .ok L)
    (hrow : L.emitted.toList = row.map .stage) :
    p.lower host tailCalls =
      .ok ⟨row.toArray, L.emitted.map Emitted.label?, L.immutable⟩ := by
  simp only [Pipeline.lower, Pipeline.lowerFrom, h, bind, Except.bind, pure, Except.pure, hrow]
  rw [Pipeline.mapM_resolve]

/-- Valid code without control flow is lowered if its fixed operations are accepted, and the stages
lead to the outcome of the code. -/
theorem runFrom_lowered (tailCalls : Bool) (fits : p.Fits) (hp : p.instructions = code.reverse)
    (valid : Valid p.valueSlots code)
    (straight : ∀ i ∈ code, i.op.branchTarget? = none ∧ ∀ label, i.op ≠ .label label)
    (own : Host.OwnStages host) :
    ((∃ lowered, p.lower host tailCalls = .ok lowered) ↔
      ∀ op ∈ fixed code, op.Accepted p host) ∧
    ∀ lowered, p.lower host tailCalls = .ok lowered →
      lowered.immutable = (fixed code).foldr (fun op words => op.writeImmutable words)
        (Array.replicate p.immutableSlots 0) ∧
      ∀ {lanes : Nat} (batch : Batch lanes) {m : Machine lanes} {σ : StackMachine lanes} {fuel : Nat},
        LaidOut p m σ → (∀ s, σ.stack s = []) → lowered.stages.size ≤ fuel →
        (Machine.runFrom lowered.stages batch fuel 0 m).2 =
          (outcome (Host.effect host) batch σ code).2 ∧
        LaidOut p (Machine.runFrom lowered.stages batch fuel 0 m).1
          (outcome (Host.effect host) batch σ code).1 := by
  have haccepted := foldlM_lower_iff p host tailCalls straight
  have hbranch : ∀ i ∈ code, i.op.branchTarget? = none := fun i hi => (straight i hi).1
  have hp' : p.instructions = code.reverse ++ [] := by rw [hp, List.append_nil]
  rw [← hp] at haccepted
  refine ⟨?_, ?_⟩
  · rw [haccepted]
    constructor
    · rintro ⟨lowered, h⟩
      obtain ⟨L, hL, -⟩ := Pipeline.lower_eq_ok h
      exact ⟨L, hL⟩
    · rintro ⟨L, hL⟩
      obtain ⟨row, hrow, -⟩ := simulates fits hp' valid hbranch own (hp ▸ hL)
      exact ⟨_, lower_eq_of_foldlM hL hrow⟩
  · intro lowered h
    obtain ⟨L, hL, -⟩ := Pipeline.lower_eq_ok h
    obtain ⟨row, hrow, hrowBranch, -, sim⟩ := simulates fits hp' valid hbranch own (hp ▸ hL)
    rw [lower_eq_of_foldlM hL hrow] at h
    cases h
    have himmutable := Lowering.immutable_foldlM hL
    rw [hp, List.foldl_reverse] at himmutable
    refine ⟨himmutable.trans (foldr_fixed _).symm, ?_⟩
    intro lanes batch m σ fuel lay empty hfuel
    obtain ⟨herror, lay', -⟩ := sim batch lay empty
    rw [Machine.runFrom_eq_runStages batch hrowBranch hfuel]
    exact ⟨herror, lay'⟩

end Code

end RasterShader
