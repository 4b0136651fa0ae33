import Mathlib
import RasterShader.Machine.Run
import RasterShader.Proofs.Stack.Depth
import RasterShader.Proofs.Stack.Footprint
import RasterShader.Proofs.Stack.Lowering

/-!
# Lowered instructions run as on separate stacks

A pipeline without branches is lowered to stages that are run one after the other
(`Machine.runStages`).  Each instruction becomes a run of stages of its own
(`Lowering.stagesOf`), perhaps after a rewind.  The machine that runs them holds, after each
instruction, what the stack machine has at that point: `Lowering.simulates` is the step,
`Lowering.simulates_list` the induction along the instructions.

The depths that the lowering counts are those of the stacks (`Lowering.Counts`), so the slots that
it gives to an operation are those where the operands are.

Hosts are asked for stages of their own, which work on the color registers and nothing else
(`Host.OwnStages`).
-/

namespace RasterShader

variable {lanes : Nat}

/-! ## Stages in a row -/

namespace Machine

/-- Runs stages one after the other, until one of them cannot run. -/
def runStages (batch : Batch lanes) :
    List Stage → Machine lanes → Machine lanes × Option PipelineError
  | [], m => (m, none)
  | stage :: rest, m =>
    match m.step batch stage with
    | (m, some e) => (m, some e)
    | (m, none) => runStages batch rest m

theorem runStages_append (batch : Batch lanes) (first rest : List Stage) (m : Machine lanes) :
    runStages batch (first ++ rest) m =
      match runStages batch first m with
      | (m, some e) => (m, some e)
      | (m, none) => runStages batch rest m := by
  induction first generalizing m with
  | nil => rfl
  | cons stage first ih =>
    simp only [List.cons_append, runStages]
    split
    · rfl
    · exact ih _

/-- A stage that is no branch is followed by the next one. -/
theorem runFrom_stage (batch : Batch lanes) {stages : Array Stage} {stage : Stage} {place : Nat}
    (h : stages[place]? = some stage) (straight : stage.isBranch = false) (fuel : Nat)
    (m : Machine lanes) :
    runFrom stages batch (fuel + 1) place m =
      match m.step batch stage with
      | (m, some e) => (m, some e)
      | (m, none) => runFrom stages batch fuel (place + 1) m := by
  rw [runFrom]
  simp only [h]
  cases stage with
  | branch => simp [Stage.isBranch] at straight
  | _ => rfl

/-- A row of stages without branches within a program is run to its end, and then the program goes
on after it. -/
theorem runFrom_row (batch : Batch lanes) {stages : Array Stage} {before row after : List Stage}
    (h : stages.toList = before ++ row ++ after) (straight : ∀ stage ∈ row, stage.isBranch = false)
    (fuel : Nat) (m : Machine lanes) :
    runFrom stages batch (fuel + row.length) before.length m =
      match runStages batch row m with
      | (m, some e) => (m, some e)
      | (m, none) => runFrom stages batch fuel (before ++ row).length m := by
  induction row generalizing before m with
  | nil => simp [runStages]
  | cons stage row ih =>
    have hstage : stages[before.length]? = some stage := by
      rw [← Array.getElem?_toList, h]
      simp
    have hrow := ih (show stages.toList = (before ++ [stage]) ++ row ++ after by simpa using h)
      (fun s hs => straight s (List.mem_cons_of_mem _ hs))
    rw [List.length_cons, ← Nat.add_assoc,
      runFrom_stage batch hstage (straight stage (List.mem_cons_self ..)), runStages]
    rcases m.step batch stage with ⟨m', e⟩
    cases e with
    | some e => rfl
    | none => simpa using hrow m'

/-- A program without branches is a row of stages. -/
theorem runFrom_eq_runStages (batch : Batch lanes) {stages : Array Stage}
    (straight : ∀ stage ∈ stages.toList, stage.isBranch = false) {fuel : Nat}
    (hfuel : stages.size ≤ fuel) (m : Machine lanes) :
    runFrom stages batch fuel 0 m = runStages batch stages.toList m := by
  have h := runFrom_row batch (show stages.toList = [] ++ stages.toList ++ [] by simp) straight
    (fuel - stages.size) m
  rw [Array.length_toList, Nat.sub_add_cancel hfuel] at h
  rw [List.length_nil] at h
  rw [h]
  split
  · rename_i heq
    rw [heq]
  · rename_i heq
    rw [heq, runFrom.eq_def]
    simp

end Machine

/-! ## Hosts -/

namespace Host

/-- The stages of a host call, if there is a host that takes it. -/
def stages? (host : Option Host) : HostCall → Option (List Stage)
  | .child kind index => host.bind (·.child kind index)
  | .toLinearSrgb => host.map (·.toLinearSrgb)
  | .fromLinearSrgb => host.map (·.fromLinearSrgb)

/-- A host supplies stages of its own only. -/
def OwnStages (host : Option Host) : Prop :=
  ∀ call stages, stages? host call = some stages →
    ∀ stage ∈ stages, ∃ own : HostStage, stage = .host own

/-- What stages of a host do to the color registers. -/
def runOwn (stages : List Stage) (registers : Registers lanes) : Registers lanes :=
  stages.foldl (fun registers stage =>
    match stage with
    | .host own => own.run lanes registers
    | _ => registers) registers

/-- What a host call does to the color registers. -/
def effect (host : Option Host) (call : HostCall) : Registers lanes → Registers lanes :=
  runOwn ((stages? host call).getD [])

theorem runStages_own (batch : Batch lanes) {stages : List Stage}
    (own : ∀ stage ∈ stages, ∃ own : HostStage, stage = .host own) (m : Machine lanes) :
    m.runStages batch stages = ({ m with registers := runOwn stages m.registers }, none) := by
  induction stages generalizing m with
  | nil => rfl
  | cons stage stages ih =>
    obtain ⟨h, rfl⟩ := own _ (List.mem_cons_self ..)
    simp only [Machine.runStages, Machine.step, Stage.fault?]
    rw [ih fun s hs => own s (List.mem_cons_of_mem _ hs)]
    rfl

end Host

/-! ## What an instruction is lowered to -/

namespace Lowering

/-- The stages of an instruction that is no branch. -/
def stagesOf (p : Pipeline) (host : Option Host) (L : Lowering) (i : Instruction) : List Stage :=
  match i.op with
  | .invoke call => (Host.stages? host call).getD [] ++ [.setBasePointer]
  | op => (op.stage? (L.topOf p i.stack) (L.topOf p)).toList

variable {p : Pipeline} {host : Option Host} {tailCalls : Bool}

theorem emitted_foldl_emit (stages : List Stage) (L : Lowering) :
    (stages.foldl emit L).emitted.toList = L.emitted.toList ++ stages.map .stage ∧
      (stages.foldl emit L).depths = L.depths := by
  induction stages generalizing L with
  | nil => simp
  | cons stage stages ih =>
    obtain ⟨h₁, h₂⟩ := ih (L.emit stage)
    refine ⟨?_, h₂⟩
    rw [List.foldl_cons, h₁]
    simp [emit]

theorem emitted_emitHost (L : Lowering) (stages : List Stage) :
    (L.emitHost stages).emitted.toList =
        L.emitted.toList ++ (stages ++ [Stage.setBasePointer]).map .stage ∧
      (L.emitHost stages).depths = L.depths := by
  obtain ⟨h₁, h₂⟩ := emitted_foldl_emit stages L
  refine ⟨?_, h₂⟩
  rw [emitHost, emit, Array.toList_push, h₁]
  simp

/-- An operation that is no branch emits its stages, and a host takes the calls that are made. -/
theorem lowerOp_eq_ok {L L' : Lowering} {i : Instruction} (hi : i.op.branchTarget? = none)
    (h : L.lowerOp p host tailCalls i = .ok L') :
    L'.emitted.toList = L.emitted.toList ++ (L.stagesOf p host i).map .stage ∧
      L'.depths = L.depths ∧
      ∀ call, i.op = .invoke call → (Host.stages? host call).isSome := by
  obtain ⟨op, s⟩ := i
  cases op with
  | branch => simp [Op.branchTarget?] at hi
  | storeImmutable slot bits =>
    simp only [lowerOp] at h
    split at h
    · cases h
      simp [stagesOf, Op.stage?]
    · cases h
  | label label =>
    simp only [lowerOp] at h
    split at h
    · cases h
      simp [stagesOf, Op.stage?]
    · cases h
  | invoke call =>
    simp only [lowerOp] at h
    obtain ⟨stages, hstages, rfl⟩ : ∃ stages, Host.stages? host call = some stages ∧
        L.emitHost stages = L' := by
      split at h
      · cases h
      · rename_i host kind index
        split at h
        · rename_i stages hchild
          cases h
          exact ⟨stages, hchild, rfl⟩
        · cases h
      · rename_i host
        cases h
        exact ⟨host.toLinearSrgb, rfl, rfl⟩
      · rename_i host
        cases h
        exact ⟨host.fromLinearSrgb, rfl, rfl⟩
    obtain ⟨h₁, h₂⟩ := emitted_emitHost L stages
    refine ⟨?_, h₂, ?_⟩
    · simp only [stagesOf, hstages]
      exact h₁
    · rintro call' ⟨⟩
      rw [hstages]
      rfl
  | _ =>
    simp only [lowerOp] at h
    split at h
    · rename_i stage hstage
      cases h
      refine ⟨?_, rfl, by simp⟩
      simp only [stagesOf, hstage]
      simp [emit]
    · rename_i hstage
      cases h
      refine ⟨?_, rfl, by simp⟩
      simp only [stagesOf, hstage]
      simp

/-- An instruction that is no branch emits its stages, perhaps after a rewind, and moves the top of
its stack. -/
theorem lowerInstruction_eq_ok {L L' : Lowering} {i : Instruction}
    (hi : i.op.branchTarget? = none) (h : L.lowerInstruction p host tailCalls i = .ok L') :
    ∃ rewinds : List Stage, (∀ stage ∈ rewinds, stage = .stackRewind) ∧
      L'.emitted.toList =
        L.emitted.toList ++ (rewinds ++ L.stagesOf p host i).map .stage ∧
      L'.depths = (L.moveTop i).depths ∧
      ∀ call, i.op = .invoke call → (Host.stages? host call).isSome := by
  simp only [lowerInstruction, bind, Except.bind, pure, Except.pure] at h
  split at h
  · cases h
  · rename_i L₁ hop
    cases h
    obtain ⟨h₁, h₂, h₃⟩ := lowerOp_eq_ok hi hop
    by_cases hdue : (!tailCalls && decide (rewindInterval ≤ L.emitted.size - L.lastRewind)) = true
    · rw [if_pos hdue] at h₁ h₂
      refine ⟨[.stackRewind], by simp, ?_, ?_, h₃⟩
      · rw [show (L₁.moveTop i).emitted = L₁.emitted from rfl, h₁]
        rw [show L.rewind.stagesOf p host i = L.stagesOf p host i from rfl]
        simp [rewind, emit]
      · simp [moveTop, h₂, rewind, emit]
    · rw [if_neg hdue] at h₁ h₂
      refine ⟨[], by simp, ?_, ?_, h₃⟩
      · simpa [moveTop] using h₁
      · simp [moveTop, h₂]

/-! ## The depths that are counted -/

/-- The lowering has counted the depths of the stacks after some instructions. -/
structure Counts (p : Pipeline) (L : Lowering) (before : List Instruction) : Prop where
  length : L.depths.length = p.stackDepths.length
  depth : ∀ s : Nat, (L.depths.getD s 0 : Int) = stackDepth before s

theorem counts_start (p : Pipeline) : Counts p (start p) [] where
  length := by simp [start]
  depth := by
    intro s
    simp [start, List.getD_eq_getElem?_getD]

/-- The depths that are counted move with the instructions. -/
theorem Counts.moveTop {L : Lowering} {before after : List Instruction} {i : Instruction}
    (fits : p.Fits) (hp : p.instructions = before ++ i :: after) (counts : Counts p L before) :
    Counts p (L.moveTop i) (before ++ [i]) := by
  refine ⟨by simpa [Lowering.moveTop] using counts.length, ?_⟩
  have hlength := counts.length
  intro s
  obtain ⟨k, hk⟩ := Int.eq_ofNat_of_zero_le (fits.nonneg i (by simp [hp]))
  have hroom := fits.room (before ++ [i]) after (by simp [hp]) s
  have hcount := counts.depth s
  simp only [stackDepth_append, stackDepth_cons, stackDepth_nil, hk, add_zero] at hroom ⊢
  simp only [Lowering.moveTop, hk, Int.toNat_natCast]
  by_cases hin : k < L.depths.length
  · rw [StackDepths.getD_set _ _ _ _ _ hin]
    split
    · subst_vars
      simp only [if_true] at hroom ⊢
      omega
    · rename_i hne
      rw [if_neg (by exact_mod_cast hne), hcount, add_zero]
  · -- a stack past the end has no room, and stays empty
    rw [List.set_eq_of_length_le (by omega), hcount]
    split
    · rename_i heq
      have heq : k = s := by exact_mod_cast heq
      subst heq
      have hnone : p.stackDepths.getD k 0 = 0 := by
        rw [List.getD_eq_getElem?_getD, List.getElem?_eq_none (by omega), Option.getD_none]
      have hzero : L.depths.getD k 0 = 0 := by
        rw [List.getD_eq_getElem?_getD, List.getElem?_eq_none (by omega), Option.getD_none]
      rw [if_pos rfl, hnone] at hroom
      omega
    · rw [add_zero]

theorem Counts.topOf {L : Lowering} {before : List Instruction} {σ : StackMachine lanes}
    (counts : Counts p L before) (hσ : σ.depth = stackDepth before) (t : Int) :
    L.topOf p t = p.stackBase t.toNat + (σ.stack t.toNat).length := by
  have h := counts.depth t.toNat
  rw [← hσ] at h
  simp only [StackMachine.depth, Nat.cast_inj] at h
  rw [Lowering.topOf, h]

/-! ## Simulation -/

open StackMachine in
/-- The stages of an instruction do to a machine what the instruction does to the stacks that it
holds, or fail as the instruction does. -/
theorem simulates {L : Lowering} {before after : List Instruction} {i : Instruction}
    (fits : p.Fits) (hp : p.instructions = before ++ i :: after) (counts : Counts p L before)
    (hi : i.op.branchTarget? = none)
    (finds : i.op.Finds p.valueSlots (stackDepth before) i.stack) (own : Host.OwnStages host)
    (takes : ∀ call, i.op = .invoke call → (Host.stages? host call).isSome)
    (batch : Batch lanes) {m : Machine lanes} {σ : StackMachine lanes} (lay : LaidOut p m σ)
    (hσ : σ.depth = stackDepth before) :
    (∃ e, i.op.fault? = some e ∧ m.runStages batch (L.stagesOf p host i) = (m, some e)) ∨
      (i.op.fault? = none ∧ ∃ m' τ, m.runStages batch (L.stagesOf p host i) = (m', none) ∧
        Steps (Host.effect host) batch i σ τ ∧ LaidOut p m' τ) := by
  obtain ⟨op, stack⟩ := i
  obtain ⟨s, hs⟩ := Int.eq_ofNat_of_zero_le (fits.nonneg ⟨op, stack⟩ (by simp [hp]))
  obtain rfl : stack = s := hs
  have hroom := (fits.room (before ++ [⟨op, s⟩]) after (by simp [hp]) s).2
  have htop := counts.topOf hσ
  rw [← hσ] at finds
  have room : (σ.stack s).length + op.stackUsage ≤ p.stackDepths.getD s 0 := by
    rw [stackDepth_append, stackDepth_cons_self, stackDepth_nil, add_zero, ← hσ] at hroom
    exact hroom
  have hdepth : ((σ.stack s).length : Int) = σ.depth s := rfl
  have htopS : L.topOf p s = p.stackBase s + (σ.stack s).length := htop s
  by_cases hstage : ∃ stage, op.stage? (L.topOf p s) (L.topOf p) = some stage
  · obtain ⟨stage, hstage⟩ := hstage
    have hof : L.stagesOf p host ⟨op, s⟩ = [stage] := by
      cases op with
      | invoke => cases hstage
      | _ =>
        simp only [stagesOf, hstage]
        rfl
    rw [hof]
    rw [htopS] at hstage
    have hfault := lay.fault?_stage htop finds room hstage
    simp only [Machine.runStages, Machine.step, hfault]
    cases hf : op.fault? with
    | some e => exact .inl ⟨e, rfl, rfl⟩
    | none =>
      have hlay : LaidOut p (m.apply batch stage) (op.exec (Host.effect host) batch s σ) :=
        lay.apply_stage (fun t => htop t) finds room hstage
      refine .inr ⟨rfl, _, _, rfl, ?_, hlay⟩
      cases op with
      | pad => cases hstage
      | _ => rfl
  · -- what is left moves the top, or asks the host
    have hnone : op.stage? (L.topOf p s) (L.topOf p) = none := by
      cases hs : op.stage? (L.topOf p s) (L.topOf p) with
      | none => rfl
      | some stage => exact absurd ⟨stage, hs⟩ hstage
    cases op with
    | pad count =>
      -- the words above the top are those that happen to be there
      simp only [Op.stackUsage] at room
      have hpush := lay.push s (m.window (p.stackBase s + (σ.stack s).length) count)
        (by rw [Machine.length_window]; omega)
      rw [Machine.overwrite_window] at hpush
      exact .inr ⟨rfl, m, _, rfl, ⟨_, Machine.length_window .., rfl⟩, hpush⟩
    | discard count =>
      refine .inr ⟨rfl, m, _, rfl, rfl, lay.pop s ?_⟩
      simp only [Op.Finds] at finds
      omega
    | invoke call =>
      obtain ⟨stages, hstages⟩ := Option.isSome_iff_exists.1 (takes call rfl)
      have hown := Host.runStages_own batch (own call stages hstages) m
      have heffect : Host.runOwn stages m.registers = Host.effect host call m.registers := by
        rw [Host.effect, hstages]
        rfl
      refine .inr ⟨rfl, { m with registers := Host.effect host call m.registers }, _, ?_, rfl, ?_⟩
      · simp only [stagesOf, hstages, Option.getD_some]
        rw [Machine.runStages_append, hown, heffect]
        rfl
      · rw [lay.registers]
        exact lay.setRegisters _
    | storeImmutable slot bits => exact .inr ⟨rfl, m, _, rfl, rfl, lay⟩
    | label label => exact .inr ⟨rfl, m, _, rfl, rfl, lay⟩
    | branch condition label => simp [Op.branchTarget?] at hi
    | pushSlots space range => cases space <;> cases hnone
    | _ => cases hnone

theorem runStages_rewinds (batch : Batch lanes) {rewinds : List Stage}
    (h : ∀ stage ∈ rewinds, stage = .stackRewind) (rest : List Stage) (m : Machine lanes) :
    m.runStages batch (rewinds ++ rest) = m.runStages batch rest := by
  induction rewinds with
  | nil => rfl
  | cons stage rewinds ih =>
    obtain rfl := h stage (List.mem_cons_self ..)
    exact ih fun s hs => h s (List.mem_cons_of_mem _ hs)

/-- Stages of an instruction are no branches. -/
theorem isBranch_stagesOf {L : Lowering} {i : Instruction} (own : Host.OwnStages host) :
    ∀ stage ∈ L.stagesOf p host i, stage.isBranch = false := by
  obtain ⟨op, s⟩ := i
  intro stage hstage
  cases op with
  | invoke call =>
    simp only [stagesOf, List.mem_append, List.mem_singleton] at hstage
    rcases hstage with hstage | rfl
    · cases hstages : Host.stages? host call with
      | none => simp [hstages] at hstage
      | some stages =>
        rw [hstages] at hstage
        obtain ⟨h, rfl⟩ := own call stages hstages stage hstage
        rfl
    · rfl
  | pushSlots space range =>
    simp only [stagesOf, Option.mem_toList] at hstage
    cases space <;> (cases hstage; rfl)
  | _ =>
    simp only [stagesOf, Option.mem_toList] at hstage
    cases hstage
    try rfl

open StackMachine in
/-- Instructions without branches are lowered to a row of stages, which does to a machine what the
instructions do to the stacks that it holds. -/
theorem simulates_list {before rest after : List Instruction} {L L' : Lowering} (fits : p.Fits)
    (hp : p.instructions = before ++ rest ++ after) (counts : Counts p L before)
    (straight : ∀ i ∈ rest, i.op.branchTarget? = none)
    (finds : AllFind p.valueSlots (before ++ rest)) (own : Host.OwnStages host)
    (h : rest.foldlM (·.lowerInstruction p host tailCalls ·) L = .ok L') :
    ∃ row : List Stage, L'.emitted.toList = L.emitted.toList ++ row.map .stage ∧
      (∀ stage ∈ row, stage.isBranch = false) ∧ Counts p L' (before ++ rest) ∧
      ∀ {lanes : Nat} (batch : Batch lanes) {m : Machine lanes} {σ : StackMachine lanes},
        LaidOut p m σ → σ.depth = stackDepth before →
        ∃ τ e, Runs (Host.effect host) batch rest σ τ e ∧
          (m.runStages batch row).2 = e ∧ LaidOut p (m.runStages batch row).1 τ := by
  induction rest generalizing before L with
  | nil =>
    cases h
    refine ⟨[], by simp, by simp, by simpa using counts, ?_⟩
    intro lanes batch m σ lay _
    exact ⟨σ, none, .done σ, rfl, lay⟩
  | cons i rest ih =>
    simp only [List.foldlM_cons, bind, Except.bind] at h
    split at h
    · cases h
    · rename_i L₁ hL₁
      have hp₁ : p.instructions = before ++ i :: (rest ++ after) := by simpa using hp
      have hi := straight i (List.mem_cons_self ..)
      have hfinds := finds before i rest rfl
      obtain ⟨rewinds, hrewinds, hemitted, hdepths, takes⟩ := lowerInstruction_eq_ok hi hL₁
      have hcounts := counts.moveTop fits hp₁
      have counts₁ : Counts p L₁ (before ++ [i]) :=
        ⟨by rw [hdepths]; exact hcounts.length, fun s => by rw [hdepths]; exact hcounts.depth s⟩
      obtain ⟨row, hrow, hbranch, counts', sim⟩ := ih (by simpa using hp)
        counts₁ (fun j hj => straight j (List.mem_cons_of_mem _ hj)) (by simpa using finds) h
      refine ⟨rewinds ++ L.stagesOf p host i ++ row, ?_, ?_, by simpa using counts', ?_⟩
      · rw [hrow, hemitted]
        simp
      · intro stage hstage
        simp only [List.mem_append] at hstage
        rcases hstage with (hstage | hstage) | hstage
        · rw [hrewinds stage hstage]
          rfl
        · exact isBranch_stagesOf own stage hstage
        · exact hbranch stage hstage
      · intro lanes batch m σ lay hσ
        rw [List.append_assoc, runStages_rewinds batch hrewinds, Machine.runStages_append]
        rcases simulates fits hp₁ counts hi hfinds own takes batch lay hσ with
          ⟨e, hfault, hrun⟩ | ⟨hfault, m₁, σ₁, hrun, hstep, lay₁⟩
        · rw [hrun]
          exact ⟨σ, some e, .fault rest σ hfault, rfl, lay⟩
        · rw [hrun]
          have hσ₁ : σ₁.depth = stackDepth (before ++ [i]) := by
            funext t
            rw [depth_steps σ (by rw [hσ]; exact hfinds) hstep t, hσ, stackDepth_append,
              stackDepth_cons, stackDepth_nil, add_zero]
            simp only [eq_comm]
          obtain ⟨τ, e, hruns, hres, layτ⟩ := sim batch lay₁ hσ₁
          exact ⟨τ, e, .step hfault hstep hruns, hres, layτ⟩

end Lowering

/-! ## Whole pipelines -/

namespace Pipeline

variable {p : Pipeline} {host : Option Host} {tailCalls : Bool} {lowered : Lowered}

/-- How many stages the first `k` instructions are lowered to. -/
def stageCount (p : Pipeline) (host : Option Host) (tailCalls : Bool) (k : Nat) : Nat :=
  match (p.instructions.take k).foldlM (·.lowerInstruction p host tailCalls ·)
    (Lowering.start p) with
  | .ok L => L.emitted.size
  | .error _ => 0

theorem mapM_resolve (L : Lowering) (row : List Stage) (place : Nat) :
    ((row.map Emitted.stage).zipIdx place).mapM (fun (e, place) => L.resolve place e) =
      .ok row := by
  induction row generalizing place with
  | nil => rfl
  | cons stage row ih =>
    simp only [List.map_cons, List.zipIdx_cons, List.mapM_cons, ih]
    rfl

/-- A lowered pipeline has gone through all its instructions. -/
theorem lower_eq_ok (h : p.lower host tailCalls = .ok lowered) :
    ∃ L : Lowering, p.instructions.foldlM (·.lowerInstruction p host tailCalls ·)
        (Lowering.start p) = .ok L ∧
      L.emitted.toList.zipIdx.mapM (fun (e, place) => L.resolve place e) =
        .ok lowered.stages.toList := by
  simp only [lower, lowerFrom, bind, Except.bind, pure, Except.pure] at h
  split at h
  · cases h
  · rename_i L hL
    refine ⟨L, hL, ?_⟩
    split at h
    · cases h
    · rename_i stages hstages
      cases h
      exact hstages

/-- The lowering after the first instructions. -/
theorem foldlM_take {L : Lowering} {before after : List Instruction}
    (hp : p.instructions = before ++ after)
    (h : p.instructions.foldlM (·.lowerInstruction p host tailCalls ·) (Lowering.start p) =
      .ok L) :
    ∃ L₁ : Lowering, before.foldlM (·.lowerInstruction p host tailCalls ·) (Lowering.start p) =
        .ok L₁ ∧ after.foldlM (·.lowerInstruction p host tailCalls ·) L₁ = .ok L := by
  rw [hp, List.foldlM_append] at h
  simp only [bind, Except.bind] at h
  split at h
  · cases h
  · rename_i L₁ hL₁
    exact ⟨L₁, hL₁, h⟩

end Pipeline

/-- The machine with empty stacks and the value slots of a machine. -/
def StackMachine.start (p : Pipeline) (m : Machine lanes) : StackMachine lanes where
  memory := { m with values := m.values.extract 0 p.valueSlots }
  stack _ := []

theorem LaidOut.start {p : Pipeline} {m : Machine lanes}
    (h : m.values.size = p.valueSlots + p.stackSlots) : LaidOut p m (StackMachine.start p m) where
  size := h
  memorySize := by simp [StackMachine.start, h]
  values := by
    intro i hi
    have hi' : i < m.values.size := by omega
    simp [Machine.slot, StackMachine.start, hi, hi']
  registers := rfl
  condition := rfl
  loop := rfl
  returns := rfl
  trace := rfl
  negative := fun _ _ => rfl
  room := fun _ => Nat.zero_le _
  live := by
    intro s k hk
    simp [StackMachine.start] at hk

namespace Pipeline

variable {p : Pipeline} {host : Option Host} {tailCalls : Bool} {lowered : Lowered}

open StackMachine in
/-- The stages of the first instructions of a pipeline without branches come first, and do what the
instructions do. -/
theorem lower_append (fits : p.Fits) (straight : ∀ i ∈ p.instructions, i.op.branchTarget? = none)
    (finds : AllFind p.valueSlots p.instructions) (own : Host.OwnStages host)
    (hl : p.lower host tailCalls = .ok lowered) {before after : List Instruction}
    (hp : p.instructions = before ++ after) :
    ∃ (L : Lowering) (row rest : List Stage),
      before.foldlM (·.lowerInstruction p host tailCalls ·) (Lowering.start p) = .ok L ∧
      L.emitted.toList = row.map .stage ∧ Lowering.Counts p L before ∧
      lowered.stages.toList = row ++ rest ∧ (∀ stage ∈ row, stage.isBranch = false) ∧
      ∀ {lanes : Nat} (batch : Batch lanes) {m : Machine lanes} {σ : StackMachine lanes},
        LaidOut p m σ → (∀ s, σ.stack s = []) →
        ∃ τ e, Runs (Host.effect host) batch before σ τ e ∧
          (m.runStages batch row).2 = e ∧ LaidOut p (m.runStages batch row).1 τ := by
  obtain ⟨L', hL', hstages⟩ := lower_eq_ok hl
  obtain ⟨L, hL, hrest⟩ := foldlM_take hp hL'
  have finds₁ : AllFind p.valueSlots before := by
    intro front i back h
    exact finds front i (back ++ after) (by simp [hp, h])
  obtain ⟨row, hrow, hbranch, counts, sim⟩ := Lowering.simulates_list fits
    (show p.instructions = [] ++ before ++ after by simpa using hp) (Lowering.counts_start p)
    (fun i hi => straight i (by simp [hp, hi])) (by simpa using finds₁) own hL
  obtain ⟨rest, hrest, -, -, -⟩ := Lowering.simulates_list fits
    (show p.instructions = before ++ after ++ [] by simpa using hp) counts (fun i hi => straight i (by simp [hp, hi])) (by rw [← hp]; exact finds)
    own hrest
  have hrow : L.emitted.toList = row.map .stage := by simpa [Lowering.start] using hrow
  have hall : L'.emitted.toList = (row ++ rest).map .stage := by
    rw [hrest, hrow, List.map_append]
  rw [hall, mapM_resolve] at hstages
  refine ⟨L, row, rest, hL, hrow, counts, (Except.ok.inj hstages).symm, hbranch, ?_⟩
  intro lanes batch m σ lay hempty
  refine sim batch lay ?_
  funext t
  simp [depth, hempty]

theorem stageCount_eq {before after : List Instruction} (hp : p.instructions = before ++ after)
    {L : Lowering} (h : before.foldlM (·.lowerInstruction p host tailCalls ·)
      (Lowering.start p) = .ok L) :
    p.stageCount host tailCalls before.length = L.emitted.size := by
  rw [stageCount, hp, List.take_left, h]

end Pipeline

end RasterShader
