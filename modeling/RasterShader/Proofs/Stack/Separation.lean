import Mathlib
import RasterShader.Proofs.Stack.Simulation

/-!
# Stacks do not interfere

The main theorem on lowering, `Pipeline.lower_separates`.  A pipeline without branches, whose
instructions find their operands, is run in one array of slots as on separate stacks:

* the regions of the stacks are apart from each other and from the value slots, and within the
  memory;
* each stage touches the value slots, and the regions of the stacks that its instruction works on;
* after every instruction the machine holds what the stack machine has.

One operation works on a stack that is not its own: `continueLoop` adds lanes to the mask on top of
the stack that it names.  All others leave the words on other stacks as they are
(`StackMachine.stack_steps`).
-/

namespace RasterShader

variable {lanes : Nat}

/-! ## Words on other stacks -/

namespace StackMachine

variable {host : HostCall → Registers lanes → Registers lanes} {batch : Batch lanes}

theorem stack_push_of_ne (σ : StackMachine lanes) {s t : Int} (h : t ≠ s)
    (words : List (Vector UInt32 lanes)) : (σ.push s words).stack t = σ.stack t :=
  σ.stack_replace_of_ne h 0 words

theorem stack_pop_of_ne (σ : StackMachine lanes) {s t : Int} (h : t ≠ s) (n : Nat) :
    (σ.pop s n).stack t = σ.stack t := σ.stack_replace_of_ne h n []

theorem stack_transform_of_ne (σ : StackMachine lanes) {s t : Int} (h : t ≠ s) (n : Nat)
    (f : List (Vector UInt32 lanes) → List (Vector UInt32 lanes)) :
    (σ.transform s n f).stack t = σ.stack t := σ.stack_replace_of_ne h n _

/-- An instruction leaves the words on other stacks as they are, up to the mask on top of the stack
that a `continueLoop` names. -/
theorem stack_steps (σ : StackMachine lanes) {τ : StackMachine lanes} {i : Instruction}
    (h : Steps host batch i σ τ) {t : Int} (ht : t ≠ i.stack) :
    if i.op = .continueLoop t then (τ.stack t).dropLast = (σ.stack t).dropLast
    else τ.stack t = σ.stack t := by
  obtain ⟨op, s⟩ := i
  cases op with
  | pad count =>
    obtain ⟨words, -, rfl⟩ := h
    simpa using σ.stack_push_of_ne ht words
  | continueLoop other =>
    simp only [Steps, Op.exec] at h
    subst h
    by_cases hto : t = other
    · subst hto
      rw [if_pos rfl, stack_replace_self]
      simp [List.dropLast_eq_take]
    · rw [if_neg (by simpa using Ne.symm hto), stack_replace_of_ne _ hto]
      rfl
  | binaryImm op ty count bits slot =>
    simp only [Steps] at h
    subst h
    cases slot with
    | none => simpa [Op.exec] using σ.stack_transform_of_ne ht _ _
    | some slot => simp [Op.exec]
  | matchCase value =>
    simp only [Steps, Op.exec] at h
    subst h
    rw [if_neg (by simp), stack_replace_of_ne _ ht]
    rfl
  | _ =>
    simp only [Steps] at h
    subst h
    simp [Op.exec, setColor, stack_push_of_ne _ ht, stack_pop_of_ne _ ht,
      stack_transform_of_ne _ ht]

end StackMachine

/-! ## Slots of a stage -/

namespace Lowering

variable {p : Pipeline} {host : Option Host}

/-- A stage of an instruction touches value slots, and the regions of the stacks that the
instruction works on. -/
theorem touches_stagesOf {L : Lowering} {before after : List Instruction} {i : Instruction}
    (fits : p.Fits) (hp : p.instructions = before ++ i :: after) (counts : Counts p L before)
    (finds : i.op.Finds p.valueSlots (stackDepth before) i.stack) (own : Host.OwnStages host)
    {stage : Stage} (hstage : stage ∈ L.stagesOf p host i) {j : Nat} (touches : stage.Touches j) :
    j < p.valueSlots ∨
      ∃ t : Nat, ((t : Int) = i.stack ∨ (t : Int) ∈ i.op.namedStacks) ∧ p.InRegion t j := by
  obtain ⟨op, stack⟩ := i
  obtain ⟨s, hs⟩ := Int.eq_ofNat_of_zero_le (fits.nonneg ⟨op, stack⟩ (by simp [hp]))
  obtain rfl : stack = s := hs
  have negative : ∀ t < 0, stackDepth before t = 0 := by
    intro t ht
    refine stackDepth_of_forall_ne fun i hi => ?_
    have := fits.nonneg i (by simp [hp, hi])
    omega
  have hroom := (fits.room (before ++ [⟨op, s⟩]) after (by simp [hp]) s).2
  rw [stackDepth_append, stackDepth_cons_self, stackDepth_nil, add_zero] at hroom
  have htop : ∀ t : Nat, (L.topOf p t : Int) = p.stackBase t + stackDepth before t := by
    intro t
    rw [Lowering.topOf, Nat.cast_add, Int.toNat_natCast, counts.depth]
  by_cases hinvoke : ∃ call, op = .invoke call
  · obtain ⟨call, rfl⟩ := hinvoke
    simp only [stagesOf, List.mem_append, List.mem_singleton] at hstage
    obtain ⟨range, hrange, -⟩ := touches
    rcases hstage with hstage | rfl
    · cases hstages : Host.stages? host call with
      | none => simp [hstages] at hstage
      | some stages =>
        rw [hstages] at hstage
        obtain ⟨h, rfl⟩ := own call stages hstages stage hstage
        simp [Stage.footprint] at hrange
    · simp [Stage.footprint] at hrange
  · have hstage : op.stage? (L.topOf p s) (L.topOf p) = some stage := by
      cases op with
      | invoke call => exact absurd ⟨call, rfl⟩ hinvoke
      | _ => simpa [stagesOf] using hstage
    rcases Op.touches_stage negative (fits.room before _ hp) htop finds hroom hstage touches with
      h | h | ⟨t, ht, h⟩
    · exact .inl h
    · exact .inr ⟨s, .inl rfl, h⟩
    · exact .inr ⟨t, .inr ht, h⟩

end Lowering

/-- The region of a stack is apart from the value slots and from those of other stacks, and within
the memory. -/
theorem Pipeline.InRegion.apart {p : Pipeline} {s j : Nat} (h : p.InRegion s j) (lanes : Nat) :
    p.valueSlots ≤ j ∧ j < (p.allocate lanes).values.size ∧
      ∀ t, p.InRegion t j → t = s := by
  obtain ⟨hlow, hhigh⟩ := h
  have hbase := p.valueSlots_le_stackBase s
  have hend := p.stackBase_add_le_size s
  refine ⟨by omega, ?_, ?_⟩
  · simp only [Pipeline.allocate, SlotData.zero, Array.size_replicate]
    omega
  · rintro t ⟨hlow', hhigh'⟩
    by_contra hts
    rcases Nat.lt_or_gt_of_ne hts with hlt | hgt
    · have := p.stackBase_add_le hlt
      omega
    · have := p.stackBase_add_le hgt
      omega

namespace Pipeline

variable {p : Pipeline} {host : Option Host} {tailCalls : Bool} {lowered : Lowered}

/-- Stages between those of the instructions before an instruction and those after it are its own,
or rewinds. -/
theorem touches_lowered (fits : p.Fits)
    (straight : ∀ i ∈ p.instructions, i.op.branchTarget? = none)
    (finds : AllFind p.valueSlots p.instructions) (own : Host.OwnStages host)
    (hl : p.lower host tailCalls = .ok lowered) {before after : List Instruction}
    {i : Instruction} (hp : p.instructions = before ++ i :: after) {n : Nat} {stage : Stage}
    (hlow : p.stageCount host tailCalls before.length ≤ n)
    (hhigh : n < p.stageCount host tailCalls (before.length + 1))
    (hstage : lowered.stages[n]? = some stage) {j : Nat} (touches : stage.Touches j) :
    j < p.valueSlots ∨
      ∃ t : Nat, ((t : Int) = i.stack ∨ (t : Int) ∈ i.op.namedStacks) ∧ p.InRegion t j := by
  have hp₁ : p.instructions = (before ++ [i]) ++ after := by simpa using hp
  obtain ⟨L, row, -, hL, hrow, counts, -, -, -⟩ := lower_append fits straight finds own hl hp
  obtain ⟨L₁, row₁, rest, hL₁, hrow₁, -, hstages, -, -⟩ :=
    lower_append fits straight finds own hl hp₁
  have hi := straight i (by simp [hp])
  have hstep : L.lowerInstruction p host tailCalls i = .ok L₁ := by
    rw [List.foldlM_append, hL] at hL₁
    simp only [List.foldlM_cons, List.foldlM_nil, bind_pure] at hL₁
    exact hL₁
  obtain ⟨rewinds, hrewinds, hemitted, -, -⟩ := Lowering.lowerInstruction_eq_ok hi hstep
  have hrows : row₁ = row ++ (rewinds ++ L.stagesOf p host i) := by
    apply List.map_injective_iff.2 (fun _ _ h => Emitted.stage.inj h)
    rw [← hrow₁, hemitted, hrow, ← List.map_append]
  have hcount : p.stageCount host tailCalls before.length = row.length := by
    rw [stageCount_eq hp hL, ← Array.length_toList, hrow, List.length_map]
  have hcount₁ : p.stageCount host tailCalls (before.length + 1) = row₁.length := by
    have h := stageCount_eq hp₁ hL₁
    rw [List.length_append, List.length_singleton] at h
    rw [h, ← Array.length_toList, hrow₁, List.length_map]
  have hmem : stage ∈ rewinds ++ L.stagesOf p host i := by
    rw [← Array.getElem?_toList, hstages, List.getElem?_append_left (by omega), hrows,
      List.getElem?_append_right (by omega)] at hstage
    exact List.mem_of_getElem? hstage
  rcases List.mem_append.1 hmem with hmem | hmem
  · rw [hrewinds stage hmem] at touches
    obtain ⟨range, hrange, -⟩ := touches
    simp [Stage.footprint] at hrange
  · exact Lowering.touches_stagesOf fits hp counts (finds before i after hp) own hmem touches

/-- The first stages of a pipeline without branches are run in the order of the list. -/
theorem runFrom_take (fits : p.Fits)
    (straight : ∀ i ∈ p.instructions, i.op.branchTarget? = none)
    (finds : AllFind p.valueSlots p.instructions) (own : Host.OwnStages host)
    (hl : p.lower host tailCalls = .ok lowered) {before after : List Instruction}
    (hp : p.instructions = before ++ after) {fuel : Nat}
    (hfuel : p.stageCount host tailCalls before.length ≤ fuel) (batch : Batch lanes)
    {m : Machine lanes} (hm : m.values.size = p.valueSlots + p.stackSlots) :
    ∃ τ e, StackMachine.Runs (Host.effect host) batch before (.start p m) τ e ∧
      (Machine.runFrom (lowered.stages.take (p.stageCount host tailCalls before.length)) batch fuel
        0 m).2 = e ∧
      LaidOut p (Machine.runFrom
        (lowered.stages.take (p.stageCount host tailCalls before.length)) batch fuel 0 m).1 τ := by
  obtain ⟨L, row, rest, hL, hrow, -, hstages, hbranch, sim⟩ :=
    lower_append fits straight finds own hl hp
  have hcount : p.stageCount host tailCalls before.length = row.length := by
    rw [stageCount_eq hp hL, ← Array.length_toList, hrow, List.length_map]
  have htake : (lowered.stages.take row.length).toList = row := by
    simp [hstages]
  rw [hcount] at hfuel ⊢
  rw [Machine.runFrom_eq_runStages batch (by rw [htake]; exact hbranch)
    (by rw [← Array.length_toList, htake]; exact hfuel), htake]
  exact sim batch (LaidOut.start hm) fun _ => rfl

open StackMachine in
/-- A finished list of instructions without branches, each of which finds its operands, runs in the
slots of one memory as on a machine with separate stacks. -/
theorem lower_separates {instructions : List Instruction}
    {valueSlots uniformSlots immutableSlots labelCount : Nat} {debugTrace : Option DebugTrace}
    (hp : Pipeline.ofInstructions instructions valueSlots uniformSlots immutableSlots labelCount
      debugTrace = .ok p)
    (straight : ∀ i ∈ instructions, i.op.branchTarget? = none)
    (finds : AllFind valueSlots instructions) (own : Host.OwnStages host)
    (hl : p.lower host tailCalls = .ok lowered) (lanes : Nat) :
    -- regions of stacks are apart from the value slots and from each other, and in the memory
    (∀ s j, p.InRegion s j → valueSlots ≤ j ∧ j < (p.allocate lanes).values.size ∧
      ∀ t, p.InRegion t j → t = s) ∧
    -- the stages of an instruction touch value slots and the regions of its stacks only
    (∀ before i after, instructions = before ++ i :: after → ∀ n stage,
      p.stageCount host tailCalls before.length ≤ n →
      n < p.stageCount host tailCalls (before.length + 1) →
      lowered.stages[n]? = some stage →
      ∀ j, stage.Spares j ∨ j < valueSlots ∨
        ∃ t : Nat, ((t : Int) = i.stack ∨ (t : Int) ∈ i.op.namedStacks) ∧ p.InRegion t j) ∧
    p.stageCount host tailCalls instructions.length = lowered.stages.size ∧
    -- after the stages of any number of instructions, the machine holds the stacks
    ∀ (batch : Batch lanes) (m : Machine lanes),
      m.values.size = (p.allocate lanes).values.size →
      ∀ before after, instructions = before ++ after →
      ∀ fuel, p.stageCount host tailCalls before.length ≤ fuel →
      ∃ τ e, Runs (Host.effect host) batch before (.start p m) τ e ∧
        (Machine.runFrom (lowered.stages.take (p.stageCount host tailCalls before.length)) batch
          fuel 0 m).2 = e ∧
        LaidOut p (Machine.runFrom
          (lowered.stages.take (p.stageCount host tailCalls before.length)) batch fuel 0 m).1 τ ∧
        -- the next instruction pops and pushes what its usage says, and leaves other stacks alone
        (e = none → ∀ i rest ρ, after = i :: rest → Steps (Host.effect host) batch i τ ρ →
          (∀ t, ρ.depth t = τ.depth t + if t = i.stack then i.op.stackUsage else 0) ∧
          ∀ t, t ≠ i.stack →
            if i.op = .continueLoop t then (ρ.stack t).dropLast = (τ.stack t).dropLast
            else ρ.stack t = τ.stack t) := by
  obtain ⟨fits, rfl, rfl⟩ := fits_of_ofInstructions hp
  refine ⟨fun s j h => h.apart lanes, ?_, ?_, ?_⟩
  · intro before i after hp' n stage hlow hhigh hstage j
    by_cases touches : stage.Touches j
    · exact .inr (touches_lowered fits straight finds own hl hp' hlow hhigh hstage touches)
    · exact .inl (Stage.spares_of_footprint touches)
  · obtain ⟨L, row, rest, hL, hrow, -, hstages, -, -⟩ :=
      lower_append fits straight finds own hl (List.append_nil p.instructions).symm
    obtain ⟨L', hL', hmap⟩ := lower_eq_ok hl
    obtain rfl : L' = L := Except.ok.inj (hL'.symm.trans hL)
    rw [hrow, mapM_resolve] at hmap
    rw [stageCount_eq (List.append_nil _).symm hL, ← Array.length_toList, hrow, List.length_map,
      ← Array.length_toList, ← Except.ok.inj hmap]
  · intro batch m hm before after hp' fuel hfuel
    have hm : m.values.size = p.valueSlots + p.stackSlots := by
      simpa [allocate, SlotData.zero] using hm
    obtain ⟨τ, e, hruns, hres, lay⟩ := runFrom_take fits straight finds own hl hp' hfuel batch hm
    refine ⟨τ, e, hruns, hres, lay, ?_⟩
    rintro rfl i rest ρ rfl hstep
    have hdepth : τ.depth = stackDepth before := by
      have hbefore : AllFind p.valueSlots ([] ++ before) := by
        intro front j back h
        exact finds front j (back ++ i :: rest) (by rw [hp', ← List.nil_append before, h]; simp)
      have hstart : (StackMachine.start p m).depth = stackDepth [] := by
        funext t
        simp [StackMachine.start, depth]
      simpa using depth_runs hbefore hstart hruns
    exact ⟨depth_steps τ (by rw [hdepth]; exact finds before i rest hp') hstep,
      fun t ht => stack_steps τ hstep ht⟩

/-- Two stacks: a word is added to the mask that a `continueLoop` has changed on the other stack. -/
def twoStacks : List Instruction :=
  [⟨.initLaneMasks, 0⟩, ⟨.pushConstant 1 0, 1⟩, ⟨.pushSlots .value ⟨0, 1⟩, 0⟩, ⟨.continueLoop 1, 0⟩,
    ⟨.pushCloneFromStack 1 1 1, 0⟩, ⟨.binary .add .int 1, 0⟩, ⟨.copyToSlots false ⟨0, 1⟩ 1, 0⟩,
    ⟨.discard 1, 0⟩, ⟨.discard 1, 1⟩]

theorem lower_separates_twoStacks :
    ∃ p lowered, Pipeline.ofInstructions twoStacks 1 0 0 0 none = .ok p ∧
      (∀ i ∈ twoStacks, i.op.branchTarget? = none) ∧ AllFind 1 twoStacks ∧
      Host.OwnStages none ∧ p.lower none false = .ok lowered ∧
      (p.InRegion 1 3 ∧ ∀ t, p.InRegion t 3 → t = 1) ∧
      p.stageCount none false 9 = lowered.stages.size ∧
      ∀ (batch : Batch 4) (m : Machine 4), m.values.size = (p.allocate 4).values.size →
        ∃ τ e, StackMachine.Runs (Host.effect none) batch twoStacks (.start p m) τ e ∧
          LaidOut p (Machine.runFrom (lowered.stages.take (p.stageCount none false 9)) batch
            7 0 m).1 τ := by
  have own : Host.OwnStages none := by
    intro call stages h
    cases call <;> cases h
  obtain ⟨p, hp⟩ : ∃ p, Pipeline.ofInstructions twoStacks 1 0 0 0 none = .ok p := ⟨_, rfl⟩
  obtain ⟨lowered, hl⟩ : ∃ lowered, p.lower none false = .ok lowered := by
    cases hp
    exact ⟨_, rfl⟩
  have straight : ∀ i ∈ twoStacks, i.op.branchTarget? = none := by decide
  obtain ⟨regions, -, count, sim⟩ := lower_separates hp straight (by decide) own hl 4
  have hregion : p.InRegion 1 3 := by
    cases hp
    exact ⟨by decide, by decide⟩
  have hfuel : p.stageCount none false 9 ≤ 7 := by
    cases hp
    exact le_of_eq rfl
  refine ⟨p, lowered, hp, straight, by decide, own, hl, ⟨hregion, (regions 1 3 hregion).2.2⟩,
    count, ?_⟩
  intro batch m hm
  obtain ⟨τ, e, hruns, -, lay, -⟩ :=
    sim batch m hm twoStacks [] (List.append_nil _).symm _ hfuel
  exact ⟨τ, e, hruns, lay⟩

/-- The deepest word of a stack in the first lane, after the first `k` stages of finished
instructions without value slots. -/
def wordAfter (instructions : List Instruction) (k s : Nat) : Option UInt32 := do
  let p ← (Pipeline.ofInstructions instructions 0 0 0 0 none).toOption
  let lowered ← (p.lower none false).toOption
  let data := p.allocate 1
  let m := (Machine.runFrom (lowered.stages.take k) (Machine.batchOf data #[.zero]) k 0
    (.ofPixels data.values #[.zero])).1
  return (m.slot (p.stackBase s)).get 0

/-- A `continueLoop` on the first stack names the second. -/
def continuedElsewhere : List Instruction :=
  [⟨.initLaneMasks, 0⟩, ⟨.pushConstant 1 0, 1⟩, ⟨.continueLoop 1, 0⟩, ⟨.discard 1, 1⟩]

/-- A copy from the second stack goes to a slot that is no value slot. -/
def copiedPastValues : List Instruction :=
  [⟨.pushConstant 1 5, 0⟩, ⟨.pushConstant 1 7, 1⟩, ⟨.copyToSlots false ⟨0, 1⟩ 1, 1⟩, ⟨.discard 1, 1⟩,
    ⟨.discard 1, 0⟩]

/-- A `continueLoop` changes the word on top of the stack that it names; and slots that are no value
slots may be those of another stack. -/
theorem continueLoop_changes_other_stack :
    (AllFind 0 continuedElsewhere ∧ wordAfter continuedElsewhere 2 1 = some 0 ∧
      wordAfter continuedElsewhere 3 1 = some 0xFFFFFFFF) ∧
    wordAfter copiedPastValues 2 0 = some 5 ∧ wordAfter copiedPastValues 3 0 = some 7 := by
  refine ⟨⟨by decide, ?_, ?_⟩, ?_, ?_⟩ <;> decide +kernel

end Pipeline

end RasterShader
