import Mathlib
import RasterShader.Proofs.Stack.Layout

/-!
# The slots that a stage touches

`Stage.footprint` lists the ranges of slots that a stage may read or write, with every place that an
offset may move a range to.  The list is right in the strongest sense: to put any words into a slot
outside the footprint, and then to run the stage, is the same as to run the stage first
(`Stage.spares_of_footprint`).  So the stage neither changes such a slot nor lets anything else
depend on it.  Stages that operations are lowered to touch the value slots, and the regions of the
stacks that the operation works on (`Op.touches_stage`).

The loops of `Machine.apply` are followed round by round: the machines with and without the new
words stay related by one `setSlot`.
-/

namespace RasterShader

namespace Stage

/-- Ranges of slots that a stage may read or write. -/
def footprint : Stage → List SlotRange
  | storeCoords slot | loadCoords slot | mergeCondition _ slot | matchCase slot _ => [⟨slot, 2⟩]
  | storeInput _ slot | loadColor _ slot => [⟨slot, 4⟩]
  | storeMask _ slot | loadMask _ slot | mergeLoop slot | reenableLoop slot
  | continueLoop slot => [⟨slot, 1⟩]
  | splat target count _ | zeroSlots target count | copyUniform target _ count
  | copyImmutable target _ count | unary _ _ target count
  | binaryImm _ _ target count _ => [⟨target, count⟩]
  | copySlots target source count _ | binary _ _ target source count
  | select target source count => [⟨target, count⟩, ⟨source, count⟩]
  | copyFromIndirect target source count offset limit .value =>
    [⟨target, count⟩, ⟨source, max count (limit - source)⟩, ⟨offset, 1⟩]
  | copyFromIndirect target _ count offset _ _ => [⟨target, count⟩, ⟨offset, 1⟩]
  | copyToIndirect target source count offset limit =>
    [⟨target, max count (limit - target)⟩, ⟨source, count⟩, ⟨offset, 1⟩]
  | swizzleCopy target source components =>
    [⟨target, Machine.scatterWidth components⟩, ⟨source, components.length⟩]
  | swizzleCopyToIndirect target source components offset limit =>
    [⟨target, max (Machine.scatterWidth components) (limit - target)⟩,
      ⟨source, components.length⟩, ⟨offset, 1⟩]
  | swizzle base consumed components => [⟨base, max consumed components.length⟩]
  | transpose base shape => [⟨base, shape.size⟩]
  | diagonal base shape => [⟨base, max 1 shape.size⟩]
  | resize base source target => [⟨base, max source.size target.size⟩]
  | multiply base left right =>
    [⟨base, max (left.size + right.size) (right.columns * left.rows)⟩]
  | inverse base size => [⟨base, size * size⟩]
  | determinant base size => [⟨base, max (size * size) 1⟩]
  | dot base count => [⟨base, max (2 * count) 1⟩]
  | refract base => [⟨base, 9⟩]
  | ternary _ _ base count => [⟨base, 3 * count⟩]
  | trace (.var range) => [range]
  | branch (.noLanesEqual slot _) _ => [⟨slot, 1⟩]
  | initLaneMasks | maskOffLoop | maskOffReturn | branch .. | stackRewind | setBasePointer
  | host _ | trace _ => []

/-- A stage may read or write a slot. -/
def Touches (stage : Stage) (slot : Nat) : Prop :=
  ∃ range ∈ stage.footprint, range.index ≤ slot ∧ slot < range.stop

/-- A stage neither changes a slot nor lets anything else depend on it. -/
def Spares (stage : Stage) (slot : Nat) : Prop :=
  ∀ {lanes : Nat} (batch : Batch lanes) (m : Machine lanes) (words : Vector UInt32 lanes),
    (m.setSlot slot words).apply batch stage = (m.apply batch stage).setSlot slot words

end Stage

namespace Machine

variable {lanes : Nat}

/-! ## One slot aside -/

/-- Two machines differ in one slot at most, which holds given words in the first of them. -/
def DiffersAt (j : Nat) (w : Vector UInt32 lanes) (m μ : Machine lanes) : Prop :=
  m = μ.setSlot j w

namespace DiffersAt

variable {j : Nat} {w : Vector UInt32 lanes} {m μ : Machine lanes}

theorem slot (h : DiffersAt j w m μ) {i : Nat} (hi : i ≠ j) : m.slot i = μ.slot i := by
  rw [h, slot_setSlot, if_neg (by omega)]

theorem size (h : DiffersAt j w m μ) : m.values.size = μ.values.size := by
  rw [h, size_setSlot]

theorem executes (h : DiffersAt j w m μ) (lane : Fin lanes) :
    m.executes lane = μ.executes lane := by
  rw [h, executes_setSlot]

theorem masked (h : DiffersAt j w m μ) (old new : Vector UInt32 lanes) :
    m.masked old new = μ.masked old new := by
  rw [h, masked_setSlot]

theorem setSlot (h : DiffersAt j w m μ) {i : Nat} (hi : i ≠ j) (v : Vector UInt32 lanes) :
    DiffersAt j w (m.setSlot i v) (μ.setSlot i v) := by
  rw [DiffersAt, h]
  apply ext_slots
  · simp
  · intro k _
    simp only [slot_setSlot, size_setSlot]
    by_cases hik : i = k
    · subst hik
      simp [hi.symm]
    · simp [hik]
  all_goals rfl

theorem setWord (h : DiffersAt j w m μ) {i : Nat} (hi : i ≠ j) (lane : Fin lanes) (x : UInt32) :
    DiffersAt j w (m.setWord i lane x) (μ.setWord i lane x) := by
  rw [DiffersAt, h]
  apply ext_slots
  · simp
  · intro k _
    simp only [slot_setSlot, slot_setWord, size_setSlot, size_setWord]
    by_cases hik : i = k
    · subst hik
      simp [hi.symm]
    · simp [hik]
  all_goals rfl

theorem window (h : DiffersAt j w m μ) {base n : Nat} (hj : j < base ∨ base + n ≤ j) :
    m.window base n = μ.window base n := by
  apply window_congr
  intro i hi
  exact h.slot (by omega)

theorem overwrite (h : DiffersAt j w m μ) {t : Nat} {ws : List (Vector UInt32 lanes)}
    (hj : j < t ∨ t + ws.length ≤ j) : DiffersAt j w (m.overwrite t ws) (μ.overwrite t ws) := by
  refine forEach_rel (R := DiffersAt j w) _ h ?_
  intro i hi m' μ' h'
  exact h'.setSlot (by omega) _

theorem copy (h : DiffersAt j w m μ) {t s n : Nat} (masked : Bool) (ht : j < t ∨ t + n ≤ j)
    (hs : j < s ∨ s + n ≤ j) : DiffersAt j w (m.copy t s n masked) (μ.copy t s n masked) := by
  refine forEach_rel (R := DiffersAt j w) _ h ?_
  intro i hi m' μ' h'
  simp only [h'.slot (show s + i ≠ j by omega), h'.slot (show t + i ≠ j by omega), h'.masked]
  exact h'.setSlot (by omega) _

theorem scatter (h : DiffersAt j w m μ) {t s : Nat} {components : List Nat} (lane : Fin lanes)
    (ht : j < t ∨ t + scatterWidth components ≤ j) (hs : j < s ∨ s + components.length ≤ j) :
    DiffersAt j w (m.scatter t s components lane) (μ.scatter t s components lane) := by
  have hmem : ∀ ci ∈ components.zipIdx, t + ci.1 ≠ j ∧ s + ci.2 ≠ j := by
    rintro ⟨c, i⟩ hci
    obtain ⟨-, hi, hc⟩ := List.mem_zipIdx hci
    have hw := lt_scatterWidth (List.getElem_mem (l := components) (n := i) (by omega))
    simp only [Nat.sub_zero] at hc
    simp only [← hc] at hw ⊢
    omega
  simp only [Machine.scatter]
  generalize components.zipIdx = l at hmem
  induction l generalizing m μ with
  | nil => exact h
  | cons ci l ih =>
    simp only [List.foldl_cons]
    obtain ⟨hc, hi⟩ := hmem ci (List.mem_cons_self ..)
    refine ih ?_ fun ci' h' => hmem ci' (List.mem_cons_of_mem _ h')
    rw [h.slot hi]
    exact h.setWord hc lane _

theorem mapLanes (h : DiffersAt j w m μ) {base consumed produced : Nat}
    (f : Array UInt32 → Array UInt32) (hj : j < base ∨ base + max consumed produced ≤ j) :
    DiffersAt j w (m.mapLanes base consumed produced f) (μ.mapLanes base consumed produced f) := by
  rw [mapLanes_eq_overwrite, mapLanes_eq_overwrite, h.window (by omega)]
  exact h.overwrite (by rw [Words.length_mapLanes]; omega)

theorem record (h : DiffersAt j w m μ) (event : TraceEvent) :
    DiffersAt j w (m.record event) (μ.record event) := by
  have hfirst : m.firstExecutes = μ.firstExecutes := by simp only [firstExecutes, h.executes]
  simp only [Machine.record, hfirst]
  split
  · rw [h]
    rfl
  · exact h

/-- Machines that agree outside the slots, and on them but for one. -/
theorem of_fields (h : DiffersAt j w m μ) {m' μ' : Machine lanes} (values : m'.values = m.values)
    (values' : μ'.values = μ.values) (registers : m'.registers = μ'.registers)
    (condition : m'.condition = μ'.condition) (loop : m'.loop = μ'.loop)
    (returns : m'.returns = μ'.returns) (trace : m'.trace = μ'.trace) : DiffersAt j w m' μ' := by
  have hv : m.values = μ.values.setIfInBounds j w := congrArg Machine.values h
  cases m'
  cases μ'
  simp_all [DiffersAt, Machine.setSlot]

end DiffersAt

end Machine

/-! ## Every stage -/

/-- A slot is in none of some ranges. -/
def Clears (j : Nat) (ranges : List SlotRange) : Prop :=
  ∀ range ∈ ranges, j < range.index ∨ range.stop ≤ j

theorem clears_nil {j : Nat} : Clears j [] ↔ True := by simp [Clears]

theorem clears_cons {j : Nat} {range : SlotRange} {ranges : List SlotRange} :
    Clears j (range :: ranges) ↔
      (j < range.index ∨ range.index + range.count ≤ j) ∧ Clears j ranges :=
  List.forall_mem_cons

open Machine in
/-- Slots outside the footprint of a stage are neither read nor written by it. -/
theorem Stage.spares_of_footprint {stage : Stage} {j : Nat} (hj : ¬ stage.Touches j) :
    stage.Spares j := by
  intro lanes batch μ w
  have outside : Clears j stage.footprint := by
    intro range hr
    by_contra h
    exact hj ⟨range, hr, by omega⟩
  suffices goal : ∀ m, DiffersAt j w m μ →
      DiffersAt j w (m.apply batch stage) (μ.apply batch stage) from goal _ rfl
  intro m h
  have hreg : m.registers = μ.registers := by rw [h, registers_setSlot]
  have hcond : m.condition = μ.condition := by rw [h, condition_setSlot]
  have hloop : m.loop = μ.loop := by rw [h, loop_setSlot]
  have hret : m.returns = μ.returns := by rw [h, returns_setSlot]
  have htrace : m.trace = μ.trace := by rw [h, trace_setSlot]
  cases stage with
  | initLaneMasks => exact h.of_fields rfl rfl hreg rfl rfl rfl htrace
  | storeCoords target =>
    simp only [footprint, clears_cons, clears_nil, and_true] at outside
    rw [apply_storeCoords, apply_storeCoords, hreg]
    exact h.overwrite (by simpa using outside)
  | storeInput input target =>
    simp only [footprint, clears_cons, clears_nil, and_true] at outside
    have hinput : m.input batch input = μ.input batch input := by
      cases input with
      | color register => cases register <;> simp [Machine.input, hreg]
      | device => rfl
    rw [apply_storeInput, apply_storeInput, hinput]
    exact h.overwrite (by simpa [Rgba.toList] using outside)
  | loadColor register source =>
    simp only [footprint, clears_cons, clears_nil, and_true] at outside
    have hslot : ∀ i < 4, m.slot (source + i) = μ.slot (source + i) := fun i hi =>
      h.slot (by omega)
    have h₀ := hslot 0 (by omega)
    cases register <;>
      exact h.of_fields rfl rfl (by simp_all [Machine.apply]) hcond hloop hret htrace
  | loadCoords source =>
    simp only [footprint, clears_cons, clears_nil, and_true] at outside
    have h₀ := h.slot (show source ≠ j by omega)
    have h₁ := h.slot (show source + 1 ≠ j by omega)
    exact h.of_fields rfl rfl (by simp_all [Machine.apply]) hcond hloop hret htrace
  | storeMask mask target =>
    simp only [footprint, clears_cons, clears_nil, and_true] at outside
    have hmask : m.mask mask = μ.mask mask := by cases mask <;> assumption
    rw [apply_storeMask, apply_storeMask, hmask]
    exact h.overwrite (by simpa using outside)
  | loadMask mask source =>
    simp only [footprint, clears_cons, clears_nil, and_true] at outside
    have hslot := h.slot (show source ≠ j by omega)
    cases mask <;> refine h.of_fields rfl rfl hreg ?_ ?_ ?_ htrace <;>
      simp_all [Machine.apply, Machine.setMask]
  | mergeCondition inverted source =>
    simp only [footprint, clears_cons, clears_nil, and_true] at outside
    have h₀ := h.slot (show source ≠ j by omega)
    have h₁ := h.slot (show source + 1 ≠ j by omega)
    exact h.of_fields rfl rfl hreg (by simp_all [Machine.apply]) hloop hret htrace
  | mergeLoop source =>
    simp only [footprint, clears_cons, clears_nil, and_true] at outside
    have h₀ := h.slot (show source ≠ j by omega)
    exact h.of_fields rfl rfl hreg hcond (by simp_all [Machine.apply]) hret htrace
  | reenableLoop source =>
    simp only [footprint, clears_cons, clears_nil, and_true] at outside
    have h₀ := h.slot (show source ≠ j by omega)
    exact h.of_fields rfl rfl hreg hcond (by simp_all [Machine.apply]) hret htrace
  | maskOffLoop =>
    exact h.of_fields rfl rfl hreg hcond (by simp only [Machine.apply, h.masked, hloop]) hret htrace
  | maskOffReturn =>
    exact h.of_fields rfl rfl hreg hcond hloop (by simp only [Machine.apply, h.masked, hret]) htrace
  | continueLoop continueMask =>
    simp only [footprint, clears_cons, clears_nil, and_true] at outside
    have h₀ := h.slot (show continueMask ≠ j by omega)
    simp only [Machine.apply, h.masked, h₀, hloop]
    exact (h.setSlot (by omega) _).of_fields rfl rfl hreg hcond rfl hret htrace
  | matchCase base value =>
    simp only [footprint, clears_cons, clears_nil, and_true] at outside
    have h₀ := h.slot (show base ≠ j by omega)
    have h₁ := h.slot (show base + 1 ≠ j by omega)
    simp only [Machine.apply, h₀, h₁, hloop]
    exact (h.setSlot (by omega) _).of_fields rfl rfl hreg hcond rfl hret htrace
  | splat target count value =>
    simp only [footprint, clears_cons, clears_nil, and_true] at outside
    rw [apply_splat, apply_splat]
    exact h.overwrite (by simpa using outside)
  | zeroSlots target count =>
    simp only [footprint, clears_cons, clears_nil, and_true] at outside
    simp only [Machine.apply, fill_eq_overwrite]
    exact h.overwrite (by simpa using outside)
  | copyUniform target source count =>
    simp only [footprint, clears_cons, clears_nil, and_true] at outside
    simp only [Machine.apply, fill_eq_overwrite]
    exact h.overwrite (by simpa using outside)
  | copyImmutable target source count =>
    simp only [footprint, clears_cons, clears_nil, and_true] at outside
    simp only [Machine.apply, fill_eq_overwrite]
    exact h.overwrite (by simpa using outside)
  | copySlots target source count masked =>
    simp only [footprint, clears_cons, clears_nil, and_true] at outside
    exact h.copy masked outside.1 outside.2
  | select target source count =>
    simp only [footprint, clears_cons, clears_nil, and_true] at outside
    exact h.copy true outside.1 outside.2
  | copyFromIndirect target source count offset limit space =>
    have hoffset : m.slot offset = μ.slot offset := by
      refine h.slot ?_
      cases space <;> simp only [footprint, clears_cons, clears_nil, and_true] at outside <;> omega
    have htarget : j < target ∨ target + count ≤ j := by
      cases space <;> simp only [footprint, clears_cons, clears_nil, and_true] at outside <;> omega
    simp only [Machine.apply, hoffset]
    refine forEach_rel (R := DiffersAt j w) _ h ?_
    intro i hi m' μ' h'
    have hread : ∀ lane : Fin lanes,
        m'.read batch space (((μ.slot offset).map fun word =>
          indirectStart source word count limit).get lane + i) lane =
        μ'.read batch space (((μ.slot offset).map fun word =>
          indirectStart source word count limit).get lane + i) lane := by
      intro lane
      cases space with
      | value =>
        simp only [footprint, clears_cons, clears_nil, and_true] at outside
        simp only [Machine.read]
        rw [h'.slot]
        simp only [Vector.get_map, indirectStart]
        omega
      | uniform => rfl
      | immutable => rfl
    simp only [hread]
    exact h'.setSlot (by omega) _
  | copyToIndirect target source count offset limit =>
    simp only [footprint, clears_cons, clears_nil, and_true] at outside
    refine forActiveLanes_rel (R := DiffersAt j w) (fun _ _ h' => h'.executes) h ?_
    intro lane m' μ' h'
    rw [h'.slot (show offset ≠ j by omega)]
    refine forEach_rel (R := DiffersAt j w) _ h' ?_
    intro i hi m'' μ'' h''
    rw [h''.slot (show source + i ≠ j by omega)]
    refine h''.setWord ?_ lane _
    simp only [indirectStart]
    omega
  | swizzleCopy target source components =>
    simp only [footprint, clears_cons, clears_nil, and_true] at outside
    refine forActiveLanes_rel (R := DiffersAt j w) (fun _ _ h' => h'.executes) h ?_
    intro lane m' μ' h'
    exact h'.scatter lane outside.1 outside.2
  | swizzleCopyToIndirect target source components offset limit =>
    simp only [footprint, clears_cons, clears_nil, and_true] at outside
    refine forActiveLanes_rel (R := DiffersAt j w) (fun _ _ h' => h'.executes) h ?_
    intro lane m' μ' h'
    rw [h'.slot (show offset ≠ j by omega)]
    refine h'.scatter lane ?_ outside.2.1
    rw [← scatterWidth.eq_1, indirectStart]
    omega
  | swizzle base consumed components =>
    simp only [footprint, clears_cons, clears_nil, and_true] at outside
    rw [apply_swizzle, apply_swizzle, h.window (by omega)]
    exact h.overwrite (by rw [Words.length_choose]; omega)
  | transpose | diagonal | resize | multiply | inverse | determinant | dot | refract =>
    simp only [footprint, clears_cons, clears_nil, and_true] at outside
    simp only [Machine.apply]
    exact h.mapLanes _ (by omega)
  | unary op ty target count =>
    simp only [footprint, clears_cons, clears_nil, and_true] at outside
    rw [apply_unary, apply_unary, h.window outside]
    exact h.overwrite (by simpa using outside)
  | binaryImm op ty target count bits =>
    simp only [footprint, clears_cons, clears_nil, and_true] at outside
    rw [apply_binaryImm, apply_binaryImm, h.window outside]
    exact h.overwrite (by simpa using outside)
  | binary op ty target source count =>
    simp only [footprint, clears_cons, clears_nil, and_true] at outside
    refine forEach_rel (R := DiffersAt j w) _ h ?_
    intro i hi m' μ' h'
    rw [h'.slot (show target + i ≠ j by omega), h'.slot (show source + i ≠ j by omega)]
    exact h'.setSlot (by omega) _
  | ternary op ty base count =>
    simp only [footprint, clears_cons, clears_nil, and_true] at outside
    rw [apply_ternary, apply_ternary, h.window outside]
    exact h.overwrite (by rw [Words.length_combine3]; omega)
  | host stage =>
    exact h.of_fields rfl rfl (by simp only [Machine.apply, hreg]) hcond hloop hret htrace
  | trace mark =>
    cases mark with
    | var range =>
      simp only [footprint, clears_cons, clears_nil, and_true] at outside
      refine forEach_rel (R := DiffersAt j w) _ h ?_
      intro i hi m' μ' h'
      simp only [firstWord, h'.slot (show range.index + i ≠ j by omega)]
      exact h'.record _
    | line | enter | exit | scope => exact h.record _
  | branch condition offset => exact h
  | stackRewind => exact h
  | setBasePointer => exact h

/-! ## Stages of operations -/

/-- Stacks that an operation names besides its own. -/
def Op.namedStacks : Op → List Int
  | .pushIndirect _ _ stack _ | .pushCloneFromStack _ stack _ | .copyToIndirect _ stack _ _
  | .swizzleToIndirect _ _ _ _ stack _ | .continueLoop stack => [stack]
  | .pushCloneIndirect _ stack _ offsetStack => [stack, offsetStack]
  | _ => []

/-- A slot is in the region of a stack. -/
def Pipeline.InRegion (p : Pipeline) (s j : Nat) : Prop :=
  p.stackBase s ≤ j ∧ j < p.stackBase s + p.stackDepths.getD s 0

/-- A stage of an operation that finds its operands touches value slots, slots of its own stack, and
slots of the stacks that it names. -/
theorem Op.touches_stage {p : Pipeline} {depth : Int → Int} {topOf : Int → Nat}
    (negative : ∀ t < 0, depth t = 0)
    (fits : ∀ t : Nat, 0 ≤ depth t ∧ depth t ≤ p.stackDepths.getD t 0)
    (htop : ∀ t : Nat, (topOf t : Int) = p.stackBase t + depth t) {s : Nat} {op : Op}
    {stage : Stage} (finds : op.Finds p.valueSlots depth s)
    (room : depth s + op.stackUsage ≤ p.stackDepths.getD s 0)
    (hstage : op.stage? (topOf s) topOf = some stage) {j : Nat} (touches : stage.Touches j) :
    j < p.valueSlots ∨ p.InRegion s j ∨ ∃ t : Nat, (t : Int) ∈ op.namedStacks ∧ p.InRegion t j := by
  have hs := fits s
  have htopS := htop s
  -- a stack that holds a word has a number that is not negative
  have named : ∀ t : Int, 1 ≤ depth t → ∃ k : Nat, t = k ∧ depth k ≤ p.stackDepths.getD k 0 ∧
      (topOf k : Int) = p.stackBase k + depth k := by
    intro t ht
    obtain ⟨k, rfl⟩ : ∃ k : Nat, t = k := by
      refine Int.eq_ofNat_of_zero_le ?_
      by_contra hneg
      have := negative t (by omega)
      omega
    exact ⟨k, rfl, (fits k).2, htop k⟩
  have other : ∀ (t : Int) (d : Nat), t ∈ op.namedStacks → 1 ≤ d → (d : Int) ≤ depth t →
      topOf t - d ≤ j → j < topOf t - d + d →
      ∃ t : Nat, (t : Int) ∈ op.namedStacks ∧ p.InRegion t j := by
    intro t d ht h1 hd hlow hhigh
    obtain ⟨k, rfl, hk, htopK⟩ := named t (by omega)
    exact ⟨k, ht, by omega, by omega⟩
  have own : topOf s - depth s ≤ j → (j : Int) < p.stackBase s + p.stackDepths.getD s 0 →
      p.InRegion s j := by
    intro hlow hhigh
    exact ⟨by omega, by omega⟩
  simp only [Stage.Touches, SlotRange.stop] at touches
  cases op with
  | pushConstant | pushMask | pushInput | popMask | popAndReenableLoop | popCoords | popColor
  | mergeCondition | mergeLoop | reenableLoop | matchCase | unary | ternary | transpose | diagonal
  | resize | multiply | inverse | determinant | dot | refract =>
    cases hstage
    simp only [Op.Finds, Op.stackUsage] at finds room
    simp only [Stage.footprint, List.mem_cons, List.not_mem_nil, or_false, exists_eq_left]
      at touches
    exact .inr (.inl (own (by omega) (by omega)))
  | swizzle consumed count packed =>
    cases hstage
    simp only [Op.Finds, Op.stackUsage] at finds room
    simp only [Stage.footprint, List.mem_cons, List.not_mem_nil, or_false, exists_eq_left,
      length_unpackNybbles] at touches
    exact .inr (.inl (own (by omega) (by omega)))
  | shuffle consumed count low high =>
    cases hstage
    simp only [Op.Finds, Op.stackUsage] at finds room
    simp only [Stage.footprint, List.mem_cons, List.not_mem_nil, or_false, exists_eq_left,
      List.length_append, length_unpackNybbles] at touches
    exact .inr (.inl (own (by omega) (by omega)))
  | binary | select | pushClone =>
    cases hstage
    simp only [Op.Finds, Op.stackUsage] at finds room
    simp only [Stage.footprint, List.mem_cons, List.not_mem_nil, or_false, exists_eq_or_imp,
      exists_eq_left] at touches
    rcases touches with touches | touches <;> exact .inr (.inl (own (by omega) (by omega)))
  | zeroSlots | storeCoords | storeInput | loadColor =>
    cases hstage
    simp only [Op.Finds, SlotRange.stop] at finds
    simp only [Stage.footprint, List.mem_cons, List.not_mem_nil, or_false, exists_eq_left]
      at touches
    exact .inl (by omega)
  | copySlots masked target source count =>
    cases hstage
    simp only [Op.Finds] at finds
    simp only [Stage.footprint, List.mem_cons, List.not_mem_nil, or_false, exists_eq_or_imp,
      exists_eq_left] at touches
    rcases touches with touches | touches <;> exact .inl (by omega)
  | copyToSlots | swizzleToSlots =>
    cases hstage
    simp only [Op.Finds, SlotRange.stop] at finds
    simp only [Stage.footprint, List.mem_cons, List.not_mem_nil, or_false, exists_eq_or_imp,
      exists_eq_left] at touches
    rcases touches with touches | touches
    · exact .inl (by omega)
    · exact .inr (.inl (own (by omega) (by omega)))
  | copyToIndirect fixed offsetStack limit distance =>
    cases hstage
    simp only [Op.Finds, SlotRange.stop] at finds
    simp only [Stage.footprint, List.mem_cons, List.not_mem_nil, or_false, exists_eq_or_imp,
      exists_eq_left] at touches
    rcases touches with touches | touches | touches
    · exact .inl (by omega)
    · exact .inr (.inl (own (by omega) (by omega)))
    · exact .inr (.inr (other offsetStack 1 (by simp [namedStacks]) le_rfl (by omega) (by omega)
        (by omega)))
  | swizzleToIndirect target count packed distance offsetStack limit =>
    cases hstage
    simp only [Op.Finds] at finds
    simp only [Stage.footprint, List.mem_cons, List.not_mem_nil, or_false, exists_eq_or_imp,
      exists_eq_left] at touches
    rcases touches with touches | touches | touches
    · exact .inl (by omega)
    · exact .inr (.inl (own (by omega) (by omega)))
    · exact .inr (.inr (other offsetStack 1 (by simp [namedStacks]) le_rfl (by omega) (by omega)
        (by omega)))
  | continueLoop stack =>
    cases hstage
    simp only [Op.Finds] at finds
    simp only [Stage.footprint, List.mem_cons, List.not_mem_nil, or_false, exists_eq_left]
      at touches
    exact .inr (.inr (other stack 1 (by simp [namedStacks]) le_rfl (by omega) (by omega) (by omega)))
  | pushCloneFromStack count stack distance =>
    cases hstage
    simp only [Op.Finds, Op.stackUsage] at finds room
    simp only [Stage.footprint, List.mem_cons, List.not_mem_nil, or_false, exists_eq_or_imp,
      exists_eq_left] at touches
    rcases touches with touches | touches
    · exact .inr (.inl (own (by omega) (by omega)))
    · exact .inr (.inr (other stack distance (by simp [namedStacks]) (by omega) (by omega)
        (by omega) (by omega)))
  | pushCloneIndirect count stack distance offsetStack =>
    cases hstage
    simp only [Op.Finds, Op.stackUsage] at finds room
    simp only [Stage.footprint, List.mem_cons, List.not_mem_nil, or_false, exists_eq_or_imp,
      exists_eq_left] at touches
    rcases touches with touches | touches | touches
    · exact .inr (.inl (own (by omega) (by omega)))
    · exact .inr (.inr (other stack distance (by simp [namedStacks]) (by omega) (by omega)
        (by omega) (by omega)))
    · exact .inr (.inr (other offsetStack 1 (by simp [namedStacks]) le_rfl (by omega) (by omega)
        (by omega)))
  | pushSlots space range =>
    simp only [Op.Finds, Op.stackUsage, SlotRange.stop] at finds room
    cases space with
    | value =>
      cases hstage
      have := finds rfl
      simp only [Stage.footprint, List.mem_cons, List.not_mem_nil, or_false, exists_eq_or_imp,
        exists_eq_left] at touches
      rcases touches with touches | touches
      · exact .inr (.inl (own (by omega) (by omega)))
      · exact .inl (by omega)
    | uniform | immutable =>
      cases hstage
      simp only [Stage.footprint, List.mem_cons, List.not_mem_nil, or_false, exists_eq_left]
        at touches
      exact .inr (.inl (own (by omega) (by omega)))
  | pushIndirect space fixed offsetStack limit =>
    simp only [Op.Finds, Op.stackUsage, SlotRange.stop] at finds room
    cases hstage
    cases space with
    | value =>
      have := finds.2 rfl
      simp only [Stage.footprint, List.mem_cons, List.not_mem_nil, or_false, exists_eq_or_imp,
        exists_eq_left] at touches
      rcases touches with touches | touches | touches
      · exact .inr (.inl (own (by omega) (by omega)))
      · exact .inl (by omega)
      · exact .inr (.inr (other offsetStack 1 (by simp [namedStacks]) le_rfl (by omega) (by omega)
          (by omega)))
    | uniform | immutable =>
      simp only [Stage.footprint, List.mem_cons, List.not_mem_nil, or_false, exists_eq_or_imp,
        exists_eq_left] at touches
      rcases touches with touches | touches
      · exact .inr (.inl (own (by omega) (by omega)))
      · exact .inr (.inr (other offsetStack 1 (by simp [namedStacks]) le_rfl (by omega) (by omega)
          (by omega)))
  | binaryImm op ty count bits slot =>
    cases hstage
    cases slot with
    | none =>
      simp only [Op.Finds, Op.stackUsage] at finds room
      simp only [Stage.footprint, List.mem_cons, List.not_mem_nil, or_false, exists_eq_left,
        Option.getD_none] at touches
      exact .inr (.inl (own (by omega) (by omega)))
    | some slot =>
      simp only [Op.Finds] at finds
      simp only [Stage.footprint, List.mem_cons, List.not_mem_nil, or_false, exists_eq_left,
        Option.getD_some] at touches
      exact .inl (by omega)
  | trace mark =>
    cases hstage
    cases mark with
    | var range =>
      simp only [Op.Finds, SlotRange.stop] at finds
      simp only [Stage.footprint, List.mem_cons, List.not_mem_nil, or_false, exists_eq_left]
        at touches
      exact .inl (by omega)
    | line | enter | exit | scope => simp [Stage.footprint] at touches
  | initLaneMasks | maskOffLoop | maskOffReturn =>
    cases hstage
    simp [Stage.footprint] at touches
  | pad | discard | storeImmutable | label | branch | invoke => cases hstage

end RasterShader
