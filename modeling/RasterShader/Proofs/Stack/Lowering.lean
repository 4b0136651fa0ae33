import Mathlib
import RasterShader.Proofs.Stack.Layout

/-!
# Stages do what their operations say

The stage of an operation (`Op.stage?`) works on slots whose numbers follow from the depths of the
stacks.  Running it on a machine that holds the memory and the stacks of a stack machine gives a
machine that holds what the operation makes of them: `LaidOut.apply_stage`, assembled from a lemma
for each kind of operation.  No stage faults unless the operation does (`fault?_stage`).
-/

namespace RasterShader

variable {lanes : Nat} {host : HostCall → Registers lanes → Registers lanes} {batch : Batch lanes}
  {p : Pipeline} {m : Machine lanes} {σ : StackMachine lanes}

namespace LaidOut

/-! ## Operations on the memory alone -/

/-- Both machines change a value slot. -/
theorem setSlot_values (lay : LaidOut p m σ) {i : Nat} (h : i < p.valueSlots)
    (w : Vector UInt32 lanes) : LaidOut p (m.setSlot i w) (σ.onMemory (·.setSlot i w)) := by
  have hw : i + [w].length ≤ p.valueSlots := by simpa using h
  exact lay.overwrite_values hw

/-- A loop over places that changes value slots alike. -/
theorem forEach (lay : LaidOut p m σ) (n : Nat) {f g : Nat → Machine lanes → Machine lanes}
    (round : ∀ i < n, ∀ m' μ, LaidOut p m' { σ with memory := μ } →
      LaidOut p (f i m') { σ with memory := g i μ }) :
    LaidOut p (m.forEach n f) (σ.onMemory (·.forEach n g)) :=
  Machine.forEach_rel (R := fun m' μ => LaidOut p m' { σ with memory := μ }) n lay round

/-- A loop over the lanes that execute that changes value slots alike. -/
theorem forActiveLanes (lay : LaidOut p m σ) {f g : Fin lanes → Machine lanes → Machine lanes}
    (round : ∀ lane m' μ, LaidOut p m' { σ with memory := μ } →
      LaidOut p (f lane m') { σ with memory := g lane μ }) :
    LaidOut p (m.forActiveLanes f) (σ.onMemory (·.forActiveLanes g)) :=
  Machine.forActiveLanes_rel (R := fun m' μ => LaidOut p m' { σ with memory := μ })
    (fun _ _ lay' => lay'.executes) lay round

theorem copy (lay : LaidOut p m σ) {t s n : Nat} (masked : Bool) (ht : t + n ≤ p.valueSlots)
    (hs : s + n ≤ p.valueSlots) :
    LaidOut p (m.copy t s n masked) (σ.onMemory (·.copy t s n masked)) := by
  apply lay.forEach n
  intro i hi m' μ lay'
  have hsource := lay'.values (s + i) (by omega)
  have htarget := lay'.values (t + i) (by omega)
  simp only at hsource htarget
  simp only [hsource, htarget, lay'.masked]
  exact lay'.setSlot_values (by omega) _

theorem storeCoords (lay : LaidOut p m σ) {t : Nat} (h : t + 2 ≤ p.valueSlots) :
    LaidOut p (m.apply batch (.storeCoords t)) (σ.onMemory (·.apply batch (.storeCoords t))) := by
  simp only [StackMachine.onMemory, Machine.apply_storeCoords, lay.registers]
  exact lay.overwrite_values (by simpa using h)

theorem storeInput (lay : LaidOut p m σ) (input : Input) {t : Nat} (h : t + 4 ≤ p.valueSlots) :
    LaidOut p (m.apply batch (.storeInput input t))
      (σ.onMemory (·.apply batch (.storeInput input t))) := by
  simp only [StackMachine.onMemory, Machine.apply_storeInput, lay.input]
  exact lay.overwrite_values (by simpa [Rgba.toList] using h)

theorem loadColor (lay : LaidOut p m σ) (register : ColorRegister) {s : Nat}
    (h : s + 4 ≤ p.valueSlots) :
    LaidOut p (m.apply batch (.loadColor register s))
      (σ.onMemory (·.apply batch (.loadColor register s))) := by
  have slots : ∀ i < 4, m.slot (s + i) = σ.memory.slot (s + i) :=
    fun i hi => lay.values _ (by omega)
  have slot := slots 0 (by omega)
  rw [Nat.add_zero] at slot
  cases register <;>
    exact lay.onMemory rfl rfl
      (by simp [Machine.apply, slot, slots, lay.registers]) lay.condition lay.loop lay.returns
      lay.trace

theorem zeroSlots (lay : LaidOut p m σ) {t n : Nat} (h : t + n ≤ p.valueSlots) :
    LaidOut p (m.apply batch (.zeroSlots t n)) (σ.onMemory (·.apply batch (.zeroSlots t n))) := by
  simp only [Machine.apply, Machine.fill_eq_overwrite]
  exact lay.overwrite_values (by simpa using h)

theorem binaryImm_values (lay : LaidOut p m σ) (op : BinaryOp) (ty : NumType) {t n : Nat}
    (bits : UInt32) (h : t + n ≤ p.valueSlots) :
    LaidOut p (m.apply batch (.binaryImm op ty t n bits))
      (σ.onMemory (·.apply batch (.binaryImm op ty t n bits))) := by
  have window : m.window t n = σ.memory.window t n :=
    Machine.window_congr fun i hi => lay.values _ (by omega)
  simp only [StackMachine.onMemory, Machine.apply_binaryImm, window]
  exact lay.overwrite_values (by simpa using h)

theorem initLaneMasks (lay : LaidOut p m σ) :
    LaidOut p (m.apply batch .initLaneMasks) (σ.onMemory (·.apply batch .initLaneMasks)) :=
  lay.onMemory rfl rfl lay.registers rfl rfl rfl lay.trace

theorem maskOffLoop (lay : LaidOut p m σ) :
    LaidOut p (m.apply batch .maskOffLoop) (σ.onMemory (·.apply batch .maskOffLoop)) :=
  lay.onMemory rfl rfl lay.registers lay.condition
    (by simp [Machine.apply, lay.masked, lay.loop]) lay.returns lay.trace

theorem maskOffReturn (lay : LaidOut p m σ) :
    LaidOut p (m.apply batch .maskOffReturn) (σ.onMemory (·.apply batch .maskOffReturn)) :=
  lay.onMemory rfl rfl lay.registers lay.condition lay.loop
    (by simp [Machine.apply, lay.masked, lay.returns]) lay.trace

theorem setCondition (lay : LaidOut p m σ) (w : Vector UInt32 lanes) :
    LaidOut p { m with condition := w }
      { σ with memory := { σ.memory with condition := w } } :=
  lay.onMemory (f := fun μ => { μ with condition := w }) rfl rfl lay.registers rfl lay.loop
    lay.returns lay.trace

theorem setLoop (lay : LaidOut p m σ) (w : Vector UInt32 lanes) :
    LaidOut p { m with loop := w } { σ with memory := { σ.memory with loop := w } } :=
  lay.onMemory (f := fun μ => { μ with loop := w }) rfl rfl lay.registers lay.condition rfl
    lay.returns lay.trace

theorem setRegisters (lay : LaidOut p m σ) (registers : Registers lanes) :
    LaidOut p { m with registers } { σ with memory := { σ.memory with registers } } :=
  lay.onMemory (f := fun μ => { μ with registers }) rfl rfl rfl lay.condition lay.loop
    lay.returns lay.trace

theorem setMask (lay : LaidOut p m σ) (mask : Mask) (w : Vector UInt32 lanes) :
    LaidOut p (m.setMask mask w) (σ.onMemory (·.setMask mask w)) := by
  cases mask with
  | condition => exact lay.onMemory rfl rfl lay.registers rfl lay.loop lay.returns lay.trace
  | loop => exact lay.onMemory rfl rfl lay.registers lay.condition rfl lay.returns lay.trace
  | returns => exact lay.onMemory rfl rfl lay.registers lay.condition lay.loop rfl lay.trace

theorem firstExecutes (lay : LaidOut p m σ) : m.firstExecutes = σ.memory.firstExecutes := by
  simp [Machine.firstExecutes, lay.executes]

theorem record (lay : LaidOut p m σ) (event : TraceEvent) :
    LaidOut p (m.record event) (σ.onMemory (·.record event)) := by
  have events : (m.record event).trace = (σ.memory.record event).trace := by
    simp only [Machine.record, lay.firstExecutes]
    split
    · simp [lay.trace]
    · exact lay.trace
  have values : ∀ n : Machine lanes, (n.record event).values = n.values ∧
      (n.record event).registers = n.registers ∧ (n.record event).condition = n.condition ∧
      (n.record event).loop = n.loop ∧ (n.record event).returns = n.returns := by
    intro n
    simp only [Machine.record]
    split <;> simp
  obtain ⟨hv, hr, hc, hl, ht⟩ := values m
  obtain ⟨hv', hr', hc', hl', ht'⟩ := values σ.memory
  exact lay.onMemory hv hv' (by rw [hr, hr', lay.registers]) (by rw [hc, hc', lay.condition])
    (by rw [hl, hl', lay.loop]) (by rw [ht, ht', lay.returns]) events

theorem trace_mark (lay : LaidOut p m σ) (mark : TraceMark)
    (h : ∀ range, mark = .var range → range.stop ≤ p.valueSlots) :
    LaidOut p (m.apply batch (.trace mark)) (σ.onMemory (·.apply batch (.trace mark))) := by
  cases mark with
  | line number => exact lay.record _
  | enter function => exact lay.record _
  | exit function => exact lay.record _
  | scope delta => exact lay.record _
  | var range =>
    have hrange := h range rfl
    apply lay.forEach range.count
    intro i hi m' μ lay'
    have hslot := lay'.values (range.index + i) (by simp only [SlotRange.stop] at hrange; omega)
    simp only at hslot
    simp only [Machine.firstWord, hslot]
    exact lay'.record _

/-! ## Pushes -/

theorem pushSlots_value (lay : LaidOut p m σ) (s : Nat) (range : SlotRange)
    (hv : range.stop ≤ p.valueSlots)
    (hr : (σ.stack s).length + range.count ≤ p.stackDepths.getD s 0) :
    LaidOut p
      (m.apply batch
        (.copySlots (p.stackBase s + (σ.stack s).length) range.index range.count false))
      (Op.exec host batch s σ (.pushSlots .value range)) := by
  have hbase := p.valueSlots_le_stackBase s
  simp only [SlotRange.stop] at hv
  rw [Machine.apply, Machine.copy_eq_store m (by omega), Machine.store]
  have window : m.window range.index range.count = σ.memory.window range.index range.count :=
    Machine.window_congr fun i hi => lay.values _ (by omega)
  rw [window, if_neg (by simp), Op.exec, ← Machine.window_eq_read batch]
  exact lay.push s _ (by simpa using hr)

theorem pushUniform (lay : LaidOut p m σ) (s : Nat) (range : SlotRange)
    (hr : (σ.stack s).length + range.count ≤ p.stackDepths.getD s 0) :
    LaidOut p
      (m.apply batch (.copyUniform (p.stackBase s + (σ.stack s).length) range.index range.count))
      (Op.exec host batch s σ (.pushSlots .uniform range)) := by
  rw [Machine.apply_copyUniform, Op.exec]
  exact lay.push s _ (by simpa using hr)

theorem pushImmutable (lay : LaidOut p m σ) (s : Nat) (range : SlotRange)
    (hr : (σ.stack s).length + range.count ≤ p.stackDepths.getD s 0) :
    LaidOut p
      (m.apply batch (.copyImmutable (p.stackBase s + (σ.stack s).length) range.index range.count))
      (Op.exec host batch s σ (.pushSlots .immutable range)) := by
  rw [Machine.apply_copyImmutable, Op.exec]
  exact lay.push s _ (by simpa using hr)

/-- The top of a stack that is named by its number and holds a word. -/
theorem slot_word_top (lay : LaidOut p m σ) {topOf : Int → Nat}
    (htop : ∀ t : Nat, topOf t = p.stackBase t + (σ.stack t).length) {t : Int}
    (h : 1 ≤ (σ.stack t).length) : m.slot (topOf t - 1) = σ.word t 1 := by
  obtain ⟨k, rfl⟩ := lay.exists_nat h
  rw [htop, lay.slot_word k le_rfl h]

theorem pushIndirect (lay : LaidOut p m σ) {topOf : Int → Nat}
    (htop : ∀ t : Nat, topOf t = p.stackBase t + (σ.stack t).length) (s : Nat)
    (space : SlotSpace) (fixed : SlotRange) (offsetStack : Int) (limit : Nat)
    (ho : 1 ≤ (σ.stack offsetStack).length)
    (hv : space = .value → fixed.stop ≤ p.valueSlots ∧ limit ≤ p.valueSlots)
    (hr : (σ.stack s).length + fixed.count ≤ p.stackDepths.getD s 0) :
    LaidOut p
      (m.apply batch (.copyFromIndirect (p.stackBase s + (σ.stack s).length) fixed.index
        fixed.count (topOf offsetStack - 1) limit space))
      (Op.exec host batch s σ (.pushIndirect space fixed offsetStack limit)) := by
  have hbase := p.valueSlots_le_stackBase s
  simp only [SlotRange.stop] at hv
  rw [Machine.apply_copyFromIndirect batch m space (by intro h; have := hv h; omega),
    lay.slot_word_top htop ho, Op.exec]
  have words : ((List.range fixed.count).map fun i => Vector.ofFn fun lane =>
      m.read batch space (Machine.indirectStart fixed.index
        ((σ.word offsetStack 1).get lane) fixed.count limit + i) lane) =
      (List.range fixed.count).map fun i => Vector.ofFn fun lane =>
      σ.memory.read batch space (Machine.indirectStart fixed.index
        ((σ.word offsetStack 1).get lane) fixed.count limit + i) lane := by
    apply List.map_congr_left
    intro i hi
    have hi := List.mem_range.1 hi
    congr 1
    funext lane
    apply lay.read
    intro h
    have := hv h
    simp only [Machine.indirectStart]
    omega
  rw [words]
  exact lay.push s _ (by simpa using hr)

theorem pushClone (lay : LaidOut p m σ) (s t : Nat) (count distance : Nat)
    (hc : count ≤ distance) (hd : distance ≤ (σ.stack t).length)
    (hr : (σ.stack s).length + count ≤ p.stackDepths.getD s 0) :
    LaidOut p
      (m.apply batch (.copySlots (p.stackBase s + (σ.stack s).length)
        (p.stackBase t + (σ.stack t).length - distance) count false))
      (σ.push s (σ.peek t distance count)) := by
  have hroom := lay.room t
  have hdisjoint : p.stackBase t + (σ.stack t).length - distance + count ≤
        p.stackBase s + (σ.stack s).length ∨
      p.stackBase s + (σ.stack s).length + count ≤
        p.stackBase t + (σ.stack t).length - distance := by
    rcases Nat.lt_trichotomy s t with h | rfl | h
    · have := p.stackBase_add_le h
      omega
    · omega
    · have := p.stackBase_add_le h
      omega
  rw [Machine.apply, Machine.copy_eq_store m hdisjoint, Machine.store, if_neg (by simp),
    lay.window_peek t hc hd]
  exact lay.push s _ (by rw [StackMachine.length_peek σ t hc hd]; exact hr)

/-- Pushing no words leaves both machines as they are. -/
theorem push_nil (lay : LaidOut p m σ) (s : Nat) : LaidOut p m (σ.push s []) :=
  lay.pop s (Nat.zero_le _)

theorem pushCloneFromStack (lay : LaidOut p m σ) {topOf : Int → Nat}
    (htop : ∀ t : Nat, topOf t = p.stackBase t + (σ.stack t).length) (s : Nat)
    (count : Nat) (other : Int) (distance : Nat) (hc : count ≤ distance)
    (hd : distance ≤ (σ.stack other).length)
    (hr : (σ.stack s).length + count ≤ p.stackDepths.getD s 0) :
    LaidOut p
      (m.apply batch (.copySlots (p.stackBase s + (σ.stack s).length)
        (topOf other - distance) count false))
      (Op.exec host batch s σ (.pushCloneFromStack count other distance)) := by
  by_cases hcount : count = 0
  · subst hcount
    simp only [Op.exec, StackMachine.peek, List.take_zero]
    exact lay.push_nil s
  · obtain ⟨t, rfl⟩ := lay.exists_nat (show 1 ≤ (σ.stack other).length by omega)
    rw [htop]
    exact lay.pushClone s t count distance hc hd hr

/-- An offset within a stack does not depend on where the stack begins. -/
theorem indirectStart_add (base x : Nat) (offset : UInt32) (count limit : Nat) :
    Machine.indirectStart (base + x) offset count (base + limit) =
      base + Machine.indirectStart x offset count limit := by
  simp only [Machine.indirectStart]
  omega

theorem pushCloneIndirect (lay : LaidOut p m σ) {topOf : Int → Nat}
    (htop : ∀ t : Nat, topOf t = p.stackBase t + (σ.stack t).length) (s : Nat)
    (count : Nat) (other : Int) (distance : Nat) (offsetStack : Int)
    (hc : count ≤ distance) (hd : distance ≤ (σ.stack other).length)
    (ho : 1 ≤ (σ.stack offsetStack).length)
    (hr : (σ.stack s).length + count ≤ p.stackDepths.getD s 0) :
    LaidOut p
      (m.apply batch (.copyFromIndirect (p.stackBase s + (σ.stack s).length)
        (topOf other - distance) count (topOf offsetStack - 1) (topOf other) .value))
      (Op.exec host batch s σ (.pushCloneIndirect count other distance offsetStack)) := by
  by_cases hcount : count = 0
  · subst hcount
    exact lay.push_nil s
  obtain ⟨t, rfl⟩ := lay.exists_nat (show 1 ≤ (σ.stack other).length by omega)
  have hroom := lay.room t
  have hdisjoint : max (topOf t - distance + count) (topOf t) ≤
        p.stackBase s + (σ.stack s).length ∨
      p.stackBase s + (σ.stack s).length + count ≤ topOf t - distance := by
    rw [htop]
    rcases Nat.lt_trichotomy s t with h | rfl | h
    · have := p.stackBase_add_le h
      omega
    · omega
    · have := p.stackBase_add_le h
      omega
  rw [Machine.apply_copyFromIndirect batch m .value (fun _ => hdisjoint),
    lay.slot_word_top htop ho, Op.exec, htop, Nat.add_sub_assoc hd]
  have words : ((List.range count).map fun i => Vector.ofFn fun lane =>
      m.read batch .value (Machine.indirectStart (p.stackBase t + ((σ.stack t).length - distance))
        ((σ.word offsetStack 1).get lane) count (p.stackBase t + (σ.stack t).length) + i) lane) =
      (List.range count).map fun i => Vector.ofFn fun lane =>
        ((σ.stack t).getD (Machine.indirectStart ((σ.stack t).length - distance)
          ((σ.word offsetStack 1).get lane) count (σ.stack t).length + i)
            (Vector.replicate lanes 0)).get lane := by
    apply List.map_congr_left
    intro i hi
    have hi := List.mem_range.1 hi
    congr 1
    funext lane
    rw [indirectStart_add, Nat.add_assoc]
    simp only [Machine.read]
    rw [lay.live t]
    simp only [Machine.indirectStart]
    omega
  rw [words]
  exact lay.push s _ (by simpa using hr)

/-! ## Stores -/

theorem copyToSlots (lay : LaidOut p m σ) (s : Nat) (masked : Bool) (target : SlotRange)
    (distance : Nat) (hc : target.count ≤ distance) (hd : distance ≤ (σ.stack s).length)
    (hv : target.stop ≤ p.valueSlots) :
    LaidOut p
      (m.apply batch (.copySlots target.index
        (p.stackBase s + (σ.stack s).length - distance) target.count masked))
      (Op.exec host batch s σ (.copyToSlots masked target distance)) := by
  have hbase := p.valueSlots_le_stackBase s
  simp only [SlotRange.stop] at hv
  have window : m.window target.index target.count = σ.memory.window target.index target.count :=
    Machine.window_congr fun i hi => lay.values _ (by omega)
  have masks : m.masked = σ.memory.masked := by
    funext old new
    exact lay.masked old new
  rw [Machine.apply, Machine.copy_eq_store m (by omega), lay.window_peek s hc hd]
  simp only [Op.exec, StackMachine.onMemory, Machine.store, StackMachine.length_peek σ s hc hd,
    window, masks]
  refine lay.overwrite_values ?_
  split <;> simp [StackMachine.length_peek σ s hc hd, hv]

/-- A word that was read from a stack before value slots were changed is still there. -/
theorem slot_peek (lay : LaidOut p m σ) (s : Nat) {d n i : Nat} (hn : n ≤ d)
    (hd : d ≤ (σ.stack s).length) (hi : i < n) :
    m.slot (p.stackBase s + (σ.stack s).length - d + i) =
      (σ.peek s d n).getD i (Vector.replicate lanes 0) := by
  rw [← lay.window_peek s hn hd, List.getD_eq_getElem _ _ (by simpa using hi),
    Machine.getElem_window]

theorem copyToIndirect (lay : LaidOut p m σ) {topOf : Int → Nat}
    (htop : ∀ t : Nat, topOf t = p.stackBase t + (σ.stack t).length) (s : Nat)
    (fixed : SlotRange) (offsetStack : Int) (limit distance : Nat)
    (hc : fixed.count ≤ distance) (hd : distance ≤ (σ.stack s).length)
    (ho : 1 ≤ (σ.stack offsetStack).length) (hv : fixed.stop ≤ p.valueSlots)
    (hl : limit ≤ p.valueSlots) :
    LaidOut p
      (m.apply batch (.copyToIndirect fixed.index
        (p.stackBase s + (σ.stack s).length - distance) fixed.count (topOf offsetStack - 1) limit))
      (Op.exec host batch s σ (.copyToIndirect fixed offsetStack limit distance)) := by
  simp only [SlotRange.stop] at hv
  simp only [Machine.apply, Op.exec]
  apply lay.forActiveLanes
  intro lane m' μ lay'
  rw [lay'.slot_word_top htop ho]
  apply lay'.forEach
  intro i hi m'' μ' lay''
  rw [lay''.slot_peek s hc hd hi]
  refine lay''.setWord_values ?_ lane _
  simp only [Machine.indirectStart]
  omega

/-- Scattering words from the stack, in one lane. -/
theorem scatter (lay : LaidOut p m σ) (s : Nat) (target : Nat) (components : List Nat)
    (distance : Nat) (lane : Fin lanes) (hc : components.length ≤ distance)
    (hd : distance ≤ (σ.stack s).length)
    (hv : target + Machine.scatterWidth components ≤ p.valueSlots) :
    LaidOut p
      (m.scatter target (p.stackBase s + (σ.stack s).length - distance) components lane)
      (σ.onMemory (·.storeComponents target components
        (σ.peek s distance components.length) lane)) := by
  have bounds : ∀ x ∈ components.zipIdx, x.1 + 1 ≤ Machine.scatterWidth components ∧
      x.2 < components.length := by
    intro x hx
    have hmem := List.mem_zipIdx hx
    refine ⟨Machine.lt_scatterWidth ?_, by omega⟩
    rw [hmem.2.2]
    exact List.getElem_mem _
  simp only [Machine.scatter, Machine.storeComponents, StackMachine.onMemory]
  -- the words on the stack are the same in every round
  suffices rounds : ∀ l : List (Nat × Nat), (∀ x ∈ l, x ∈ components.zipIdx) →
      ∀ (m' : Machine lanes) (μ : Machine lanes), LaidOut p m' { σ with memory := μ } →
      LaidOut p (l.foldl (fun m x => m.setWord (target + x.1) lane
          ((m.slot (p.stackBase s + (σ.stack s).length - distance + x.2)).get lane)) m')
        { σ with memory := l.foldl (fun m x => m.setWord (target + x.1) lane
          (((σ.peek s distance components.length).getD x.2
            (Vector.replicate lanes 0)).get lane)) μ } from
    rounds components.zipIdx (fun _ h => h) m σ.memory lay
  intro l
  induction l with
  | nil => exact fun _ m' μ lay' => lay'
  | cons x l ih =>
    intro hl m' μ lay'
    obtain ⟨hx, hi⟩ := bounds x (hl x (List.mem_cons_self ..))
    refine ih (fun y hy => hl y (List.mem_cons_of_mem _ hy)) _ _ ?_
    simp only [lay'.slot_peek s hc hd hi]
    exact lay'.setWord_values (by omega) lane _

theorem swizzleToSlots (lay : LaidOut p m σ) (s : Nat) (target count : Nat) (packed : UInt32)
    (distance : Nat) (hc : (unpackNybbles packed count).length ≤ distance)
    (hd : distance ≤ (σ.stack s).length)
    (hv : target + Machine.scatterWidth (unpackNybbles packed count) ≤ p.valueSlots) :
    LaidOut p
      (m.apply batch (.swizzleCopy target (p.stackBase s + (σ.stack s).length - distance)
        (unpackNybbles packed count)))
      (Op.exec host batch s σ (.swizzleToSlots target count packed distance)) := by
  simp only [Machine.apply, Op.exec]
  apply lay.forActiveLanes
  intro lane m' μ lay'
  exact lay'.scatter s target _ distance lane hc hd hv

theorem swizzleToIndirect (lay : LaidOut p m σ) {topOf : Int → Nat}
    (htop : ∀ t : Nat, topOf t = p.stackBase t + (σ.stack t).length) (s : Nat)
    (target count : Nat) (packed : UInt32) (distance : Nat) (offsetStack : Int) (limit : Nat)
    (hc : (unpackNybbles packed count).length ≤ distance) (hd : distance ≤ (σ.stack s).length)
    (ho : 1 ≤ (σ.stack offsetStack).length)
    (hv : target + Machine.scatterWidth (unpackNybbles packed count) ≤ p.valueSlots)
    (hl : limit ≤ p.valueSlots) :
    LaidOut p
      (m.apply batch (.swizzleCopyToIndirect target
        (p.stackBase s + (σ.stack s).length - distance) (unpackNybbles packed count)
        (topOf offsetStack - 1) limit))
      (Op.exec host batch s σ
        (.swizzleToIndirect target count packed distance offsetStack limit)) := by
  simp only [Machine.apply, Op.exec]
  apply lay.forActiveLanes
  intro lane m' μ lay'
  rw [lay'.slot_word_top htop ho]
  refine lay'.scatter s _ _ distance lane hc hd ?_
  simp only [Machine.indirectStart, Machine.scatterWidth] at hv ⊢
  omega

/-! ## Pops and masks -/

theorem popMask (lay : LaidOut p m σ) (s : Nat) (mask : Mask) (h : 1 ≤ (σ.stack s).length) :
    LaidOut p (m.apply batch (.loadMask mask (p.stackBase s + (σ.stack s).length - 1)))
      (Op.exec host batch s σ (.popMask mask)) := by
  rw [Machine.apply, lay.slot_word s le_rfl h, Op.exec]
  exact (lay.setMask mask _).pop s h

theorem reenableLoop (lay : LaidOut p m σ) (s : Nat) (h : 1 ≤ (σ.stack s).length) :
    LaidOut p (m.apply batch (.reenableLoop (p.stackBase s + (σ.stack s).length - 1)))
      (Op.exec host batch s σ .reenableLoop) := by
  rw [Machine.apply, lay.slot_word s le_rfl h, lay.loop]
  exact lay.setLoop _

theorem mergeLoop (lay : LaidOut p m σ) (s : Nat) (h : 1 ≤ (σ.stack s).length) :
    LaidOut p (m.apply batch (.mergeLoop (p.stackBase s + (σ.stack s).length - 1)))
      (Op.exec host batch s σ .mergeLoop) := by
  rw [Machine.apply, lay.slot_word s le_rfl h, lay.loop]
  exact (lay.setLoop _).pop s h

theorem mergeCondition (lay : LaidOut p m σ) (s : Nat) (inverted : Bool)
    (h : 2 ≤ (σ.stack s).length) :
    LaidOut p (m.apply batch (.mergeCondition inverted (p.stackBase s + (σ.stack s).length - 2)))
      (Op.exec host batch s σ (.mergeCondition inverted)) := by
  have next : p.stackBase s + (σ.stack s).length - 2 + 1 =
    p.stackBase s + (σ.stack s).length - 1 := by omega
  rw [Machine.apply, next, lay.slot_word s (by omega) h, lay.slot_word s le_rfl (by omega)]
  exact lay.setCondition _

theorem popCoords (lay : LaidOut p m σ) (s : Nat) (h : 2 ≤ (σ.stack s).length) :
    LaidOut p (m.apply batch (.loadCoords (p.stackBase s + (σ.stack s).length - 2)))
      (Op.exec host batch s σ .popCoords) := by
  have next : p.stackBase s + (σ.stack s).length - 2 + 1 =
    p.stackBase s + (σ.stack s).length - 1 := by omega
  rw [Machine.apply, next, lay.slot_word s (by omega) h, lay.slot_word s le_rfl (by omega),
    lay.registers]
  exact (lay.setRegisters _).pop s h

theorem popColor (lay : LaidOut p m σ) (s : Nat) (register : ColorRegister)
    (h : 4 ≤ (σ.stack s).length) :
    LaidOut p (m.apply batch (.loadColor register (p.stackBase s + (σ.stack s).length - 4)))
      (Op.exec host batch s σ (.popColor register)) := by
  have slot : ∀ d, 1 ≤ d → d ≤ 4 →
      m.slot (p.stackBase s + (σ.stack s).length - 4 + (4 - d)) = σ.word s d := by
    intro d h1 hd
    rw [← lay.slot_word s h1 (by omega)]
    congr 1
    omega
  have first := slot 4 (by omega) le_rfl
  rw [Nat.sub_self, Nat.add_zero] at first
  cases register <;>
  · simp only [Machine.apply, first, slot 3 (by omega) (by omega), slot 2 (by omega) (by omega),
      slot 1 le_rfl (by omega), lay.registers]
    exact (lay.setRegisters _).pop s h

theorem continueLoop (lay : LaidOut p m σ) {topOf : Int → Nat}
    (htop : ∀ t : Nat, topOf t = p.stackBase t + (σ.stack t).length) (s other : Int)
    (h : 1 ≤ (σ.stack other).length) :
    LaidOut p (m.apply batch (.continueLoop (topOf other - 1)))
      (Op.exec host batch s σ (.continueLoop other)) := by
  obtain ⟨t, rfl⟩ := lay.exists_nat h
  have hroom := lay.room t
  have off : LaidOut p (m.apply batch .maskOffLoop) (σ.onMemory (·.apply batch .maskOffLoop)) :=
    lay.maskOffLoop
  have both := off.replace t (n := 1)
    [σ.memory.masked (σ.word t 1) (Vector.replicate lanes Word.allOnes)] h
    (by simp only [StackMachine.stack_onMemory, List.length_singleton]; omega)
  simp only [Machine.apply, htop, lay.slot_word t le_rfl h, lay.masked] at both ⊢
  exact both

theorem matchCase (lay : LaidOut p m σ) (s : Nat) (value : UInt32)
    (h : 2 ≤ (σ.stack s).length) :
    LaidOut p (m.apply batch (.matchCase (p.stackBase s + (σ.stack s).length - 2) value))
      (Op.exec host batch s σ (.matchCase value)) := by
  have hroom := lay.room s
  have next : p.stackBase s + (σ.stack s).length - 2 + 1 =
    p.stackBase s + (σ.stack s).length - 1 := by omega
  simp only [Machine.apply, next, lay.slot_word s (by omega) h,
    lay.slot_word s le_rfl (show 1 ≤ (σ.stack s).length by omega), lay.loop]
  let matched := (σ.word s 2).zipWith (fun x unmatched => x == value && unmatched != 0)
    (σ.word s 1)
  let unmatched := matched.zipWith (fun hit x => if hit then 0 else x) (σ.word s 1)
  exact (lay.replace s (n := 1) [unmatched] (by omega)
    (by rw [List.length_singleton]; omega)).setLoop _

/-! ## Selections, arithmetic and matrices -/

theorem unary (lay : LaidOut p m σ) (s : Nat) (op : UnaryOp) (ty : NumType) (n : Nat)
    (h : n ≤ (σ.stack s).length) :
    LaidOut p (m.apply batch (.unary op ty (p.stackBase s + (σ.stack s).length - n) n))
      (Op.exec host batch s σ (.unary op ty n)) := by
  have hroom := lay.room s
  rw [Machine.apply_unary]
  refine lay.transform s _ ?_ h (show (σ.stack s).length - n + n ≤ _ by omega)
  rw [List.length_map, StackMachine.length_peek σ s le_rfl h]

theorem binaryImm (lay : LaidOut p m σ) (s : Nat) (op : BinaryOp) (ty : NumType) (n : Nat)
    (bits : UInt32) (h : n ≤ (σ.stack s).length) :
    LaidOut p (m.apply batch (.binaryImm op ty (p.stackBase s + (σ.stack s).length - n) n bits))
      (Op.exec host batch s σ (.binaryImm op ty n bits none)) := by
  have hroom := lay.room s
  rw [Machine.apply_binaryImm]
  refine lay.transform s _ ?_ h (show (σ.stack s).length - n + n ≤ _ by omega)
  rw [List.length_map, StackMachine.length_peek σ s le_rfl h]

theorem binary (lay : LaidOut p m σ) (s : Nat) (op : BinaryOp) (ty : NumType) (n : Nat)
    (h : 2 * n ≤ (σ.stack s).length) :
    LaidOut p
      (m.apply batch (.binary op ty (p.stackBase s + (σ.stack s).length - 2 * n)
        (p.stackBase s + (σ.stack s).length - n) n))
      (Op.exec host batch s σ (.binary op ty n)) := by
  have hroom := lay.room s
  rw [show p.stackBase s + (σ.stack s).length - n =
    p.stackBase s + (σ.stack s).length - 2 * n + n by omega, Machine.apply_binary]
  exact lay.transform s _ (Words.length_combine _ (σ.length_peek s le_rfl h)) h (by omega)

theorem select (lay : LaidOut p m σ) (s : Nat) (n : Nat) (h : 2 * n ≤ (σ.stack s).length) :
    LaidOut p
      (m.apply batch (.select (p.stackBase s + (σ.stack s).length - 2 * n)
        (p.stackBase s + (σ.stack s).length - n) n))
      (Op.exec host batch s σ (.select n)) := by
  have hroom := lay.room s
  have masks : m.masked = σ.memory.masked := by
    funext old new
    exact lay.masked old new
  rw [show p.stackBase s + (σ.stack s).length - n =
    p.stackBase s + (σ.stack s).length - 2 * n + n by omega, Machine.apply_select, masks]
  exact lay.transform s _ (Words.length_combine _ (σ.length_peek s le_rfl h)) h (by omega)

theorem ternary (lay : LaidOut p m σ) (s : Nat) (op : TernaryOp) (ty : NumType) (n : Nat)
    (h : 3 * n ≤ (σ.stack s).length) :
    LaidOut p (m.apply batch (.ternary op ty (p.stackBase s + (σ.stack s).length - 3 * n) n))
      (Op.exec host batch s σ (.ternary op ty n)) := by
  have hroom := lay.room s
  rw [Machine.apply_ternary]
  exact lay.transform s _ (by simp) h (show (σ.stack s).length - 3 * n + n ≤ _ by omega)

/-- Selections of words on top of a stack. -/
theorem choose (lay : LaidOut p m σ) (s : Nat) (consumed : Nat) (components : List Nat)
    (h : consumed ≤ (σ.stack s).length)
    (hr : (σ.stack s).length - consumed + components.length ≤ p.stackDepths.getD s 0) :
    LaidOut p
      (m.apply batch
        (.swizzle (p.stackBase s + (σ.stack s).length - consumed) consumed components))
      (σ.transform s consumed (Words.choose components)) := by
  rw [Machine.apply_swizzle]
  exact lay.transform s _ (by simp) h hr

/-- Operations that compute lane by lane. -/
theorem mapLanes (lay : LaidOut p m σ) (s : Nat) (consumed produced : Nat)
    (f : Array UInt32 → Array UInt32) (h : consumed ≤ (σ.stack s).length)
    (hr : (σ.stack s).length - consumed + produced ≤ p.stackDepths.getD s 0) :
    LaidOut p (m.mapLanes (p.stackBase s + (σ.stack s).length - consumed) consumed produced f)
      (σ.transform s consumed (Words.mapLanes produced f)) := by
  rw [Machine.mapLanes_eq_overwrite]
  exact lay.transform s _ (by simp) h hr

end LaidOut

/-! ## Every operation -/

/-- A stage of an operation that finds its operands does to a machine what the operation does to the
stack machine that it holds. -/
theorem LaidOut.apply_stage (lay : LaidOut p m σ) {topOf : Int → Nat}
    (htop : ∀ t : Nat, topOf t = p.stackBase t + (σ.stack t).length) {s : Nat} {op : Op}
    {stage : Stage} (finds : op.Finds p.valueSlots σ.depth s)
    (room : (σ.stack s).length + op.stackUsage ≤ p.stackDepths.getD s 0)
    (hstage : op.stage? (p.stackBase s + (σ.stack s).length) topOf = some stage) :
    LaidOut p (m.apply batch stage) (op.exec host batch s σ) := by
  cases op with
  | pushConstant count bits =>
    cases hstage
    simp only [Op.stackUsage] at room
    rw [Machine.apply_splat]
    exact lay.push s _ (by rw [List.length_replicate]; omega)
  | pushSlots space range =>
    simp only [Op.stackUsage, Op.Finds] at room finds
    cases space with
    | value =>
      cases hstage
      exact lay.pushSlots_value s range (finds rfl) (by omega)
    | uniform =>
      cases hstage
      exact lay.pushUniform s range (by omega)
    | immutable =>
      cases hstage
      exact lay.pushImmutable s range (by omega)
  | pushIndirect space fixed offsetStack limit =>
    cases hstage
    simp only [Op.stackUsage, Op.Finds, StackMachine.depth] at room finds
    exact lay.pushIndirect htop s space fixed offsetStack limit (by omega) finds.2 (by omega)
  | pushClone count distance =>
    cases hstage
    simp only [Op.stackUsage, Op.Finds, StackMachine.depth] at room finds
    exact lay.pushClone s s count distance finds.1 (by omega) (by omega)
  | pushCloneFromStack count other distance =>
    cases hstage
    simp only [Op.stackUsage, Op.Finds, StackMachine.depth] at room finds
    exact lay.pushCloneFromStack htop s count other distance finds.1 (by omega) (by omega)
  | pushCloneIndirect count other distance offsetStack =>
    cases hstage
    simp only [Op.stackUsage, Op.Finds, StackMachine.depth] at room finds
    exact lay.pushCloneIndirect htop s count other distance offsetStack finds.1 (by omega)
      (by omega) (by omega)
  | pushMask mask =>
    cases hstage
    simp only [Op.stackUsage] at room
    rw [Machine.apply_storeMask, lay.mask]
    exact lay.push s _ (by rw [List.length_singleton]; omega)
  | pushInput input =>
    cases hstage
    simp only [Op.stackUsage] at room
    rw [Machine.apply_storeInput, lay.input]
    exact lay.push s _ (by simp only [Rgba.toList, List.length_cons, List.length_nil]; omega)
  | popMask mask =>
    cases hstage
    simp only [Op.Finds, StackMachine.depth] at finds
    exact lay.popMask s mask (by omega)
  | popAndReenableLoop =>
    cases hstage
    simp only [Op.Finds, StackMachine.depth] at finds
    have reenabled : LaidOut p _ (Op.exec host batch s σ .reenableLoop) :=
      lay.reenableLoop s (by omega)
    exact reenabled.pop s (show 1 ≤ (σ.stack s).length by omega)
  | popCoords =>
    cases hstage
    simp only [Op.Finds, StackMachine.depth] at finds
    exact lay.popCoords s (by omega)
  | popColor register =>
    cases hstage
    simp only [Op.Finds, StackMachine.depth] at finds
    exact lay.popColor s register (by omega)
  | copyToSlots masked target distance =>
    cases hstage
    simp only [Op.Finds, StackMachine.depth] at finds
    exact lay.copyToSlots s masked target distance finds.1 (by omega) finds.2.2
  | copyToIndirect fixed offsetStack limit distance =>
    cases hstage
    simp only [Op.Finds, StackMachine.depth] at finds
    exact lay.copyToIndirect htop s fixed offsetStack limit distance finds.1 (by omega)
      (by omega) finds.2.2.2.1 finds.2.2.2.2
  | swizzleToSlots target count packed distance =>
    cases hstage
    simp only [Op.Finds, StackMachine.depth] at finds
    exact lay.swizzleToSlots s target count packed distance finds.1 (by omega) finds.2.2
  | swizzleToIndirect target count packed distance offsetStack limit =>
    cases hstage
    simp only [Op.Finds, StackMachine.depth] at finds
    exact lay.swizzleToIndirect htop s target count packed distance offsetStack limit finds.1
      (by omega) (by omega) finds.2.2.2.1 finds.2.2.2.2
  | copySlots masked target source count =>
    cases hstage
    exact lay.copy masked finds.1 finds.2
  | zeroSlots range =>
    cases hstage
    exact lay.zeroSlots finds
  | initLaneMasks =>
    cases hstage
    exact lay.initLaneMasks
  | mergeCondition inverted =>
    cases hstage
    simp only [Op.Finds, StackMachine.depth] at finds
    exact lay.mergeCondition s inverted (by omega)
  | mergeLoop =>
    cases hstage
    simp only [Op.Finds, StackMachine.depth] at finds
    exact lay.mergeLoop s (by omega)
  | reenableLoop =>
    cases hstage
    simp only [Op.Finds, StackMachine.depth] at finds
    exact lay.reenableLoop s (by omega)
  | maskOffLoop =>
    cases hstage
    exact lay.maskOffLoop
  | maskOffReturn =>
    cases hstage
    exact lay.maskOffReturn
  | continueLoop other =>
    cases hstage
    simp only [Op.Finds, StackMachine.depth] at finds
    exact lay.continueLoop htop s other (by omega)
  | matchCase value =>
    cases hstage
    simp only [Op.Finds, StackMachine.depth] at finds
    exact lay.matchCase s value (by omega)
  | storeCoords target =>
    cases hstage
    exact lay.storeCoords finds
  | storeInput input target =>
    cases hstage
    exact lay.storeInput input finds
  | loadColor register source =>
    cases hstage
    exact lay.loadColor register finds
  | unary op ty count =>
    cases hstage
    simp only [Op.Finds, StackMachine.depth] at finds
    exact lay.unary s op ty count (by omega)
  | binary op ty count =>
    cases hstage
    simp only [Op.Finds, StackMachine.depth] at finds
    exact lay.binary s op ty count (by omega)
  | binaryImm op ty count bits slot =>
    cases slot with
    | none =>
      cases hstage
      simp only [Op.Finds, StackMachine.depth] at finds
      exact lay.binaryImm s op ty count bits (by omega)
    | some slot =>
      cases hstage
      exact lay.binaryImm_values op ty bits finds
  | ternary op ty count =>
    cases hstage
    simp only [Op.Finds, StackMachine.depth] at finds
    exact lay.ternary s op ty count (by omega)
  | select count =>
    cases hstage
    simp only [Op.Finds, StackMachine.depth] at finds
    exact lay.select s count (by omega)
  | swizzle consumed count packed =>
    cases hstage
    simp only [Op.Finds, Op.stackUsage, StackMachine.depth] at finds room
    exact lay.choose s consumed _ (by omega) (by rw [length_unpackNybbles]; omega)
  | shuffle consumed count low high =>
    cases hstage
    simp only [Op.Finds, Op.stackUsage, StackMachine.depth] at finds room
    exact lay.choose s consumed _ (by omega)
      (by rw [List.length_append, length_unpackNybbles, length_unpackNybbles]; omega)
  | transpose shape =>
    cases hstage
    simp only [Op.Finds, Op.stackUsage, StackMachine.depth] at finds room
    exact lay.mapLanes s shape.size shape.size _ (by omega) (by omega)
  | diagonal shape =>
    cases hstage
    simp only [Op.Finds, Op.stackUsage, StackMachine.depth] at finds room
    exact lay.mapLanes s 1 shape.size (fun x => Matrix.diagonal shape (x.getD 0 0)) (by omega)
      (by omega)
  | resize source target =>
    cases hstage
    simp only [Op.Finds, Op.stackUsage, StackMachine.depth] at finds room
    exact lay.mapLanes s source.size target.size _ (by omega) (by omega)
  | multiply left right =>
    cases hstage
    simp only [Op.Finds, Op.stackUsage, StackMachine.depth] at finds room
    exact lay.mapLanes s (left.size + right.size) (right.columns * left.rows) _ (by omega) (by omega)
  | inverse size =>
    cases hstage
    simp only [Op.Finds, Op.stackUsage, StackMachine.depth] at finds room
    have finds : size * size ≤ (σ.stack s).length := by exact_mod_cast finds
    exact lay.mapLanes s (size * size) (size * size) _ finds (by omega)
  | determinant size =>
    cases hstage
    simp only [Op.Finds, Op.stackUsage, StackMachine.depth] at finds room
    have finds : size * size ≤ (σ.stack s).length := by exact_mod_cast finds
    have room : ((σ.stack s).length : Int) + (1 - (size * size : Nat)) ≤
        p.stackDepths.getD s 0 := by exact_mod_cast room
    exact lay.mapLanes s (size * size) 1 (fun x => #[Matrix.determinant size x]) finds (by omega)
  | dot count =>
    cases hstage
    simp only [Op.Finds, Op.stackUsage, StackMachine.depth] at finds room
    exact lay.mapLanes s (2 * count) 1 (fun x => #[Matrix.dot count x]) (by omega) (by omega)
  | refract =>
    cases hstage
    simp only [Op.Finds, Op.stackUsage, StackMachine.depth] at finds room
    exact lay.mapLanes s 9 4 _ (by omega) (by omega)
  | trace mark =>
    cases hstage
    refine lay.trace_mark mark ?_
    rintro range rfl
    exact finds
  | pad count => cases hstage
  | discard count => cases hstage
  | storeImmutable slot bits => cases hstage
  | label label => cases hstage
  | branch condition label => cases hstage
  | invoke call => cases hstage

/-- The next free slot of a stack is within the memory or just past it. -/
theorem LaidOut.top_le_size (lay : LaidOut p m σ) (t : Nat) :
    p.stackBase t + (σ.stack t).length ≤ m.values.size := by
  have := p.stackBase_add_le_size t
  have := lay.room t
  rw [lay.size]
  omega

/-- Slots that are within the memory do not keep a stage from running. -/
theorem outOfRange?_eq_none {size : Nat} {ranges : List SlotRange}
    (h : ∀ range ∈ ranges, range.stop ≤ size) : Stage.outOfRange? size ranges = none := by
  induction ranges with
  | nil => rfl
  | cons range rest ih =>
    simp only [List.mem_cons, forall_eq_or_imp] at h
    rw [Stage.outOfRange?, if_neg (by omega), ih h.2]

/-- A stage of an operation that finds its operands runs, unless the operation itself cannot. -/
theorem LaidOut.fault?_stage (lay : LaidOut p m σ) {topOf : Int → Nat}
    (htop : ∀ t : Int, topOf t = p.stackBase t.toNat + (σ.stack t.toNat).length) {s : Nat}
    {op : Op} {stage : Stage} (finds : op.Finds p.valueSlots σ.depth s)
    (room : (σ.stack s).length + op.stackUsage ≤ p.stackDepths.getD s 0)
    (hstage : op.stage? (p.stackBase s + (σ.stack s).length) topOf = some stage) :
    stage.fault? m.values.size = op.fault? := by
  have hsize := lay.size
  have hend := p.stackBase_add_le_size s
  have htopSize := lay.top_le_size s
  have named : ∀ (t : Int) (d : Nat), (d : Int) ≤ σ.depth t →
      d ≤ topOf t ∧ topOf t ≤ m.values.size := by
    intro t d hd
    rw [htop]
    refine ⟨?_, lay.top_le_size t.toNat⟩
    simp only [StackMachine.depth] at hd
    rcases le_or_gt 0 t with ht | ht
    · rw [Int.toNat_of_nonneg ht]
      omega
    · rw [lay.negative t ht] at hd
      simp at hd
      omega
  have inside : ∀ t n : Nat, t + n ≤ p.valueSlots + p.stackSlots →
      Stage.outOfRange? m.values.size [⟨t, n⟩] = none := by
    intro t n h
    exact outOfRange?_eq_none (by simp [SlotRange.stop]; omega)
  have inside2 : ∀ t u n : Nat, t + n ≤ p.valueSlots + p.stackSlots →
      u + n ≤ p.valueSlots + p.stackSlots →
      Stage.outOfRange? m.values.size [⟨t, n⟩, ⟨u, n⟩] = none := by
    intro t u n h h'
    exact outOfRange?_eq_none (by simp [SlotRange.stop]; omega)
  cases op with
  | pushCloneFromStack count other distance =>
    cases hstage
    simp only [Op.Finds, Op.stackUsage] at finds room
    obtain ⟨h₁, h₂⟩ := named other distance finds.2
    exact inside2 _ _ _ (by omega) (by omega)
  | pushSlots space range =>
    simp only [Op.Finds, Op.stackUsage, SlotRange.stop] at finds room
    cases space with
    | value =>
      cases hstage
      have := finds rfl
      exact inside2 _ _ _ (by omega) (by omega)
    | uniform =>
      cases hstage
      exact inside _ _ (by omega)
    | immutable =>
      cases hstage
      exact inside _ _ (by omega)
  | binaryImm op ty count bits slot =>
    cases slot <;> cases hstage
    all_goals
      simp only [Op.Finds, StackMachine.depth] at finds
      exact inside _ _ (by simp; omega)
  | swizzle consumed count packed =>
    cases hstage
    simp only [Op.Finds, Op.stackUsage, StackMachine.depth] at finds room
    exact inside _ _ (by rw [length_unpackNybbles]; omega)
  | shuffle consumed count low high =>
    cases hstage
    simp only [Op.Finds, Op.stackUsage, StackMachine.depth] at finds room
    refine inside _ _ ?_
    rw [List.length_append, length_unpackNybbles, length_unpackNybbles]
    omega
  | pushConstant | pushIndirect | pushCloneIndirect | zeroSlots | unary | ternary | diagonal
  | resize | storeCoords | storeInput | loadColor | popColor | pushInput =>
    cases hstage
    simp only [Op.Finds, Op.stackUsage, StackMachine.depth, SlotRange.stop] at finds room
    exact inside _ _ (by omega)
  | pushClone | copyToSlots | copySlots | binary =>
    cases hstage
    simp only [Op.Finds, Op.stackUsage, StackMachine.depth, SlotRange.stop] at finds room
    exact inside2 _ _ _ (by omega) (by omega)
  | pad | discard | storeImmutable | label | branch | invoke => cases hstage
  | _ =>
    cases hstage
    rfl

end RasterShader
