import Mathlib
import RasterShader.Proofs.Stack.Stages

/-!
# The place of the stacks in the memory

A pipeline gives every stack a region of slots after the value slots, as long as the deepest point
of the stack, and one region after the other (`stackBase_add_le`, `stackBase_add_le_size`).
`LaidOut` relates a machine with such a memory to a stack machine.  The lemmas of this file say how
changes of the one follow changes of the other:

* words on top of a stack are those of a window of slots (`LaidOut.window_peek`), and replacing them
  overwrites slots from there on (`LaidOut.replace`);
* changes of value slots, registers and masks are made alike on both (`LaidOut.overwrite_values`,
  `LaidOut.setWord_values`, `LaidOut.onMemory`).
-/

namespace RasterShader

variable {lanes : Nat}

/-! ## Regions -/

namespace Pipeline

theorem valueSlots_le_stackBase (p : Pipeline) (s : Nat) : p.valueSlots ≤ p.stackBase s := by
  simp [stackBase]

/-- A stack begins where the one before it ends. -/
theorem stackBase_succ (p : Pipeline) (s : Nat) :
    p.stackBase (s + 1) = p.stackBase s + p.stackDepths.getD s 0 := by
  simp only [stackBase]
  by_cases h : s < p.stackDepths.length
  · rw [List.take_add_one, List.getElem?_eq_getElem h, Option.toList_some]
    simp only [List.getD_eq_getElem _ _ h]
    rw [show List.foldr (· + ·) 0 (p.stackDepths.take s ++ [p.stackDepths[s]]) =
      (p.stackDepths.take s ++ [p.stackDepths[s]]).sum from rfl, List.sum_append]
    simp [List.sum, Nat.add_assoc]
  · have h := Nat.not_lt.1 h
    simp [List.take_of_length_le h, List.take_of_length_le (Nat.le_succ_of_le h), h]

theorem stackBase_mono (p : Pipeline) {s t : Nat} (h : s ≤ t) : p.stackBase s ≤ p.stackBase t := by
  induction h with
  | refl => exact le_rfl
  | step _ ih =>
    rw [stackBase_succ]
    omega

/-- The region of a stack ends before those of later stacks begin. -/
theorem stackBase_add_le (p : Pipeline) {s t : Nat} (h : s < t) :
    p.stackBase s + p.stackDepths.getD s 0 ≤ p.stackBase t := by
  rw [← stackBase_succ]
  exact p.stackBase_mono h

/-- The region of a stack is within the memory. -/
theorem stackBase_add_le_size (p : Pipeline) (s : Nat) :
    p.stackBase s + p.stackDepths.getD s 0 ≤ p.valueSlots + p.stackSlots := by
  have last : p.stackBase (max (s + 1) p.stackDepths.length) = p.valueSlots + p.stackSlots := by
    simp [stackBase, stackSlots, List.take_of_length_le]
  rw [← stackBase_succ, ← last]
  exact p.stackBase_mono (Nat.le_max_left ..)

end Pipeline

/-! ## Machines with the same contents -/

/-- A machine holds the memory of a stack machine in its value slots, and each of the stacks in the
region that a pipeline gives it. -/
structure LaidOut (p : Pipeline) (m : Machine lanes) (σ : StackMachine lanes) : Prop where
  size : m.values.size = p.valueSlots + p.stackSlots
  memorySize : σ.memory.values.size = p.valueSlots
  values : ∀ i < p.valueSlots, m.slot i = σ.memory.slot i
  registers : m.registers = σ.memory.registers
  condition : m.condition = σ.memory.condition
  loop : m.loop = σ.memory.loop
  returns : m.returns = σ.memory.returns
  trace : m.trace = σ.memory.trace
  /-- There are no stacks with negative numbers. -/
  negative : ∀ s < 0, σ.stack s = []
  room : ∀ s : Nat, (σ.stack s).length ≤ p.stackDepths.getD s 0
  live : ∀ (s : Nat) (k : Nat), k < (σ.stack s).length →
    m.slot (p.stackBase s + k) = (σ.stack s).getD k (Vector.replicate lanes 0)

namespace StackMachine

@[simp] theorem memory_replace (σ : StackMachine lanes) (s : Int) (n : Nat)
    (ws : List (Vector UInt32 lanes)) : (σ.replace s n ws).memory = σ.memory := rfl

@[simp] theorem memory_push (σ : StackMachine lanes) (s : Int) (ws : List (Vector UInt32 lanes)) :
    (σ.push s ws).memory = σ.memory := rfl

@[simp] theorem memory_pop (σ : StackMachine lanes) (s : Int) (n : Nat) :
    (σ.pop s n).memory = σ.memory := rfl

@[simp] theorem memory_onMemory (σ : StackMachine lanes) (f : Machine lanes → Machine lanes) :
    (σ.onMemory f).memory = f σ.memory := rfl

@[simp] theorem stack_onMemory (σ : StackMachine lanes) (f : Machine lanes → Machine lanes) :
    (σ.onMemory f).stack = σ.stack := rfl

@[simp] theorem word_onMemory (σ : StackMachine lanes) (f : Machine lanes → Machine lanes)
    (s : Int) (d : Nat) : (σ.onMemory f).word s d = σ.word s d := rfl

@[simp] theorem peek_onMemory (σ : StackMachine lanes) (f : Machine lanes → Machine lanes)
    (s : Int) (d n : Nat) : (σ.onMemory f).peek s d n = σ.peek s d n := rfl

theorem stack_replace_self (σ : StackMachine lanes) (s : Int) (n : Nat)
    (ws : List (Vector UInt32 lanes)) :
    (σ.replace s n ws).stack s = (σ.stack s).take ((σ.stack s).length - n) ++ ws := by
  simp [replace]

theorem stack_replace_of_ne (σ : StackMachine lanes) {s t : Int} (h : t ≠ s) (n : Nat)
    (ws : List (Vector UInt32 lanes)) : (σ.replace s n ws).stack t = σ.stack t := by
  simp [replace, h]

theorem length_peek (σ : StackMachine lanes) (s : Int) {d n : Nat} (hn : n ≤ d)
    (hd : d ≤ (σ.stack s).length) : (σ.peek s d n).length = n := by
  simp [peek]
  omega

end StackMachine

namespace LaidOut

variable {p : Pipeline} {m : Machine lanes} {σ : StackMachine lanes}

theorem executes (lay : LaidOut p m σ) (lane : Fin lanes) :
    m.executes lane = σ.memory.executes lane := by
  simp [Machine.executes, lay.condition, lay.loop, lay.returns]

theorem masked (lay : LaidOut p m σ) (old new : Vector UInt32 lanes) :
    m.masked old new = σ.memory.masked old new := by
  simp [Machine.masked, lay.executes]

theorem mask (lay : LaidOut p m σ) (mask : Mask) : m.mask mask = σ.memory.mask mask := by
  cases mask with
  | condition => exact lay.condition
  | loop => exact lay.loop
  | returns => exact lay.returns

theorem input (lay : LaidOut p m σ) (batch : Batch lanes) (input : Input) :
    m.input batch input = σ.memory.input batch input := by
  cases input with
  | color register => cases register <;> simp [Machine.input, lay.registers]
  | device => rfl

theorem read (lay : LaidOut p m σ) (batch : Batch lanes) (space : SlotSpace) {i : Nat}
    (lane : Fin lanes) (h : space = .value → i < p.valueSlots) :
    m.read batch space i lane = σ.memory.read batch space i lane := by
  cases space with
  | value => simp [Machine.read, lay.values i (h rfl)]
  | uniform => rfl
  | immutable => rfl

/-- The number of a stack that holds a word is not negative. -/
theorem exists_nat (lay : LaidOut p m σ) {s : Int} (h : 1 ≤ (σ.stack s).length) :
    ∃ k : Nat, s = k := by
  refine Int.eq_ofNat_of_zero_le ?_
  by_contra hs
  rw [lay.negative s (by omega)] at h
  simp at h

/-! ## Reading the top of a stack -/

theorem slot_word (lay : LaidOut p m σ) (s : Nat) {d : Nat} (h1 : 1 ≤ d)
    (h : d ≤ (σ.stack s).length) :
    m.slot (p.stackBase s + (σ.stack s).length - d) = σ.word s d := by
  rw [Nat.add_sub_assoc h, lay.live s _ (by omega)]
  rfl

theorem window_peek (lay : LaidOut p m σ) (s : Nat) {d n : Nat} (hn : n ≤ d)
    (hd : d ≤ (σ.stack s).length) :
    m.window (p.stackBase s + (σ.stack s).length - d) n = σ.peek s d n := by
  apply List.ext_getElem
  · rw [Machine.length_window, StackMachine.length_peek σ s hn hd]
  · intro i hi _
    have hi : i < n := by simpa using hi
    rw [Machine.getElem_window, Nat.add_sub_assoc hd, Nat.add_assoc, lay.live s _ (by omega)]
    simp only [StackMachine.peek, List.getElem_take, List.getElem_drop]
    rw [List.getD_eq_getElem]

/-! ## Changing the top of a stack -/

/-- Words on top of a stack are replaced by overwriting the slots from the deepest of them on. -/
theorem replace (lay : LaidOut p m σ) (s : Nat) {n : Nat} (ws : List (Vector UInt32 lanes))
    (hn : n ≤ (σ.stack s).length)
    (hr : (σ.stack s).length - n + ws.length ≤ p.stackDepths.getD s 0) :
    LaidOut p (m.overwrite (p.stackBase s + (σ.stack s).length - n) ws) (σ.replace s n ws) := by
  have hbase := p.valueSlots_le_stackBase s
  have hend := p.stackBase_add_le_size s
  refine
    { size := by simpa using lay.size
      memorySize := lay.memorySize
      registers := by simpa using lay.registers
      condition := by simpa using lay.condition
      loop := by simpa using lay.loop
      returns := by simpa using lay.returns
      trace := by simpa using lay.trace
      values := ?_
      negative := ?_
      room := ?_
      live := ?_ }
  · intro i hi
    rw [Machine.slot_overwrite_of_lt _ _ (by omega)]
    exact lay.values i hi
  · intro t ht
    rw [StackMachine.stack_replace_of_ne σ (by omega)]
    exact lay.negative t ht
  · intro t
    by_cases hts : t = s
    · subst hts
      rw [StackMachine.stack_replace_self]
      simpa using hr
    · rw [StackMachine.stack_replace_of_ne σ (by exact_mod_cast hts)]
      exact lay.room t
  · intro t k hk
    by_cases hts : t = s
    · subst hts
      rw [StackMachine.stack_replace_self] at hk ⊢
      simp only [List.length_append, List.length_take] at hk
      by_cases hkn : k < (σ.stack t).length - n
      · rw [Machine.slot_overwrite_of_lt _ _ (by omega), lay.live t k (by omega)]
        simp only [List.getD_eq_getElem?_getD]
        rw [List.getElem?_append_left (by simp; omega), List.getElem?_take_of_lt hkn]
      · rw [Machine.slot_overwrite, if_pos (by rw [lay.size]; omega)]
        simp only [List.getD_eq_getElem?_getD]
        rw [List.getElem?_append_right (by simp; omega)]
        congr 2
        simp
        omega
    · rw [StackMachine.stack_replace_of_ne σ (by exact_mod_cast hts)] at hk ⊢
      rw [← lay.live t k hk]
      have hroom := lay.room t
      rcases Nat.lt_or_gt_of_ne hts with h | h
      · have := p.stackBase_add_le h
        rw [Machine.slot_overwrite_of_lt _ _ (by omega)]
      · have := p.stackBase_add_le h
        rw [Machine.slot_overwrite_of_ge _ (by omega)]

theorem push (lay : LaidOut p m σ) (s : Nat) (ws : List (Vector UInt32 lanes))
    (hr : (σ.stack s).length + ws.length ≤ p.stackDepths.getD s 0) :
    LaidOut p (m.overwrite (p.stackBase s + (σ.stack s).length) ws) (σ.push s ws) :=
  lay.replace s ws (Nat.zero_le _) hr

/-- Words above the top of a stack stay where they are, and do not matter. -/
theorem pop (lay : LaidOut p m σ) (s : Nat) {n : Nat} (hn : n ≤ (σ.stack s).length) :
    LaidOut p m (σ.pop s n) := by
  have h := lay.replace s (n := n) [] hn (by have := lay.room s; rw [List.length_nil]; omega)
  rwa [Machine.overwrite_nil] at h

/-- The words of a window on top of a stack are replaced by what a function makes of them. -/
theorem transform (lay : LaidOut p m σ) (s : Nat) {n produced : Nat}
    (f : List (Vector UInt32 lanes) → List (Vector UInt32 lanes))
    (hf : (f (σ.peek s n n)).length = produced) (hn : n ≤ (σ.stack s).length)
    (hr : (σ.stack s).length - n + produced ≤ p.stackDepths.getD s 0) :
    LaidOut p
      (m.overwrite (p.stackBase s + (σ.stack s).length - n)
        (f (m.window (p.stackBase s + (σ.stack s).length - n) n)))
      (σ.transform s n f) := by
  rw [lay.window_peek s le_rfl hn]
  exact lay.replace s _ hn (by rw [hf]; exact hr)

/-! ## Changing value slots, registers and masks -/

theorem overwrite_values (lay : LaidOut p m σ) {t : Nat} {ws : List (Vector UInt32 lanes)}
    (h : t + ws.length ≤ p.valueSlots) :
    LaidOut p (m.overwrite t ws) (σ.onMemory (·.overwrite t ws)) := by
  refine
    { size := by simpa using lay.size
      memorySize := by simpa using lay.memorySize
      registers := by simpa using lay.registers
      condition := by simpa using lay.condition
      loop := by simpa using lay.loop
      returns := by simpa using lay.returns
      trace := by simpa using lay.trace
      negative := lay.negative
      room := lay.room
      values := ?_
      live := ?_ }
  · intro i hi
    rw [StackMachine.memory_onMemory, Machine.slot_overwrite, Machine.slot_overwrite, lay.size,
      lay.memorySize, lay.values i hi]
    congr 1
    apply propext
    omega
  · intro s k hk
    have := p.valueSlots_le_stackBase s
    rw [Machine.slot_overwrite_of_ge _ (by omega)]
    exact lay.live s k hk

theorem setWord_values (lay : LaidOut p m σ) {i : Nat} (h : i < p.valueSlots) (lane : Fin lanes)
    (w : UInt32) : LaidOut p (m.setWord i lane w) (σ.onMemory (·.setWord i lane w)) := by
  refine
    { size := by simpa using lay.size
      memorySize := by simpa using lay.memorySize
      registers := lay.registers
      condition := lay.condition
      loop := lay.loop
      returns := lay.returns
      trace := lay.trace
      negative := lay.negative
      room := lay.room
      values := ?_
      live := ?_ }
  · intro j hj
    rw [StackMachine.memory_onMemory, Machine.slot_setWord, Machine.slot_setWord, lay.size,
      lay.memorySize, lay.values j hj]
    congr 1
    apply propext
    omega
  · intro s k hk
    have := p.valueSlots_le_stackBase s
    rw [Machine.slot_setWord, if_neg (by omega)]
    exact lay.live s k hk

/-- Changes outside the slots. -/
theorem onMemory (lay : LaidOut p m σ) {m' : Machine lanes}
    {f : Machine lanes → Machine lanes} (values : m'.values = m.values)
    (memory : (f σ.memory).values = σ.memory.values)
    (registers : m'.registers = (f σ.memory).registers)
    (condition : m'.condition = (f σ.memory).condition) (loop : m'.loop = (f σ.memory).loop)
    (returns : m'.returns = (f σ.memory).returns) (trace : m'.trace = (f σ.memory).trace) :
    LaidOut p m' (σ.onMemory f) where
  size := by rw [values]; exact lay.size
  memorySize := by rw [StackMachine.memory_onMemory, memory]; exact lay.memorySize
  registers := registers
  condition := condition
  loop := loop
  returns := returns
  trace := trace
  negative := lay.negative
  room := lay.room
  values := by
    intro i hi
    simp only [Machine.slot, values, StackMachine.memory_onMemory, memory]
    exact lay.values i hi
  live := by
    intro s k hk
    simp only [Machine.slot, values]
    exact lay.live s k hk

end LaidOut

end RasterShader
