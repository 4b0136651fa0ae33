import Mathlib
import RasterShader.Machine.Step

/-!
# Slots of the machine, one at a time and in windows

A machine is looked at through its slots.  This file says what the primitive changes of the memory
do to each slot (`slot_setSlot`, `slot_setWord`, `slot_fill`), and that a machine is determined by
its slots and its registers, masks and events (`ext_slots`).

Most stages replace a window of consecutive slots by words that were determined before the first of
them is written.  `Machine.overwrite` is that change in one step, and `forEach_setSlot` brings a
loop over the slots of a window to that form, if what is written to a slot does not depend on the
slots written before it.
-/

namespace RasterShader
namespace Machine

variable {lanes : Nat}

/-! ## One slot -/

@[simp] theorem size_setSlot (m : Machine lanes) (i : Nat) (w : Vector UInt32 lanes) :
    (m.setSlot i w).values.size = m.values.size := by
  simp [setSlot]

@[simp] theorem registers_setSlot (m : Machine lanes) (i : Nat) (w : Vector UInt32 lanes) :
    (m.setSlot i w).registers = m.registers := rfl

@[simp] theorem condition_setSlot (m : Machine lanes) (i : Nat) (w : Vector UInt32 lanes) :
    (m.setSlot i w).condition = m.condition := rfl

@[simp] theorem loop_setSlot (m : Machine lanes) (i : Nat) (w : Vector UInt32 lanes) :
    (m.setSlot i w).loop = m.loop := rfl

@[simp] theorem returns_setSlot (m : Machine lanes) (i : Nat) (w : Vector UInt32 lanes) :
    (m.setSlot i w).returns = m.returns := rfl

@[simp] theorem trace_setSlot (m : Machine lanes) (i : Nat) (w : Vector UInt32 lanes) :
    (m.setSlot i w).trace = m.trace := rfl

theorem slot_eq_getElem (m : Machine lanes) {i : Nat} (h : i < m.values.size) :
    m.slot i = m.values[i] := by
  simp [slot, h]

theorem slot_setSlot (m : Machine lanes) (i j : Nat) (w : Vector UInt32 lanes) :
    (m.setSlot i w).slot j = if i = j ∧ i < m.values.size then w else m.slot j := by
  simp only [slot, setSlot, Array.getD_eq_getD_getElem?, Array.getElem?_setIfInBounds]
  by_cases hij : i = j
  · subst hij
    by_cases hi : i < m.values.size <;> simp [hi]
  · simp [hij]

@[simp] theorem size_setWord (m : Machine lanes) (i : Nat) (lane : Fin lanes) (w : UInt32) :
    (m.setWord i lane w).values.size = m.values.size := by
  simp [setWord]

@[simp] theorem registers_setWord (m : Machine lanes) (i : Nat) (lane : Fin lanes) (w : UInt32) :
    (m.setWord i lane w).registers = m.registers := rfl

@[simp] theorem condition_setWord (m : Machine lanes) (i : Nat) (lane : Fin lanes) (w : UInt32) :
    (m.setWord i lane w).condition = m.condition := rfl

@[simp] theorem loop_setWord (m : Machine lanes) (i : Nat) (lane : Fin lanes) (w : UInt32) :
    (m.setWord i lane w).loop = m.loop := rfl

@[simp] theorem returns_setWord (m : Machine lanes) (i : Nat) (lane : Fin lanes) (w : UInt32) :
    (m.setWord i lane w).returns = m.returns := rfl

@[simp] theorem trace_setWord (m : Machine lanes) (i : Nat) (lane : Fin lanes) (w : UInt32) :
    (m.setWord i lane w).trace = m.trace := rfl

theorem slot_setWord (m : Machine lanes) (i j : Nat) (lane : Fin lanes) (w : UInt32) :
    (m.setWord i lane w).slot j =
      if i = j ∧ i < m.values.size then (m.slot j).set lane w lane.isLt else m.slot j := by
  simp only [slot, setWord, Array.getD_eq_getD_getElem?, Array.getElem?_modify]
  by_cases hij : i = j
  · subst hij
    by_cases hi : i < m.values.size <;> simp [hi]
  · simp [hij]

/-- A machine is determined by its slots and by what is not in slots. -/
theorem ext_slots {m n : Machine lanes} (size : m.values.size = n.values.size)
    (slots : ∀ i < m.values.size, m.slot i = n.slot i) (registers : m.registers = n.registers)
    (condition : m.condition = n.condition) (loop : m.loop = n.loop)
    (returns : m.returns = n.returns) (trace : m.trace = n.trace) : m = n := by
  have values : m.values = n.values := by
    apply Array.ext size
    intro i hi hi'
    rw [← slot_eq_getElem m hi, ← slot_eq_getElem n hi', slots i hi]
  cases m
  cases n
  simp_all

@[simp] theorem executes_setSlot (m : Machine lanes) (i : Nat) (w : Vector UInt32 lanes)
    (lane : Fin lanes) : (m.setSlot i w).executes lane = m.executes lane := rfl

@[simp] theorem masked_setSlot (m : Machine lanes) (i : Nat) (w old new : Vector UInt32 lanes) :
    (m.setSlot i w).masked old new = m.masked old new := rfl

/-! ## Loops over places -/

@[simp] theorem forEach_zero (m : Machine lanes) (f : Nat → Machine lanes → Machine lanes) :
    m.forEach 0 f = m := rfl

theorem forEach_succ (m : Machine lanes) (n : Nat) (f : Nat → Machine lanes → Machine lanes) :
    m.forEach (n + 1) f = f n (m.forEach n f) := rfl

/-- Two loops whose rounds keep a relation keep it. -/
theorem forEach_rel {width : Nat} {R : Machine lanes → Machine width → Prop} {m : Machine lanes}
    {μ : Machine width} (n : Nat) {f : Nat → Machine lanes → Machine lanes}
    {g : Nat → Machine width → Machine width} (start : R m μ)
    (round : ∀ i < n, ∀ m' μ', R m' μ' → R (f i m') (g i μ')) :
    R (m.forEach n f) (μ.forEach n g) := by
  induction n with
  | zero => exact start
  | succ n ih =>
    rw [forEach_succ, forEach_succ]
    exact round n (Nat.lt_succ_self n) _ _ (ih fun i hi => round i (Nat.lt_succ_of_lt hi))

/-- Two loops over the lanes that execute keep a relation between machines with the same masks, if
their rounds do. -/
theorem forActiveLanes_rel {R : Machine lanes → Machine lanes → Prop} {m μ : Machine lanes}
    {f g : Fin lanes → Machine lanes → Machine lanes}
    (masks : ∀ m μ, R m μ → ∀ lane, m.executes lane = μ.executes lane) (start : R m μ)
    (round : ∀ lane m' μ', R m' μ' → R (f lane m') (g lane μ')) :
    R (m.forActiveLanes f) (μ.forActiveLanes g) := by
  simp only [forActiveLanes, Fin.foldl_eq_finRange_foldl]
  generalize List.finRange lanes = ls
  induction ls generalizing m μ with
  | nil => exact start
  | cons lane ls ih =>
    simp only [List.foldl_cons]
    apply ih
    rw [masks m μ start lane]
    split
    · exact round lane m μ start
    · exact start

/-! ## Windows -/

/-- The words of `count` slots from `base` on. -/
def window (m : Machine lanes) (base count : Nat) : List (Vector UInt32 lanes) :=
  (List.range count).map fun i => m.slot (base + i)

@[simp] theorem length_window (m : Machine lanes) (base count : Nat) :
    (m.window base count).length = count := by
  simp [window]

@[simp] theorem getElem_window (m : Machine lanes) (base count : Nat) {i : Nat}
    (h : i < (m.window base count).length) : (m.window base count)[i] = m.slot (base + i) := by
  simp [window]

theorem window_congr {m n : Machine lanes} {base count : Nat}
    (h : ∀ i < count, m.slot (base + i) = n.slot (base + i)) :
    m.window base count = n.window base count := by
  apply List.map_congr_left
  intro i hi
  exact h i (List.mem_range.1 hi)

/-- Replaces the words of consecutive slots from `target` on. -/
def overwrite (m : Machine lanes) (target : Nat) (words : List (Vector UInt32 lanes)) :
    Machine lanes :=
  m.fill target words.length fun i => words.getD i (Vector.replicate lanes 0)

theorem fill_succ (m : Machine lanes) (target count : Nat) (f : Nat → Vector UInt32 lanes) :
    m.fill target (count + 1) f = (m.fill target count f).setSlot (target + count) (f count) := rfl

/-- Filling slots changes those slots only. -/
theorem fill_frame (m : Machine lanes) (target count : Nat) (f : Nat → Vector UInt32 lanes) :
    (m.fill target count f).values.size = m.values.size ∧
      (m.fill target count f).registers = m.registers ∧
      (m.fill target count f).condition = m.condition ∧
      (m.fill target count f).loop = m.loop ∧ (m.fill target count f).returns = m.returns ∧
      (m.fill target count f).trace = m.trace := by
  induction count with
  | zero => simp [fill]
  | succ count ih =>
    rw [fill_succ]
    simpa using ih

theorem slot_fill (m : Machine lanes) (target count : Nat) (f : Nat → Vector UInt32 lanes)
    (j : Nat) :
    (m.fill target count f).slot j =
      if target ≤ j ∧ j < target + count ∧ j < m.values.size then f (j - target)
      else m.slot j := by
  induction count with
  | zero =>
    rw [if_neg (by omega)]
    rfl
  | succ count ih =>
    rw [fill_succ, slot_setSlot, (fill_frame m target count f).1, ih]
    by_cases hj : target + count = j
    · subst hj
      by_cases hs : target + count < m.values.size <;> simp [hs]
    · rw [if_neg (by omega)]
      congr 1
      apply propext
      omega

@[simp] theorem size_overwrite (m : Machine lanes) (t : Nat) (ws : List (Vector UInt32 lanes)) :
    (m.overwrite t ws).values.size = m.values.size := (fill_frame ..).1

@[simp] theorem registers_overwrite (m : Machine lanes) (t : Nat)
    (ws : List (Vector UInt32 lanes)) : (m.overwrite t ws).registers = m.registers :=
  (fill_frame ..).2.1

@[simp] theorem condition_overwrite (m : Machine lanes) (t : Nat)
    (ws : List (Vector UInt32 lanes)) : (m.overwrite t ws).condition = m.condition :=
  (fill_frame ..).2.2.1

@[simp] theorem loop_overwrite (m : Machine lanes) (t : Nat) (ws : List (Vector UInt32 lanes)) :
    (m.overwrite t ws).loop = m.loop := (fill_frame ..).2.2.2.1

@[simp] theorem returns_overwrite (m : Machine lanes) (t : Nat)
    (ws : List (Vector UInt32 lanes)) : (m.overwrite t ws).returns = m.returns :=
  (fill_frame ..).2.2.2.2.1

@[simp] theorem trace_overwrite (m : Machine lanes) (t : Nat) (ws : List (Vector UInt32 lanes)) :
    (m.overwrite t ws).trace = m.trace := (fill_frame ..).2.2.2.2.2

theorem slot_overwrite (m : Machine lanes) (t : Nat) (ws : List (Vector UInt32 lanes)) (j : Nat) :
    (m.overwrite t ws).slot j =
      if t ≤ j ∧ j < t + ws.length ∧ j < m.values.size then
        ws.getD (j - t) (Vector.replicate lanes 0)
      else m.slot j := slot_fill ..

theorem slot_overwrite_of_lt (m : Machine lanes) {t : Nat} (ws : List (Vector UInt32 lanes))
    {j : Nat} (h : j < t) : (m.overwrite t ws).slot j = m.slot j := by
  rw [slot_overwrite, if_neg (by omega)]

theorem slot_overwrite_of_ge (m : Machine lanes) {t : Nat} {ws : List (Vector UInt32 lanes)}
    {j : Nat} (h : t + ws.length ≤ j) : (m.overwrite t ws).slot j = m.slot j := by
  rw [slot_overwrite, if_neg (by omega)]

/-- The masks of a machine decide what is written in which lanes; overwriting keeps them. -/
@[simp] theorem executes_overwrite (m : Machine lanes) (t : Nat) (ws : List (Vector UInt32 lanes))
    (lane : Fin lanes) : (m.overwrite t ws).executes lane = m.executes lane := by
  simp [executes]

@[simp] theorem masked_overwrite (m : Machine lanes) (t : Nat) (ws : List (Vector UInt32 lanes))
    (old new : Vector UInt32 lanes) :
    (m.overwrite t ws).masked old new = m.masked old new := by
  simp [masked]

@[simp] theorem overwrite_nil (m : Machine lanes) (t : Nat) : m.overwrite t [] = m := rfl

theorem overwrite_concat (m : Machine lanes) (t : Nat) (ws : List (Vector UInt32 lanes))
    (w : Vector UInt32 lanes) :
    m.overwrite t (ws ++ [w]) = (m.overwrite t ws).setSlot (t + ws.length) w := by
  apply ext_slots
  · simp
  · intro i hi
    rw [slot_overwrite, slot_setSlot, slot_overwrite, size_overwrite]
    by_cases h : t + ws.length = i
    · subst h
      simp_all
    · simp only [List.length_append, List.length_singleton, h, false_and, if_false]
      by_cases hlt : t ≤ i ∧ i < t + ws.length ∧ i < m.values.size
      · rw [if_pos (by omega), if_pos hlt]
        simp [List.getD_eq_getElem?_getD, List.getElem?_append_left (show i - t < ws.length by omega)]
      · rw [if_neg (by omega), if_neg hlt]
  all_goals simp

/-- Writing back what is there changes nothing. -/
theorem overwrite_window (m : Machine lanes) (t n : Nat) : m.overwrite t (m.window t n) = m := by
  apply ext_slots
  · simp
  · intro i hi
    rw [slot_overwrite]
    split
    · rename_i h
      rw [List.getD_eq_getElem _ _ (by simp at h ⊢; omega), getElem_window]
      congr 1
      omega
    · rfl
  all_goals simp

/-- A loop that writes the slots of a window one after the other writes the window at once, if each
word is what it would have been before the loop. -/
theorem forEach_setSlot (m : Machine lanes) (t n : Nat)
    (g : Nat → Machine lanes → Vector UInt32 lanes)
    (h : ∀ i < n, g i (m.overwrite t ((List.range i).map (g · m))) = g i m) :
    m.forEach n (fun i m => m.setSlot (t + i) (g i m)) =
      m.overwrite t ((List.range n).map (g · m)) := by
  induction n with
  | zero => rfl
  | succ n ih =>
    rw [forEach_succ, ih fun i hi => h i (Nat.lt_succ_of_lt hi), h n (Nat.lt_succ_self n),
      List.range_succ, List.map_append, List.map_singleton, overwrite_concat]
    simp

end Machine
end RasterShader
