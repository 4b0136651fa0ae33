import Mathlib
import RasterShader.Proofs.Code.Leads

/-!
# What added code does to the words on top

A function on builders `Spells` operations if its result follows them, whatever the code was
before; it works `OnWords` if the operations replace words on top of the stack by others, and do
nothing else.  Other than in `Builder.Turns`, the words of the lanes may differ.

Functions on words compose (`Builder.OnWords.comp`), and leave alone what is below the words that
they are about (`Builder.OnWords.below`).
-/

namespace RasterShader

variable {lanes : Nat}

theorem Call.stack_addAll (b : Builder) (ops : List Op) : (addAll b ops).stack = b.stack := by
  induction ops generalizing b with
  | nil => rfl
  | cons op ops ih => exact ih (b.emit op)

namespace Builder

/-! ## Functions on builders -/

/-- What a function makes of a builder follows operations on data that are added to it, whatever
code it has. -/
structure Spells (f : Builder → Builder) (ops : List Op) : Prop where
  data : ∀ op ∈ ops, Call.isData op = true
  follows : ∀ valueSlots b, Call.Follows valueSlots (f b) (Call.addAll b ops)

namespace Spells

variable {f g : Builder → Builder} {ops more : List Op}

theorem refl : Spells id [] := ⟨by simp, fun _ _ => .refl _⟩

theorem comp (hf : Spells f ops) (hg : Spells g more) : Spells (fun b => g (f b)) (ops ++ more) where
  data op hop := (List.mem_append.1 hop).elim (hf.data op) (hg.data op)
  follows valueSlots b := by
    rw [Call.addAll_append]
    exact (hg.follows valueSlots (f b)).trans ((hf.follows valueSlots b).addAll fun op hop =>
      (Call.of_isData (hg.data op hop)).2.2)

/-- A call stands for its operations, if they do not depend on the masks. -/
theorem of_call (call : Call) (h : call.Admissible) (happly : ∀ b, call.apply b = f b)
    (happend : ∀ b, call.append b = Call.addAll b ops)
    (data : ∀ op ∈ ops, Call.isData op = true) : Spells f ops where
  data := data
  follows valueSlots b := by
    rw [← happly, ← happend]
    exact Call.follows_apply b h

theorem emit {op : Op} (h : Call.isData op = true) : Spells (·.emit op) [op] :=
  ⟨by simpa using h, fun _ _ => .refl _⟩

theorem pushConstant (bits : UInt32) (count : Nat) :
    Spells (·.pushConstant bits count) (Call.counted count (.pushConstant count bits)) :=
  of_call (.pushConstant bits count) trivial (fun _ => rfl) (fun _ => rfl)
    (Call.isData_of_mem_counted rfl)

theorem pushSlots (space : SlotSpace) (range : SlotRange) :
    Spells (·.pushSlots space range) (Call.counted range.count (.pushSlots space range)) :=
  of_call (.pushSlots space range) trivial (fun _ => rfl) (fun _ => rfl)
    (Call.isData_of_mem_counted rfl)

theorem pushClone (count distance : Nat) :
    Spells (·.pushClone count distance) (Call.counted count (.pushClone count distance)) :=
  of_call (.pushClone count distance) trivial (fun _ => rfl) (fun _ => rfl)
    (Call.isData_of_mem_counted rfl)

theorem discard (count : Nat) :
    Spells (·.discard count) (Call.counted count (.discard count)) :=
  of_call (.discard count) trivial (fun _ => rfl) (fun _ => rfl)
    (Call.isData_of_mem_counted rfl)

theorem popSlotsUnmasked (target : SlotRange) :
    Spells (·.popSlotsUnmasked target)
      (Call.counted target.count (.copyToSlots false target target.count) ++
        Call.counted target.count (.discard target.count)) := by
  refine of_call (.popSlotsUnmasked target) trivial (fun _ => rfl) (fun _ => rfl) ?_
  intro op hop
  rcases List.mem_append.1 hop with hop | hop
  · exact Call.isData_of_mem_counted rfl op hop
  · exact Call.isData_of_mem_counted rfl op hop

theorem binary (op : BinaryOp) (ty : NumType) (count : Nat) :
    Spells (·.binary op ty count) (Call.counted count (.binary op ty count)) :=
  of_call (.binary op ty count) trivial (fun _ => rfl) (fun _ => rfl)
    (Call.isData_of_mem_counted rfl)

end Spells

/-- What words on top of a stack become. -/
abbrev WordRelation :=
  ∀ {lanes : Nat}, List (Vector UInt32 lanes) → List (Vector UInt32 lanes) → Prop

/-- The function adds operations that replace words on top of the stack by related ones, and that do
nothing else. -/
def OnWords (f : Builder → Builder) (R : WordRelation) : Prop :=
  ∃ ops, Spells f ops ∧
    ∀ {lanes : Nat} (host : HostCall → Registers lanes → Registers lanes) (batch : Batch lanes)
      (valueSlots : Nat) (s : Int) (σ : StackMachine lanes) (us vs : List (Vector UInt32 lanes)),
      R us vs → Op.Takes host batch valueSlots s ops (σ.push s us) (σ.push s vs)

namespace OnWords

variable {f g : Builder → Builder} {R S : WordRelation}

theorem refl : OnWords id fun us vs => us = vs := by
  refine ⟨[], .refl, fun host batch valueSlots s σ us vs h => ?_⟩
  rw [h]
  exact rfl

theorem comp (hf : OnWords f R) (hg : OnWords g S) :
    OnWords (fun b => g (f b)) fun us ws => ∃ vs, R us vs ∧ S vs ws := by
  obtain ⟨ops, spells, takes⟩ := hf
  obtain ⟨more, spells', takes'⟩ := hg
  refine ⟨ops ++ more, spells.comp spells', ?_⟩
  rintro lanes host batch valueSlots s σ us ws ⟨vs, hR, hS⟩
  exact (takes _ _ _ _ _ _ _ hR).append (takes' _ _ _ _ _ _ _ hS)

theorem mono (hf : OnWords f R)
    (h : ∀ {lanes : Nat} (us vs : List (Vector UInt32 lanes)), S us vs → R us vs) :
    OnWords f S := by
  obtain ⟨ops, spells, takes⟩ := hf
  exact ⟨ops, spells, fun host batch valueSlots s σ us vs hS =>
    takes host batch valueSlots s σ us vs (h us vs hS)⟩

/-- Words further down are left alone. -/
theorem below (hf : OnWords f R) :
    OnWords f fun us vs => ∃ under us' vs', us = under ++ us' ∧ vs = under ++ vs' ∧ R us' vs' := by
  obtain ⟨ops, spells, takes⟩ := hf
  refine ⟨ops, spells, ?_⟩
  rintro lanes host batch valueSlots s σ _ _ ⟨under, us, vs, rfl, rfl, hR⟩
  rw [← StackMachine.push_push, ← StackMachine.push_push]
  exact takes host batch valueSlots s (σ.push s under) us vs hR

theorem pushConstant (bits : UInt32) (count : Nat) :
    OnWords (·.pushConstant bits count) fun {lanes} us vs =>
      vs = us ++ List.replicate count (Vector.replicate lanes bits) := by
  refine ⟨_, .pushConstant bits count, ?_⟩
  rintro lanes host batch valueSlots s σ us vs rfl
  refine .counted count rfl trivial (StackMachine.push_push ..) ?_ rfl
  rintro rfl
  simp

/-- Words that are not too far down are pushed once more. -/
theorem pushClone (count distance : Nat) :
    OnWords (·.pushClone count distance) fun us vs =>
      count ≤ distance ∧ distance ≤ us.length ∧
        vs = us ++ (us.drop (us.length - distance)).take count := by
  refine ⟨_, .pushClone count distance, ?_⟩
  rintro lanes host batch valueSlots s σ us vs ⟨hcount, hdistance, rfl⟩
  have hdepth := σ.length_le_depth_push s us
  refine .counted count rfl ⟨hcount, by omega⟩ ?_ ?_ rfl
  · rw [Op.exec, StackMachine.peek_push_of_le _ _ hdistance, StackMachine.push_push]
  · rintro rfl
    simp

theorem discard (count : Nat) :
    OnWords (·.discard count) fun us vs => ∃ dropped, us = vs ++ dropped ∧ dropped.length = count := by
  refine ⟨_, .discard count, ?_⟩
  rintro lanes host batch valueSlots s σ _ vs ⟨dropped, rfl, hdropped⟩
  exact .discard σ vs dropped hdropped

/-- Two runs of words are combined one by one. -/
theorem binary (op : BinaryOp) (ty : NumType) (count : Nat) :
    OnWords (·.binary op ty count) fun us vs =>
      ∃ xs ys, us = xs ++ ys ∧ xs.length = count ∧ ys.length = count ∧
        vs = List.zipWith (Vector.zipWith (op.eval ty)) xs ys := by
  refine ⟨_, .binary op ty count, ?_⟩
  rintro lanes host batch valueSlots s σ us vs ⟨xs, ys, rfl, hxs, hys, rfl⟩
  have hdepth := σ.length_le_depth_push s (xs ++ ys)
  rw [List.length_append] at hdepth
  refine .counted count rfl ?_ ?_ ?_ rfl
  · show ((2 * count : Nat) : Int) ≤ _
    omega
  · rw [Op.exec, StackMachine.transform_push_self _ _ (by rw [List.length_append]; omega),
      Words.combine, List.take_left' hxs, List.drop_left' hxs]
  · intro hzero
    rw [List.length_eq_zero_iff.1 (hxs.trans hzero), List.length_eq_zero_iff.1 (hys.trans hzero)]
    rfl

/-- The word on top is repeated. -/
theorem pushDuplicates (count : Nat) :
    OnWords (·.pushDuplicates count) fun us vs =>
      ∃ w, us = [w] ∧ vs = List.replicate (count + 1) w := by
  refine ⟨Call.duplicates count, .of_call (.pushDuplicates count) trivial (fun _ => rfl)
    (fun _ => rfl) Call.isData_of_mem_duplicates, ?_⟩
  rintro lanes host batch valueSlots s σ _ _ ⟨w, rfl, rfl⟩
  exact .duplicates σ w count

end OnWords

end Builder

end RasterShader
