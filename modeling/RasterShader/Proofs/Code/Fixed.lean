import Mathlib
import RasterShader.Proofs.Code.Calls

/-!
# What calls leave as it is

No rewrite makes or takes back an operation that calls the host, writes an immutable slot or belongs
to the control flow (`Code.isFixed`), whether the code is valid or not.  So a call adds the fixed
operation that it emits as it is, if it does, and keeps all others in order (`Call.fixed_apply`).
-/

namespace RasterShader

namespace Code

variable {stack : Int} {code code' : Code}

/-! ## Rewrites -/

theorem fixed_cons {i : Instruction} (h : isFixed i.op = false) (code : Code) :
    fixed (i :: code) = fixed code := by
  rw [fixed, List.map_cons, List.filter_cons_of_neg (by simp [h])]
  rfl

theorem fixed_pushConstant (stack : Int) (count : Nat) (bits : UInt32) (code : Code) :
    fixed (pushConstant stack count bits code) = fixed code := by
  fun_cases pushConstant stack count bits code <;> simp [fixed, isFixed]

theorem fixed_pushSlots (stack : Int) (space : SlotSpace) (range : SlotRange) (code : Code) :
    fixed (pushSlots stack space range code) = fixed code := by
  fun_cases pushSlots stack space range code <;> simp [fixed, isFixed]

theorem fixed_copySlots (stack : Int) (target source count : Nat) (code : Code) :
    fixed (copySlots stack target source count code) = fixed code := by
  fun_cases copySlots stack target source count code <;> simp [fixed, isFixed]

theorem fixed_zeroSlots (stack : Int) (range : SlotRange) (code : Code) :
    fixed (zeroSlots stack range code) = fixed code := by
  fun_cases zeroSlots stack range code <;> simp [fixed, isFixed]

theorem fixed_pushMask (stack : Int) (mask : Mask) (code : Code) :
    fixed (pushMask stack mask code) = fixed code := by
  fun_cases pushMask stack mask code <;> simp [fixed, isFixed]

theorem fixed_storeDirectly {target : SlotRange} (h : storeDirectly? stack target code = some code') :
    fixed code' = fixed code := by
  revert h
  fun_cases storeDirectly? stack target code with
  | case1 source s rest =>
    rintro ⟨⟩
    exact (fixed_cons rfl _).symm
  | case2 | case4 | case6 | case7 => simp
  | case3 source s rest =>
    rintro ⟨⟩
    rw [fixed_copySlots, fixed_cons rfl]
  | case5 op ty count bits s source s' rest =>
    rintro ⟨⟩
    rw [fixed_cons rfl, fixed_cons rfl, fixed_cons rfl]

theorem fixed_dropConstants (stack : Int) (n count : Nat) (bits : UInt32) (code : Code) :
    fixed (dropConstants stack n count bits code) = fixed code := by
  rw [dropConstants]
  split
  · rfl
  · exact fixed_cons rfl _

theorem isFixed_immediate (op : BinaryOp) (ty : NumType) (count : Nat) (bits : UInt32) :
    isFixed (immediate op ty count bits) = false := by
  fun_cases immediate op ty count bits <;> rfl

theorem fixed_foldImmediate {op : BinaryOp} {ty : NumType} {count : Nat}
    (h : foldImmediate? stack op ty count code = some code') : fixed code' = fixed code := by
  revert h
  fun_cases foldImmediate? stack op ty count code with
  | case1 n bits s rest =>
    rintro ⟨⟩
    rw [fixed_cons (isFixed_immediate ..), fixed_dropConstants, fixed_cons rfl]
  | case3 space range s n bits s' rest =>
    rintro ⟨⟩
    rw [fixed_cons (isFixed_immediate ..), fixed_cons rfl, fixed_dropConstants, fixed_cons rfl,
      fixed_cons rfl]
  | case2 | case4 | case5 => simp

/-- A push that may be trimmed is not fixed, and neither is what is left of it. -/
theorem isFixed_trimmable {op : Op} {n : Nat} {push : Nat → Op}
    (h : trimmable? op = some (n, push)) :
    isFixed op = false ∧ ∀ k, isFixed (push k) = false := by
  cases op <;> simp only [trimmable?, Option.some.injEq, Prod.mk.injEq, reduceCtorEq] at h
  all_goals
    obtain ⟨rfl, rfl⟩ := h
    exact ⟨rfl, fun _ => rfl⟩

theorem isFixed_inPlace {op : Op} {n : Nat} (h : inPlace? op = some n) : isFixed op = false := by
  cases op with
  | unary | binaryImm => rfl
  | _ => simp [inPlace?] at h

/-- Discarding takes back instructions on data only. -/
theorem fixed_discard (stack : Int) (count : Nat) (code : Code) :
    fixed (discard stack count code) = fixed code := by
  fun_induction discard stack count code with
  | case1 code => rfl
  | case2 | case3 | case8 | case10 | case11 | case12 => exact fixed_cons rfl _
  | case4 count hc i rest hs n hop =>
    have hi : isFixed i.op = false := by rw [hop]; rfl
    rw [fixed_cons rfl, fixed_cons hi]
  | case5 count hc i rest hs n push hpush hn _ ih =>
    rw [ih, fixed_cons (isFixed_trimmable hpush).1]
  | case6 count hc i rest hs n push hpush hn _ =>
    obtain ⟨hi, hpushed⟩ := isFixed_trimmable hpush
    rw [fixed_cons (hpushed _), fixed_cons hi]
  | case7 count hc i rest hs n hn hle _ _ ih =>
    rw [ih, fixed_cons (isFixed_inPlace hn)]
  | case9 count hc i rest hs target distance hop hd code' hcode' _ _ ih =>
    have hi : isFixed i.op = false := by rw [hop]; rfl
    rw [ih, fixed_storeDirectly hcode', fixed_cons hi]

theorem isFixed_selection (consumed : Nat) (components : List Nat) :
    isFixed (selection consumed components) = false := by
  fun_cases selection consumed components <;> rfl

end Code

open Code (fixed isFixed)

/-! ## Calls -/

namespace Builder

variable (b : Builder)

theorem fixed_emit {op : Op} (h : isFixed op = false) : fixed (b.emit op).code = fixed b.code :=
  Code.fixed_cons h b.code

theorem fixed_emitCounted (count : Nat) {op : Op} (h : isFixed op = false) :
    fixed (b.emitCounted count op).code = fixed b.code := by
  rw [emitCounted]
  split
  · rfl
  · exact b.fixed_emit h

theorem fixed_discard (count : Nat) : fixed (b.discard count).code = fixed b.code :=
  Code.fixed_discard b.stack count b.code

theorem fixed_copyToSlots (target : SlotRange) (distance : Nat) :
    fixed (b.copyToSlots target distance).code = fixed b.code := by
  rw [copyToSlots, copyToSlotsUnmasked]
  split <;> exact b.fixed_emitCounted _ rfl

theorem fixed_binary (op : BinaryOp) (ty : NumType) (count : Nat) :
    fixed (b.binary op ty count).code = fixed b.code := by
  simp only [binary]
  split_ifs
  · rfl
  · cases hfold : b.code.foldImmediate? b.stack op (op.canonicalType ty) count with
    | none => exact b.fixed_emit rfl
    | some code => exact Code.fixed_foldImmediate hfold
  · exact b.fixed_emit rfl

theorem fixed_swizzle (consumed : Nat) (components : List Nat) :
    fixed (b.swizzle consumed components).code = fixed b.code := by
  rw [swizzle]
  split
  · exact b.fixed_discard _
  · exact b.fixed_emit (Code.isFixed_selection ..)

theorem fixed_pushDuplicates (count : Nat) :
    fixed (b.pushDuplicates count).code = fixed b.code := by
  fun_induction pushDuplicates b count with
  | case1 => rfl
  | case2 b count hcount ih => rw [ih, fixed_swizzle]

end Builder

namespace Call

/-- The fixed operation that a call adds: only one that is emitted as it is. -/
def fixed? : Call → Option Op
  | emit op => if isFixed op then some op else none
  | _ => none

/-- A call adds the fixed operation that it stands for, and no other. -/
theorem fixed_apply (call : Call) (b : Builder) :
    fixed (call.apply b).code = call.fixed?.toList ++ fixed b.code := by
  cases call with
  | setStack | enableMaskWrites | disableMaskWrites => rfl
  | pushConstant bits count =>
    rw [apply, Builder.pushConstant]
    split
    · rfl
    · exact Code.fixed_pushConstant ..
  | pushSlots space range =>
    rw [apply, Builder.pushSlots]
    split
    · rfl
    · exact Code.fixed_pushSlots ..
  | pushMask mask => exact Code.fixed_pushMask ..
  | discard count => exact b.fixed_discard count
  | copyToSlots target distance => exact b.fixed_copyToSlots target distance
  | popSlots target =>
    exact (Builder.fixed_discard ..).trans (b.fixed_copyToSlots target target.count)
  | popSlotsUnmasked target =>
    exact (Builder.fixed_discard ..).trans (b.fixed_emitCounted _ rfl)
  | popSlotsIndirect fixed offsetStack limit =>
    exact (Builder.fixed_discard ..).trans (b.fixed_emit rfl)
  | copySlotsUnmasked target source count =>
    rw [apply, Builder.copySlotsUnmasked]
    split
    · rfl
    · exact Code.fixed_copySlots ..
  | zeroSlots range =>
    rw [apply, Builder.zeroSlots]
    split
    · rfl
    · exact Code.fixed_zeroSlots ..
  | binary op ty count => exact b.fixed_binary op ty count
  | swizzle consumed components => exact b.fixed_swizzle consumed components
  | pushDuplicates count => exact b.fixed_pushDuplicates count
  | pushClone | pushCloneFromStack | copyToSlotsUnmasked | copySlotsMasked | unary | ternary
  | select | traceVar => exact b.fixed_emitCounted _ rfl
  | emit op =>
    rw [fixed?]
    split
    · rename_i hop
      rw [apply, Builder.emit, fixed, List.map_cons, List.filter_cons_of_pos hop]
      rfl
    · rename_i hop
      exact b.fixed_emit (by simpa using hop)

end Call

end RasterShader
