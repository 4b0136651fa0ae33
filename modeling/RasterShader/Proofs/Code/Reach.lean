import Mathlib
import RasterShader.Proofs.Code.Fixed

/-!
# How far a call looks back

A call of a builder that has nothing to do with control flow looks at the instructions after the
latest label or branch, and at no others: on top of code that ends there (`Code.Stops`) it does what
it does by itself (`Call.apply_onto`).  It adds no labels and branches, and takes none away
(`Call.controls_apply`).

Both are shown of every rewrite of `Code` first (`Code.Local`).  A rewrite that joins with the
latest instruction only is local for one reason (`Code.Local.of_head`); discarding takes back one
instruction after the other, and stops at a label or branch at the latest.
-/

namespace RasterShader

/-- An operation that has to do with the flow of control. -/
def Op.isControl : Op → Bool
  | .label _ | .branch .. => true
  | _ => false

namespace Code

/-! ## Rewrites of code -/

/-- Code that calls do not look into: there is none, or a label or branch comes last. -/
def Stops (code : Code) : Prop := ∀ i ∈ code.head?, i.op.isControl = true

theorem stops_nil : Stops [] := by
  rintro i ⟨⟩

theorem stops_cons {i : Instruction} (h : i.op.isControl = true) (rest : Code) :
    Stops (i :: rest) := by
  rintro j ⟨⟩
  exact h

theorem Stops.elim {P : Code → Prop} {code : Code} (h : Stops code) (nil : P [])
    (label : ∀ l s rest, P (⟨.label l, s⟩ :: rest))
    (branch : ∀ c l s rest, P (⟨.branch c l, s⟩ :: rest)) : P code := by
  rcases code with _ | ⟨⟨op, s⟩, rest⟩
  · exact nil
  · have hop : op.isControl = true := h _ rfl
    cases op with
    | label l => exact label l s rest
    | branch c l => exact branch c l s rest
    | _ => cases hop

/-- The labels and branches of code. -/
def controls (code : Code) : List Op := (code.map (·.op)).filter Op.isControl

theorem controls_cons {i : Instruction} (h : i.op.isControl = false) (code : Code) :
    controls (i :: code) = controls code := by
  rw [controls, List.map_cons, List.filter_cons_of_neg (by simp [h])]
  rfl

theorem isControl_of_not_isFixed {op : Op} (h : isFixed op = false) : op.isControl = false := by
  cases op with
  | label | branch => cases h
  | _ => rfl

/-- Labels and branches are fixed, so that what keeps the fixed operations keeps these. -/
theorem controls_of_fixed {code code' : Code} (h : fixed code = fixed code') :
    controls code = controls code' := by
  have heq (code : Code) : controls code = (fixed code).filter Op.isControl := by
    rw [fixed, controls, List.filter_filter]
    refine List.filter_congr fun op _ => ?_
    cases op <;> rfl
  rw [heq, heq, h]

/-- A rewrite looks only at what comes after the latest label or branch, and keeps all of these. -/
structure Local (f : Code → Code) : Prop where
  append : ∀ {rest : Code}, Stops rest → ∀ code, f (code ++ rest) = f code ++ rest
  controls : ∀ code, controls (f code) = controls code

/-- A rewrite adds an instruction, or puts others on data in place of the latest one. -/
theorem Local.of_head {f : Code → Code} (new : Instruction) (nil : f [] = [new])
    (fixed : ∀ code, fixed (f code) = fixed code)
    (cons : ∀ i, (∀ code, f (i :: code) = new :: i :: code) ∨ ∃ front : Code,
      i.op.isControl = false ∧ ∀ code, f (i :: code) = front ++ code) :
    Local f where
  append := by
    intro rest h code
    rcases code with _ | ⟨i, code⟩
    · rcases rest with _ | ⟨i, rest⟩
      · rw [List.append_nil, List.append_nil]
      · obtain hnew | ⟨-, hi, -⟩ := cons i
        · rw [List.nil_append, hnew, nil, List.singleton_append]
        · simp [h i rfl] at hi
    · obtain hnew | ⟨front, -, hfront⟩ := cons i
      · rw [List.cons_append, hnew, hnew, List.cons_append, List.cons_append]
      · rw [List.cons_append, hfront, hfront, List.append_assoc]
  controls code := controls_of_fixed (fixed code)

variable (stack : Int)

/-! ### Joining -/

theorem local_pushConstant (count : Nat) (bits : UInt32) :
    Local (pushConstant stack count bits) := by
  refine .of_head ⟨.pushConstant count bits, stack⟩ rfl (fixed_pushConstant stack count bits) ?_
  rintro ⟨op, s⟩
  cases op with
  | pushConstant n b =>
    by_cases h : s = stack ∧ b = bits
    · exact .inr ⟨[⟨.pushConstant (n + count) bits, stack⟩], rfl, fun _ => if_pos h⟩
    · exact .inl fun _ => if_neg h
  | _ => exact .inl fun _ => rfl

theorem local_pushSlots (space : SlotSpace) (range : SlotRange) :
    Local (pushSlots stack space range) := by
  refine .of_head ⟨.pushSlots space range, stack⟩ rfl (fixed_pushSlots stack space range) ?_
  rintro ⟨op, s⟩
  cases op with
  | pushSlots p r =>
    by_cases h : s = stack ∧ p = space ∧ r.stop = range.index
    · exact .inr ⟨[⟨.pushSlots space ⟨r.index, r.count + range.count⟩, stack⟩], rfl,
        fun _ => if_pos h⟩
    · exact .inl fun _ => if_neg h
  | _ => exact .inl fun _ => rfl

theorem local_copySlots (target source count : Nat) :
    Local (copySlots stack target source count) := by
  refine .of_head ⟨.copySlots false target source count, stack⟩ rfl (fixed_copySlots stack target source count) ?_
  rintro ⟨op, s⟩
  cases op with
  | copySlots masked t r n =>
    cases masked with
    | true => exact .inl fun _ => rfl
    | false =>
      by_cases h : s = stack ∧ t + n = target ∧ r + n = source
      · exact .inr ⟨[⟨.copySlots false t r (n + count), stack⟩], rfl, fun _ => if_pos h⟩
      · exact .inl fun _ => if_neg h
  | _ => exact .inl fun _ => rfl

theorem local_zeroSlots (range : SlotRange) : Local (zeroSlots stack range) := by
  refine .of_head ⟨.zeroSlots range, stack⟩ rfl (fixed_zeroSlots stack range) ?_
  rintro ⟨op, s⟩
  cases op with
  | zeroSlots r =>
    by_cases h : s = stack ∧ r.stop = range.index
    · exact .inr ⟨[⟨.zeroSlots ⟨r.index, r.count + range.count⟩, stack⟩], rfl,
        fun _ => if_pos h⟩
    · exact .inl fun _ => if_neg h
  | _ => exact .inl fun _ => rfl

theorem local_pushMask (mask : Mask) : Local (pushMask stack mask) := by
  refine .of_head ⟨.pushMask mask, stack⟩ rfl (fixed_pushMask stack mask) ?_
  rintro ⟨op, s⟩
  cases op with
  | popMask m =>
    by_cases h : s = stack ∧ m = mask
    · exact .inr ⟨[⟨.pad 1, stack⟩, ⟨.popMask m, s⟩], rfl, fun _ => if_pos h⟩
    · exact .inl fun _ => if_neg h
  | _ => exact .inl fun _ => rfl

/-! ### Storing and folding -/

/-- The same of a rewrite that need not apply. -/
structure Local? (f : Code → Option Code) : Prop where
  append : ∀ {rest : Code}, Stops rest → ∀ code, f (code ++ rest) = (f code).map (· ++ rest)
  controls : ∀ {code code'}, f code = some code' → controls code' = controls code

theorem local?_storeDirectly (target : SlotRange) : Local? (storeDirectly? stack target) where
  append := by
    intro rest h code
    rcases code with _ | ⟨⟨op, s⟩, code⟩
    · exact h.elim (P := (storeDirectly? stack target · = none)) rfl (fun _ _ _ => rfl)
        fun _ _ _ _ => rfl
    · cases op with
      | pushSlots space source =>
        cases space with
        | value =>
          simp only [List.cons_append, storeDirectly?]
          split_ifs
          · rfl
          · rfl
          · rw [(local_copySlots stack ..).append h]
            rfl
          · rfl
        | _ => rfl
      | binaryImm op ty count bits slot =>
        cases slot with
        | some slot => rfl
        | none =>
          rcases code with _ | ⟨⟨op', s'⟩, code⟩
          · exact h.elim (P := fun rest =>
              storeDirectly? stack target (⟨.binaryImm op ty count bits none, s⟩ :: rest) = none)
              rfl (fun _ _ _ => rfl) fun _ _ _ _ => rfl
          · cases op' with
            | pushSlots space source =>
              cases space with
              | value =>
                simp only [List.cons_append, storeDirectly?]
                split_ifs <;> rfl
              | _ => rfl
            | _ => rfl
      | _ => rfl
  controls h := controls_of_fixed (fixed_storeDirectly h)

theorem local_dropConstants (n count : Nat) (bits : UInt32) :
    Local (dropConstants stack n count bits) where
  append := by
    intro rest _ code
    rw [dropConstants, dropConstants]
    split <;> rfl
  controls code := controls_of_fixed (fixed_dropConstants stack n count bits code)

theorem local?_foldImmediate (op : BinaryOp) (ty : NumType) (count : Nat) :
    Local? (foldImmediate? stack op ty count) where
  append := by
    intro rest h code
    rcases code with _ | ⟨⟨op', s⟩, code⟩
    · exact h.elim (P := (foldImmediate? stack op ty count · = none)) rfl (fun _ _ _ => rfl)
        fun _ _ _ _ => rfl
    · cases op' with
      | pushConstant n bits =>
        simp only [List.cons_append, foldImmediate?, (local_dropConstants stack ..).append h]
        split_ifs <;> rfl
      | pushSlots space range =>
        rcases code with _ | ⟨⟨op', s'⟩, code⟩
        · exact h.elim (P := fun rest =>
            foldImmediate? stack op ty count (⟨.pushSlots space range, s⟩ :: rest) = none)
            rfl (fun _ _ _ => rfl) fun _ _ _ _ => rfl
        · cases op' with
          | pushConstant n bits =>
            simp only [List.cons_append, foldImmediate?, (local_dropConstants stack ..).append h]
            split_ifs <;> rfl
          | _ => rfl
      | _ => rfl
  controls h := controls_of_fixed (fixed_foldImmediate h)

/-! ### Discarding -/

/-- Nothing is taken back when a label or branch comes last. -/
theorem discard_stops {count : Nat} (hcount : count ≠ 0) {rest : Code} (h : Stops rest) :
    discard stack count rest = ⟨.discard count, stack⟩ :: rest := by
  refine h.elim (P := fun rest => discard stack count rest = ⟨.discard count, stack⟩ :: rest)
    ?_ ?_ ?_
  · rw [discard, if_neg hcount]
  · intro l s tail
    rw [discard, if_neg hcount]
    simp [trimmable?, inPlace?]
  · intro c l s tail
    rw [discard, if_neg hcount]
    simp [trimmable?, inPlace?]

/-- Discarding takes back instructions on data only. -/
theorem local_discard (count : Nat) : Local (discard stack count) where
  append := by
    intro rest h code
    fun_induction discard stack count code with
    | case1 code => rw [discard.eq_def, if_pos rfl]
    | case2 count hc => exact discard_stops stack hc h
    | case9 count hc i code hs target distance hop hd code' hcode' htrim hplace ih =>
      have hstore := (local?_storeDirectly stack target).append h code
      rw [hcode', Option.map_some] at hstore
      rw [List.cons_append, discard.eq_def, if_neg hc]
      simp only [hs, if_false, hop, trimmable?, inPlace?, hd, and_self, if_true]
      split
      · rename_i code₁ hcode₁
        rw [hstore] at hcode₁
        cases hcode₁
        exact ih
      · rename_i hnone
        rw [hstore] at hnone
        cases hnone
    | case10 count hc i code hs target distance hop hd hcode' htrim hplace =>
      have hstore := (local?_storeDirectly stack target).append h code
      rw [hcode', Option.map_none] at hstore
      rw [List.cons_append, discard.eq_def, if_neg hc]
      simp only [hs, if_false, hop, trimmable?, inPlace?, hd, and_self, if_true]
      split
      · rename_i code₁ hcode₁
        rw [hstore] at hcode₁
        cases hcode₁
      · rfl
    | case11 count hc i code hs target distance hop hd htrim hplace =>
      rw [List.cons_append, discard.eq_def, if_neg hc]
      simp only [hs, if_false, hop, trimmable?, inPlace?, hd]
      rfl
    | _ =>
      rw [List.cons_append, discard.eq_def, if_neg (by assumption)]
      simp [*]
  controls code := controls_of_fixed (fixed_discard stack count code)

end Code

/-! ## Calls -/

namespace Builder

/-- A builder that has emitted other code before. -/
def onto (b : Builder) (rest : Code) : Builder := { b with code := b.code ++ rest }

/-- What is done to a builder depends only on what comes after the latest label or branch, and keeps
all of these. -/
structure Local (f : Builder → Builder) : Prop where
  onto : ∀ (b : Builder) {rest : Code}, rest.Stops → f (b.onto rest) = (f b).onto rest
  controls : ∀ b : Builder, (f b).code.controls = b.code.controls

namespace Local

theorem refl : Local fun b => b := ⟨fun _ _ _ => rfl, fun _ => rfl⟩

theorem comp {f g : Builder → Builder} (hg : Local g) (hf : Local f) : Local fun b => g (f b) where
  onto b rest h := by rw [hf.onto b h, hg.onto _ h]
  controls b := by rw [hg.controls, hf.controls]

/-- A rewrite of code is a local change of builders. -/
theorem of_code {g : Int → Code → Code} (h : ∀ stack, Code.Local (g stack)) :
    Local fun b => { b with code := g b.stack b.code } where
  onto b rest hrest := by
    simp only [Builder.onto, (h b.stack).append hrest]
  controls b := (h b.stack).controls b.code

theorem ite {f g : Builder → Builder} (c : Prop) [Decidable c] (hf : Local f) (hg : Local g) :
    Local fun b => if c then f b else g b := by
  by_cases h : c
  · simpa only [h, if_true] using hf
  · simpa only [h, if_false] using hg

theorem emit {op : Op} (h : op.isControl = false) : Local (·.emit op) :=
  ⟨fun _ _ _ => rfl, fun b => Code.controls_cons h b.code⟩

theorem emitCounted (count : Nat) {op : Op} (h : op.isControl = false) :
    Local (·.emitCounted count op) :=
  .ite (count = 0) refl (emit h)

theorem discard (count : Nat) : Local (·.discard count) :=
  of_code fun stack => Code.local_discard stack count

theorem copyToSlots (target : SlotRange) (distance : Nat) :
    Local (·.copyToSlots target distance) where
  onto b rest h := by
    have hmask : (b.onto rest).maskWritesEnabled = b.maskWritesEnabled := rfl
    rw [Builder.copyToSlots, Builder.copyToSlots, hmask]
    split
    · exact (emitCounted _ rfl).onto b h
    · exact (emitCounted _ rfl).onto b h
  controls b := Code.controls_of_fixed (b.fixed_copyToSlots target distance)

theorem binary (op : BinaryOp) (ty : NumType) (count : Nat) : Local (·.binary op ty count) where
  onto b rest h := by
    have hfold := (Code.local?_foldImmediate b.stack op (op.canonicalType ty) count).append h b.code
    simp only [Builder.binary, Builder.onto, hfold]
    split_ifs
    · rfl
    · cases b.code.foldImmediate? b.stack op (op.canonicalType ty) count <;> rfl
    · rfl
  controls b := Code.controls_of_fixed (b.fixed_binary op ty count)

theorem swizzle (consumed : Nat) (components : List Nat) :
    Local (·.swizzle consumed components) := by
  cases h : Code.trimIdentity consumed components with
  | mk consumed' components' =>
    cases components' with
    | nil =>
      simp only [Builder.swizzle, h]
      exact discard consumed'
    | cons first others =>
      simp only [Builder.swizzle, h]
      exact emit (Code.isControl_of_not_isFixed (Code.isFixed_selection ..))

theorem pushDuplicates (count : Nat) : Local (·.pushDuplicates count) := by
  induction count using Nat.strong_induction_on with
  | _ count ih =>
    by_cases h : count = 0
    · have hnone : (·.pushDuplicates count : Builder → Builder) = fun b => b := by
        funext b
        rw [Builder.pushDuplicates, if_pos h]
      rw [hnone]
      exact refl
    · have hstep : (·.pushDuplicates count : Builder → Builder) = fun b =>
          (b.swizzle 1 (List.replicate (min count 15 + 1) 0)).pushDuplicates
            (count - min count 15) := by
        funext b
        rw [Builder.pushDuplicates, if_neg h]
      rw [hstep]
      exact (ih _ (by omega)).comp (swizzle _ _)

end Local

end Builder

namespace Call

/-- The label or branch that a call adds: only one that is emitted as it is. -/
def control? : Call → Option Op
  | emit op => if op.isControl then some op else none
  | _ => none

/-- A call that adds no label or branch is local. -/
theorem local_apply {call : Call} (h : call.control? = none) : Builder.Local call.apply := by
  cases call with
  | setStack | enableMaskWrites | disableMaskWrites => exact ⟨fun _ _ _ => rfl, fun _ => rfl⟩
  | pushConstant bits count =>
    exact .ite (count = 0) .refl (.of_code fun stack => Code.local_pushConstant stack count bits)
  | pushSlots space range =>
    exact .ite (range.count = 0) .refl
      (.of_code fun stack => Code.local_pushSlots stack space range)
  | pushMask mask => exact .of_code fun stack => Code.local_pushMask stack mask
  | discard count => exact .discard count
  | copyToSlots target distance => exact .copyToSlots target distance
  | popSlots target => exact .comp (.discard target.count) (.copyToSlots target target.count)
  | popSlotsUnmasked target => exact .comp (.discard target.count) (.emitCounted _ rfl)
  | popSlotsIndirect fixed offsetStack limit => exact .comp (.discard fixed.count) (.emit rfl)
  | copySlotsUnmasked target source count =>
    exact .ite (count = 0) .refl
      (.of_code fun stack => Code.local_copySlots stack target source count)
  | zeroSlots range =>
    exact .ite (range.count = 0) .refl (.of_code fun stack => Code.local_zeroSlots stack range)
  | binary op ty count => exact .binary op ty count
  | swizzle consumed components => exact .swizzle consumed components
  | pushDuplicates count => exact .pushDuplicates count
  | pushClone | pushCloneFromStack | copyToSlotsUnmasked | copySlotsMasked | unary | ternary
  | select | traceVar => exact .emitCounted _ rfl
  | emit op =>
    refine .emit ?_
    simpa [control?] using h

/-- A call on top of code that ends with a label or branch leaves that code alone. -/
theorem apply_onto (call : Call) (b : Builder) {rest : Code} (h : rest.Stops) :
    call.apply (b.onto rest) = (call.apply b).onto rest := by
  cases hcontrol : call.control? with
  | none => exact (local_apply hcontrol).onto b h
  | some op =>
    cases call with
    | emit op => rfl
    | _ => cases hcontrol

/-- A call adds the label or branch that it stands for, and no other. -/
theorem controls_apply (call : Call) (b : Builder) :
    (call.apply b).code.controls = call.control?.toList ++ b.code.controls := by
  cases hcontrol : call.control? with
  | none => exact (local_apply hcontrol).controls b
  | some op =>
    cases call with
    | emit op' =>
      simp only [control?] at hcontrol
      split at hcontrol
      · rename_i hop
        cases hcontrol
        simp [apply, Builder.emit, Code.controls, hop]
      · cases hcontrol
    | _ => cases hcontrol

end Call

end RasterShader
