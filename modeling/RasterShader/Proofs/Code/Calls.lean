import Mathlib
import RasterShader.Proofs.Code.Peephole
import RasterShader.Proofs.Code.Running

/-!
# Calls of a builder keep their meaning

A `Call` is a call of a builder that has nothing to do with control flow. `Call.apply` makes the
call; `Call.append` only adds the instructions that the call stands for, and rewrites nothing.
Whatever calls are made one after the other, the two lists of instructions do the same
(`Call.improves_foldl`), and so do the pipelines they are finished to
(`Call.rewrites_keep_meaning`).

An invariant relates the two builders: they work on the same stack with the same masks, and the
code of the first improves that of the second.
-/

namespace RasterShader

variable {lanes : Nat}

/-! ## Calls -/

/-- Calls of a builder without branches and labels. -/
inductive Call where
  | setStack (stack : Int)
  | enableMaskWrites
  | disableMaskWrites
  | pushConstant (bits : UInt32) (count : Nat)
  | pushSlots (space : SlotSpace) (range : SlotRange)
  | pushClone (count distance : Nat)
  | pushCloneFromStack (count : Nat) (stack : Int) (distance : Nat)
  | pushMask (mask : Mask)
  | discard (count : Nat)
  | copyToSlots (target : SlotRange) (distance : Nat)
  | copyToSlotsUnmasked (target : SlotRange) (distance : Nat)
  | popSlots (target : SlotRange)
  | popSlotsUnmasked (target : SlotRange)
  | popSlotsIndirect (fixed : SlotRange) (offsetStack : Int) (limit : Nat)
  | copySlotsMasked (target source count : Nat)
  | copySlotsUnmasked (target source count : Nat)
  | zeroSlots (range : SlotRange)
  | unary (op : UnaryOp) (ty : NumType) (count : Nat)
  | binary (op : BinaryOp) (ty : NumType) (count : Nat)
  | ternary (op : TernaryOp) (ty : NumType) (count : Nat)
  | select (count : Nat)
  | swizzle (consumed : Nat) (components : List Nat)
  | pushDuplicates (count : Nat)
  | traceVar (range : SlotRange)
  /-- Any of the calls that emit one operation as it is. -/
  | emit (op : Op)

namespace Call

/-- Makes a call. -/
def apply (b : Builder) : Call → Builder
  | setStack stack => b.setStack stack
  | enableMaskWrites => b.enableMaskWrites
  | disableMaskWrites => b.disableMaskWrites
  | pushConstant bits count => b.pushConstant bits count
  | pushSlots space range => b.pushSlots space range
  | pushClone count distance => b.pushClone count distance
  | pushCloneFromStack count stack distance => b.pushCloneFromStack count stack distance
  | pushMask mask => b.pushMask mask
  | discard count => b.discard count
  | copyToSlots target distance => b.copyToSlots target distance
  | copyToSlotsUnmasked target distance => b.copyToSlotsUnmasked target distance
  | popSlots target => b.popSlots target
  | popSlotsUnmasked target => b.popSlotsUnmasked target
  | popSlotsIndirect fixed offsetStack limit => b.popSlotsIndirect fixed offsetStack limit
  | copySlotsMasked target source count => b.copySlotsMasked target source count
  | copySlotsUnmasked target source count => b.copySlotsUnmasked target source count
  | zeroSlots range => b.zeroSlots range
  | unary op ty count => b.unary op ty count
  | binary op ty count => b.binary op ty count
  | ternary op ty count => b.ternary op ty count
  | select count => b.select count
  | swizzle consumed components => b.swizzle consumed components
  | pushDuplicates count => b.pushDuplicates count
  | traceVar range => b.traceVar range
  | emit op => b.emit op

/-- An operation on `count` words, if there are any. -/
def counted (count : Nat) (op : Op) : List Op := if count = 0 then [] else [op]

/-- The swizzles that repeat a word `count` more times, each as often as it can. -/
def duplicates (count : Nat) : List Op :=
  if count = 0 then []
  else
    Code.selection 1 (List.replicate (min count 15 + 1) 0) :: duplicates (count - min count 15)
termination_by count

/-- The operations that a call stands for, where stores are masked or not. -/
def ops (masked : Bool) : Call → List Op
  | setStack _ | enableMaskWrites | disableMaskWrites => []
  | pushConstant bits count => counted count (.pushConstant count bits)
  | pushSlots space range => counted range.count (.pushSlots space range)
  | pushClone count distance => counted count (.pushClone count distance)
  | pushCloneFromStack count stack distance =>
    counted count (.pushCloneFromStack count stack distance)
  | pushMask mask => [.pushMask mask]
  | discard count => counted count (.discard count)
  | copyToSlots target distance => counted target.count (.copyToSlots masked target distance)
  | copyToSlotsUnmasked target distance =>
    counted target.count (.copyToSlots false target distance)
  | popSlots target =>
    counted target.count (.copyToSlots masked target target.count) ++
      counted target.count (.discard target.count)
  | popSlotsUnmasked target =>
    counted target.count (.copyToSlots false target target.count) ++
      counted target.count (.discard target.count)
  | popSlotsIndirect fixed offsetStack limit =>
    [.copyToIndirect fixed offsetStack limit fixed.count] ++
      counted fixed.count (.discard fixed.count)
  | copySlotsMasked target source count => counted count (.copySlots true target source count)
  | copySlotsUnmasked target source count => counted count (.copySlots false target source count)
  | zeroSlots range => counted range.count (.zeroSlots range)
  | unary op ty count => counted count (.unary op ty count)
  | binary op ty count => counted count (.binary op ty count)
  | ternary op ty count => counted count (.ternary op ty count)
  | select count => counted count (.select count)
  | swizzle consumed components => [Code.selection consumed components]
  | pushDuplicates count => duplicates count
  | traceVar range => counted range.count (.trace (.var range))
  | emit op => [op]

/-- Adds operations on the current stack, and rewrites nothing. -/
def addAll (b : Builder) (ops : List Op) : Builder := ops.foldl Builder.emit b

/-- Adds the operations of a call, and rewrites nothing. -/
def append (b : Builder) (call : Call) : Builder :=
  match call with
  | setStack stack => b.setStack stack
  | enableMaskWrites => b.enableMaskWrites
  | disableMaskWrites => b.disableMaskWrites
  | call => addAll b (call.ops b.maskWritesEnabled)

/-- An operation on data: no pad, label or branch. -/
def isData : Op → Bool
  | .pad _ | .label _ | .branch .. => false
  | _ => true

/-- The components of a swizzle are among the words that it consumes and fit into packed words; and
operations that are emitted as they are work on data. -/
def Admissible : Call → Prop
  | swizzle consumed components =>
    (∀ c ∈ components, c < consumed ∧ c < 16) ∧ components.length ≤ 16
  | emit op => isData op = true
  | _ => True

/-- The instructions after calls, with all rewrites. -/
def build (calls : List Call) : Builder := calls.foldl apply .empty

/-- The instructions that calls stand for, one after the other. -/
def spell (calls : List Call) : Builder := calls.foldl append .empty

/-! ## Added operations -/

theorem addAll_append (b : Builder) (first rest : List Op) :
    addAll b (first ++ rest) = addAll (addAll b first) rest := List.foldl_append ..

theorem of_isData {op : Op} (h : isData op = true) :
    op.branchTarget? = none ∧ (∀ label, op ≠ .label label) ∧ ∀ count, op ≠ .pad count := by
  cases op with
  | pad | label | branch => cases h
  | _ => exact ⟨rfl, by simp, by simp⟩

/-- One builder works on the same stack as another, with the same masks and labels, and its code
improves that of the other. -/
structure Follows (valueSlots : Nat) (b c : Builder) : Prop where
  stack : b.stack = c.stack
  maskDepth : b.maskDepth = c.maskDepth
  labelCount : b.labelCount = c.labelCount
  code : Code.Improves valueSlots b.code c.code

namespace Follows

variable {valueSlots : Nat} {b c d : Builder}

theorem refl (b : Builder) : Follows valueSlots b b := ⟨rfl, rfl, rfl, Code.Improves.refl _⟩

theorem of_eq (h : b = c) : Follows valueSlots b c := h ▸ refl b

theorem trans (h : Follows valueSlots b c) (h' : Follows valueSlots c d) :
    Follows valueSlots b d :=
  ⟨h.stack.trans h'.stack, h.maskDepth.trans h'.maskDepth, h.labelCount.trans h'.labelCount,
    h.code.trans h'.code⟩

/-- New code on the same stack. -/
theorem of_code {code code' : Code} (h : Code.Improves valueSlots code code') :
    Follows valueSlots { b with code := code } { b with code := code' } := ⟨rfl, rfl, rfl, h⟩

theorem addAll (h : Follows valueSlots b c) {ops : List Op} (hops : ∀ op ∈ ops, ∀ n, op ≠ .pad n) :
    Follows valueSlots (addAll b ops) (addAll c ops) := by
  induction ops generalizing b c with
  | nil => exact h
  | cons op ops ih =>
    simp only [List.mem_cons, forall_eq_or_imp] at hops
    refine ih ⟨h.stack, h.maskDepth, h.labelCount, ?_⟩ hops.2
    rw [Builder.emit, Builder.emit, h.stack]
    exact h.code.cons hops.1

end Follows

/-! ## One call -/

variable {valueSlots : Nat}

theorem emitCounted_eq (b : Builder) (count : Nat) (op : Op) :
    b.emitCounted count op = addAll b (counted count op) := by
  rw [Builder.emitCounted, counted]
  split <;> rfl

theorem copyToSlots_eq (b : Builder) (target : SlotRange) (distance : Nat) :
    b.copyToSlots target distance =
      addAll b (counted target.count (.copyToSlots b.maskWritesEnabled target distance)) := by
  rw [Builder.copyToSlots, Builder.copyToSlotsUnmasked]
  split
  · rename_i h
    rw [emitCounted_eq, h]
  · rename_i h
    rw [emitCounted_eq, Bool.eq_false_iff.2 h]

/-- A call on `count` words that puts other code in place of an added operation. -/
theorem follows_counted (b : Builder) (count : Nat) {op : Op} {code : Code}
    (h : Code.Improves valueSlots code (⟨op, b.stack⟩ :: b.code)) :
    Follows valueSlots (if count = 0 then b else { b with code := code })
      (addAll b (counted count op)) := by
  rw [counted]
  split
  · exact Follows.refl b
  · exact ⟨rfl, rfl, rfl, h⟩

theorem follows_discard (b : Builder) (count : Nat) :
    Follows valueSlots (b.discard count) (addAll b (counted count (.discard count))) := by
  rw [counted]
  split
  · rename_i h
    subst h
    have hcode : Code.discard b.stack 0 b.code = b.code := by rw [Code.discard.eq_def, if_pos rfl]
    refine Follows.of_eq ?_
    rw [Builder.discard, hcode]
    rfl
  · exact ⟨rfl, rfl, rfl, Code.improves_discard count b.code⟩

theorem follows_binary (b : Builder) (op : BinaryOp) (ty : NumType) (count : Nat) :
    Follows valueSlots (b.binary op ty count) (addAll b (counted count (.binary op ty count))) := by
  have hty : Code.Improves valueSlots (⟨.binary op (op.canonicalType ty) count, b.stack⟩ :: b.code)
      (⟨.binary op ty count, b.stack⟩ :: b.code) := by
    refine Code.improves_front (a := [⟨.binary op (op.canonicalType ty) count, b.stack⟩])
      (b := [⟨.binary op ty count, b.stack⟩]) (Code.plain_singleton (by simp) rfl rfl)
      (Code.plain_singleton (by simp) rfl rfl) (fun _ => rfl) ?_
    rintro ⟨valid, hstack, finds, -⟩
    refine ⟨⟨valid, hstack, finds, by simp⟩, ?_⟩
    intro lanes host batch τ _
    have heval : op.eval (op.canonicalType ty) = op.eval ty := by
      funext x y
      exact BinaryOp.eval_canonicalType op ty x y
    simp only [Code.execs, Op.exec, heval]
  rw [Builder.binary, counted]
  split
  · exact Follows.refl b
  · split
    · rename_i code hfold
      split at hfold
      · exact ⟨rfl, rfl, rfl, (Code.improves_foldImmediate hfold).trans hty⟩
      · cases hfold
    · exact ⟨rfl, rfl, rfl, hty⟩

theorem follows_swizzle (b : Builder) {consumed : Nat} {components : List Nat}
    (hlt : ∀ c ∈ components, c < consumed ∧ c < 16) (hlen : components.length ≤ 16) :
    Follows valueSlots (b.swizzle consumed components)
      (addAll b [Code.selection consumed components]) := by
  have improves : Code.Improves valueSlots
      (⟨Code.selection (Code.trimIdentity consumed components).1
        (Code.trimIdentity consumed components).2, b.stack⟩ :: b.code)
      (⟨Code.selection consumed components, b.stack⟩ :: b.code) :=
    Code.improves_trimIdentity hlt hlen b.code
  rw [Builder.swizzle]
  split
  · rename_i k heq
    rw [heq] at improves
    refine ⟨rfl, rfl, rfl, ?_⟩
    exact (Code.improves_discard k b.code).trans
      ((Code.improves_selection_nil k b.code).trans improves)
  · rename_i k cs _ heq
    rw [heq] at improves
    exact ⟨rfl, rfl, rfl, improves⟩

theorem isData_selection (consumed : Nat) (components : List Nat) :
    isData (Code.selection consumed components) = true := by
  fun_cases Code.selection consumed components <;> rfl

theorem isData_of_mem_duplicates {count : Nat} : ∀ op ∈ duplicates count, isData op = true := by
  induction count using Nat.strong_induction_on with
  | _ count ih =>
    rw [duplicates]
    split
    · simp
    · simp only [List.mem_cons, forall_eq_or_imp]
      exact ⟨isData_selection _ _, ih _ (by omega)⟩

theorem follows_pushDuplicates (b : Builder) (count : Nat) :
    Follows valueSlots (b.pushDuplicates count) (addAll b (duplicates count)) := by
  induction count using Nat.strong_induction_on generalizing b with
  | _ count ih =>
    rw [Builder.pushDuplicates, duplicates]
    split
    · exact Follows.refl b
    · refine (ih _ (by omega) _).trans ?_
      refine Follows.addAll (follows_swizzle b ?_ ?_) ?_
      · intro c hc
        obtain rfl := List.eq_of_mem_replicate hc
        omega
      · rw [List.length_replicate]
        omega
      · exact fun op hop => (of_isData (isData_of_mem_duplicates op hop)).2.2

/-- A call follows the operations that it stands for. -/
theorem follows_apply (b : Builder) {call : Call} (h : call.Admissible) :
    Follows valueSlots (call.apply b) (call.append b) := by
  cases call with
  | setStack | enableMaskWrites | disableMaskWrites | emit => exact Follows.refl _
  | pushConstant bits count =>
    exact follows_counted b count (Code.improves_pushConstant count bits b.code)
  | pushSlots space range =>
    exact follows_counted b range.count (Code.improves_pushSlots space range b.code)
  | pushMask mask => exact ⟨rfl, rfl, rfl, Code.improves_pushMask mask b.code⟩
  | discard count => exact follows_discard b count
  | copyToSlots target distance => exact Follows.of_eq (copyToSlots_eq b target distance)
  | popSlots target =>
    refine (follows_discard _ _).trans (Follows.of_eq ?_)
    rw [copyToSlots_eq]
    exact (addAll_append ..).symm
  | popSlotsUnmasked target =>
    refine (follows_discard _ _).trans (Follows.of_eq ?_)
    rw [Builder.copyToSlotsUnmasked, emitCounted_eq]
    exact (addAll_append ..).symm
  | popSlotsIndirect fixed offsetStack limit => exact follows_discard _ _
  | copySlotsUnmasked target source count =>
    exact follows_counted b count (Code.improves_copySlots target source count b.code)
  | zeroSlots range => exact follows_counted b range.count (Code.improves_zeroSlots range b.code)
  | binary op ty count => exact follows_binary b op ty count
  | swizzle consumed components => exact follows_swizzle b h.1 h.2
  | pushDuplicates count => exact follows_pushDuplicates b count
  | pushClone | pushCloneFromStack | copyToSlotsUnmasked | copySlotsMasked | unary | ternary
  | select | traceVar => exact Follows.of_eq (emitCounted_eq ..)

theorem isData_of_mem_counted {count : Nat} {op : Op} (h : isData op = true) :
    ∀ op' ∈ counted count op, isData op' = true := by
  rw [counted]
  split
  · simp
  · simpa using h

/-- Calls stand for operations on data. -/
theorem isData_of_mem_ops {call : Call} (h : call.Admissible) (masked : Bool) :
    ∀ op ∈ call.ops masked, isData op = true := by
  cases call with
  | setStack | enableMaskWrites | disableMaskWrites => simp [ops]
  | pushMask => simp [ops, isData]
  | emit op => simpa [ops, Admissible] using h
  | popSlots | popSlotsUnmasked | popSlotsIndirect =>
    intro op hop
    rcases List.mem_append.1 hop with hop | hop
    · first
      | exact isData_of_mem_counted rfl op hop
      | (obtain rfl := List.mem_singleton.1 hop; rfl)
    · exact isData_of_mem_counted rfl op hop
  | swizzle consumed components => simpa [ops] using isData_selection consumed components
  | pushDuplicates count => exact isData_of_mem_duplicates
  | _ => exact isData_of_mem_counted rfl

/-- Operations that are added after a call was made follow those that are added after the operations
that it stands for. -/
theorem follows_append {b c : Builder} (h : Follows valueSlots b c) {call : Call}
    (hcall : call.Admissible) : Follows valueSlots (call.append b) (call.append c) := by
  have hmasked : b.maskWritesEnabled = c.maskWritesEnabled := by
    rw [Builder.maskWritesEnabled, Builder.maskWritesEnabled, h.maskDepth]
  have hadd : Follows valueSlots (addAll b (call.ops b.maskWritesEnabled))
      (addAll c (call.ops c.maskWritesEnabled)) := by
    rw [hmasked]
    exact h.addAll fun op hop => (of_isData (isData_of_mem_ops hcall _ op hop)).2.2
  cases call with
  | setStack stack => exact ⟨rfl, h.maskDepth, h.labelCount, h.code⟩
  | enableMaskWrites => exact ⟨h.stack, congrArg (· + 1) h.maskDepth, h.labelCount, h.code⟩
  | disableMaskWrites => exact ⟨h.stack, congrArg (· - 1) h.maskDepth, h.labelCount, h.code⟩
  | _ => exact hadd

/-! ## All calls -/

/-- Whatever calls are made, the code follows the operations that they stand for. -/
theorem follows_foldl {calls : List Call} (h : ∀ call ∈ calls, call.Admissible) {b c : Builder}
    (follows : Follows valueSlots b c) :
    Follows valueSlots (calls.foldl apply b) (calls.foldl append c) := by
  induction calls generalizing b c with
  | nil => exact follows
  | cons call calls ih =>
    simp only [List.mem_cons, forall_eq_or_imp] at h
    exact ih h.2 ((follows_apply b h.1).trans (follows_append follows h.1))

/-- Calls stand for instructions on data. -/
theorem isData_of_mem_spell {calls : List Call} (h : ∀ call ∈ calls, call.Admissible) :
    ∀ i ∈ (spell calls).code, isData i.op = true := by
  have add : ∀ (ops : List Op) (b : Builder), (∀ i ∈ b.code, isData i.op = true) →
      (∀ op ∈ ops, isData op = true) → ∀ i ∈ (addAll b ops).code, isData i.op = true := by
    intro ops
    induction ops with
    | nil => exact fun b hb _ => hb
    | cons op ops ih =>
      intro b hb hops
      simp only [List.mem_cons, forall_eq_or_imp] at hops
      refine ih (b.emit op) ?_ hops.2
      simp only [Builder.emit, List.mem_cons, forall_eq_or_imp]
      exact ⟨hops.1, hb⟩
  have fold : ∀ (calls : List Call) (b : Builder), (∀ call ∈ calls, call.Admissible) →
      (∀ i ∈ b.code, isData i.op = true) →
      ∀ i ∈ (calls.foldl append b).code, isData i.op = true := by
    intro calls
    induction calls with
    | nil => exact fun b _ hb => hb
    | cons call calls ih =>
      intro b h hb
      simp only [List.mem_cons, forall_eq_or_imp] at h
      refine ih (call.append b) h.2 ?_
      cases call with
      | setStack | enableMaskWrites | disableMaskWrites => exact hb
      | _ => exact add _ b hb (isData_of_mem_ops h.1 _)
  exact fold calls .empty h (by simp [Builder.empty])

end Call

/-- Code with the same fixed operations is free of branches and labels alike. -/
theorem Code.straight_of_fixed {c d : Code} (h : fixed c = fixed d)
    (straight : ∀ i ∈ d, i.op.branchTarget? = none ∧ ∀ label, i.op ≠ .label label) :
    ∀ i ∈ c, i.op.branchTarget? = none ∧ ∀ label, i.op ≠ .label label := by
  intro i hi
  by_cases hfixed : isFixed i.op = true
  · have hmem : i.op ∈ fixed d := by
      rw [← h]
      exact List.mem_filter.2 ⟨List.mem_map_of_mem hi, hfixed⟩
    obtain ⟨j, hj, hop⟩ := List.mem_map.1 (List.mem_filter.1 hmem).1
    rw [← hop]
    exact straight j hj
  · obtain ⟨op, s⟩ := i
    cases op with
    | label | branch => simp [isFixed] at hfixed
    | _ => exact ⟨rfl, by simp⟩

/-- A pipeline has the instructions of a builder, with given numbers of slots, and room enough for
the stacks. -/
structure Pipeline.Holds (p : Pipeline) (b : Builder) (valueSlots immutableSlots : Nat) : Prop where
  instructions : p.instructions = b.instructions
  valueSlots : p.valueSlots = valueSlots
  immutableSlots : p.immutableSlots = immutableSlots
  fits : p.Fits

theorem Pipeline.Holds.of_ofBuilder {b : Builder} {valueSlots uniformSlots immutableSlots : Nat}
    {debugTrace : Option DebugTrace} {p : Pipeline}
    (h : Pipeline.ofBuilder b valueSlots uniformSlots immutableSlots debugTrace = .ok p) :
    p.Holds b valueSlots immutableSlots := by
  obtain ⟨fits, hinstructions, hvalue⟩ := Pipeline.fits_of_ofInstructions h
  refine ⟨hinstructions, hvalue, ?_, fits⟩
  simp only [Pipeline.ofBuilder, Pipeline.ofInstructions, bind, Except.bind, pure,
    Except.pure] at h
  split at h
  · cases h
  · split at h
    · cases h
    · cases h
      rfl

namespace Call

variable {valueSlots : Nat} {calls : List Call}

theorem valid_spell (admissible : ∀ call ∈ calls, call.Admissible)
    (finds : AllFind valueSlots (spell calls).instructions)
    (stack : ∀ i ∈ (spell calls).instructions, 0 ≤ i.stack) :
    Code.Valid valueSlots (spell calls).code :=
  Code.Valid.of_allFind finds (fun i hi => stack i (List.mem_reverse.2 hi))
    fun i hi => (of_isData (isData_of_mem_spell admissible i hi)).2.2

/-- The instructions that a builder holds after calls do what the calls stand for, operation by
operation.  If the latter can be finished, so can the former; and pipelines of the two, with room
enough for the stacks, are lowered with the same immutable words to stages that lead to the same
value slots, registers, masks and events, and to the same words on all stacks. -/
theorem rewrites_keep_meaning (admissible : ∀ call ∈ calls, call.Admissible)
    (finds : AllFind valueSlots (spell calls).instructions) :
    (∀ uniformSlots immutableSlots debugTrace q,
      Pipeline.ofBuilder (spell calls) valueSlots uniformSlots immutableSlots debugTrace = .ok q →
      ∃ p, Pipeline.ofBuilder (build calls) valueSlots uniformSlots immutableSlots debugTrace =
        .ok p ∧ p.Holds (build calls) valueSlots immutableSlots ∧
        q.Holds (spell calls) valueSlots immutableSlots) ∧
    ∀ immutableSlots (p q : Pipeline), p.Holds (build calls) valueSlots immutableSlots →
      q.Holds (spell calls) valueSlots immutableSlots →
      ∀ host tailCalls, Host.OwnStages host → ∀ spelled, q.lower host tailCalls = .ok spelled →
      ∃ built, p.lower host tailCalls = .ok built ∧ built.immutable = spelled.immutable ∧
        ∀ {lanes : Nat} (batch : Batch lanes) (m n : Machine lanes) (σ : StackMachine lanes),
          LaidOut p m σ → LaidOut q n σ → (∀ s, σ.stack s = []) →
          ∀ fuel, built.stages.size ≤ fuel → spelled.stages.size ≤ fuel →
          ∃ τ e,
            (Machine.runFrom built.stages batch fuel 0 m).2 = e ∧
            LaidOut p (Machine.runFrom built.stages batch fuel 0 m).1 τ ∧
            (Machine.runFrom spelled.stages batch fuel 0 n).2 = e ∧
            LaidOut q (Machine.runFrom spelled.stages batch fuel 0 n).1 τ ∧
            (e = none → τ.depth = stackDepth (spell calls).instructions) := by
  have follows : Follows valueSlots (build calls) (spell calls) :=
    follows_foldl admissible (Follows.refl _)
  have straight : ∀ i ∈ (spell calls).code,
      i.op.branchTarget? = none ∧ ∀ label, i.op ≠ .label label := fun i hi =>
    have h := of_isData (isData_of_mem_spell admissible i hi)
    ⟨h.1, h.2.1⟩
  refine ⟨?_, ?_⟩
  · intro uniformSlots immutableSlots debugTrace q hq
    have holdsq := Pipeline.Holds.of_ofBuilder hq
    have valid := valid_spell admissible finds
      (by rw [← holdsq.instructions]; exact holdsq.fits.nonneg)
    obtain ⟨valid', same⟩ := follows.code valid
    have hempty := (valid.ofInstructions_eq_ok uniformSlots immutableSlots
      (spell calls).labelCount debugTrace).1 ⟨q, hq⟩
    obtain ⟨p, hp⟩ := (valid'.ofInstructions_eq_ok uniformSlots immutableSlots
      (build calls).labelCount debugTrace).2 (by rw [same.depth]; exact hempty)
    exact ⟨p, hp, Pipeline.Holds.of_ofBuilder hp, holdsq⟩
  · intro immutableSlots p q holdsp holdsq host tailCalls own spelled hspelled
    have valid := valid_spell admissible finds
      (by rw [← holdsq.instructions]; exact holdsq.fits.nonneg)
    obtain ⟨valid', same⟩ := follows.code valid
    have straight' := Code.straight_of_fixed same.fixed straight
    have himmutable : p.immutableSlots = q.immutableSlots := by
      rw [holdsp.immutableSlots, holdsq.immutableSlots]
    obtain ⟨hokp, hrunp⟩ := Code.runFrom_lowered tailCalls holdsp.fits holdsp.instructions
      (by rw [holdsp.valueSlots]; exact valid') straight' own
    obtain ⟨hokq, hrunq⟩ := Code.runFrom_lowered tailCalls holdsq.fits holdsq.instructions
      (by rw [holdsq.valueSlots]; exact valid) straight own
    have haccepted : ∀ op ∈ Code.fixed (build calls).code, op.Accepted p host := by
      rw [same.fixed]
      exact fun op hop => (hokq.1 ⟨spelled, hspelled⟩ op hop).of_immutableSlots himmutable
    obtain ⟨built, hbuilt⟩ := hokp.2 haccepted
    obtain ⟨hwordsp, hrunp⟩ := hrunp built hbuilt
    obtain ⟨hwordsq, hrunq⟩ := hrunq spelled hspelled
    refine ⟨built, hbuilt, by rw [hwordsp, hwordsq, same.fixed, himmutable], ?_⟩
    intro lanes batch m n σ laym layn empty fuel hfuelp hfuelq
    obtain ⟨herrorp, layp⟩ := hrunp batch laym empty hfuelp
    obtain ⟨herrorq, layq⟩ := hrunq batch layn empty hfuelq
    rw [same.outcome (Host.effect host) batch σ empty] at herrorp layp
    refine ⟨_, _, herrorp, layp, herrorq, layq, ?_⟩
    intro hnone
    rw [Code.depth_outcome valid empty (Prod.ext rfl hnone)]
    funext s
    exact (stackDepth_reverse _ s).symm

/-- Adds to a slot.  All that is left of the calls is one operation on the slot. -/
def increment : List Call :=
  [.pushSlots .value ⟨0, 1⟩, .pushConstant 5 1, .binary .add .int 1, .popSlotsUnmasked ⟨0, 1⟩]

theorem rewrites_keep_meaning_increment :
    (∀ call ∈ increment, call.Admissible) ∧ AllFind 1 (spell increment).instructions ∧
      (build increment).instructions = [⟨.binaryImm .add .int 1 5 (some 0), 0⟩] ∧
      ∃ p q built spelled, Pipeline.ofBuilder (build increment) 1 0 0 none = .ok p ∧
        Pipeline.ofBuilder (spell increment) 1 0 0 none = .ok q ∧
        p.lower none false = .ok built ∧ q.lower none false = .ok spelled ∧
        ∀ (batch : Batch 4) (m n : Machine 4) (σ : StackMachine 4), LaidOut p m σ → LaidOut q n σ →
          (∀ s, σ.stack s = []) → ∃ τ e,
            (Machine.runFrom built.stages batch (built.stages.size + 4) 0 m).2 = e ∧
            LaidOut p (Machine.runFrom built.stages batch (built.stages.size + 4) 0 m).1 τ ∧
            (Machine.runFrom spelled.stages batch (built.stages.size + 4) 0 n).2 = e ∧
            LaidOut q (Machine.runFrom spelled.stages batch (built.stages.size + 4) 0 n).1 τ := by
  have admissible : ∀ call ∈ increment, call.Admissible := by simp [increment, Admissible]
  have finds : AllFind 1 (spell increment).instructions := by decide +kernel
  have own : Host.OwnStages none := by
    intro call stages h
    cases call <;> cases h
  obtain ⟨finish, run⟩ := rewrites_keep_meaning admissible finds
  obtain ⟨q, hq⟩ : ∃ q, Pipeline.ofBuilder (spell increment) 1 0 0 none = .ok q := ⟨_, rfl⟩
  obtain ⟨p, hp, holdsp, holdsq⟩ := finish 0 0 none q hq
  obtain ⟨spelled, hspelled, hsize⟩ : ∃ spelled, q.lower none false = .ok spelled ∧
      spelled.stages.size = 4 := by
    cases hq
    exact ⟨_, rfl, rfl⟩
  obtain ⟨built, hbuilt, -, sim⟩ := run 0 p q holdsp holdsq none false own spelled hspelled
  refine ⟨admissible, finds, by decide +kernel, p, q, built, spelled, hp, hq, hbuilt, hspelled, ?_⟩
  intro batch m n σ laym layn empty
  obtain ⟨τ, e, herrorp, layp, herrorq, layq, -⟩ :=
    sim batch m n σ laym layn empty (built.stages.size + 4) (by omega) (by omega)
  exact ⟨τ, e, herrorp, layp, herrorq, layq⟩

/-- The color of one pixel after the instructions of a builder without slots. -/
def colorOf (b : Builder) : Option (Rgba UInt32) := do
  let p ← (Pipeline.ofBuilder b 0 0 0 none).toOption
  let output ← (p.evaluate 1 none [] [.zero]).toOption
  output.colors.head?

/-- Chooses the first and the last of seventeen words, of which packed components cannot tell the
last from the first. -/
def seventeenWords : List Call :=
  [.pushConstant 7 16, .pushConstant 9 1, .swizzle 17 [0, 16], .pushConstant 0 2,
    .emit (.popColor .src)]

/-- Reads, through a slot that is no value slot, the word that an operand has left above the top. -/
def readAboveTop : List Call :=
  [.pushConstant 3 1, .pushConstant 5 1, .binary .add .int 1, .pushSlots .value ⟨1, 1⟩,
    .pushConstant 0 2, .emit (.popColor .src)]

/-- Rewrites show where components do not fit into packed words, and where slots are read that are
no value slots. -/
theorem rewrites_show_beyond_words_and_slots :
    (AllFind 0 (spell seventeenWords).instructions ∧
      colorOf (build seventeenWords) = some ⟨7, 9, 0, 0⟩ ∧
      colorOf (spell seventeenWords) = some ⟨7, 7, 0, 0⟩) ∧
    AllFind 2 (spell readAboveTop).instructions ∧
      colorOf (build readAboveTop) = some ⟨8, 0, 0, 0⟩ ∧
      colorOf (spell readAboveTop) = some ⟨8, 5, 0, 0⟩ := by
  refine ⟨⟨?_, ?_, ?_⟩, ?_, ?_, ?_⟩ <;> decide +kernel

end Call

end RasterShader
