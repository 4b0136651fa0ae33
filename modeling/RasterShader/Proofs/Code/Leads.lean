import Mathlib
import RasterShader.Proofs.Code.Calls

/-!
# States that the code of a builder leads to

`Builder.Leads` says that the code of a builder is valid and leads, on a memory of value slots with
all stacks empty, to a given state of the stacks and the memory.  Each call of the builder takes
such a state to the next one, whatever it makes of the code that is there already (`Leads.counted`):
calls follow the operations that they stand for.

`Op.Takes` says that operations on one stack run to their end from one state of the stack machine
and lead to another; code that they are added to leads there too (`Leads.addAll`).

The lemmas about single calls are stated for words on top of a stack.  A call replaces those words
and leaves what is below them alone.  Words that are the same in all lanes (`Words.alike`) are
computed with as if there were one lane.
-/

namespace RasterShader

variable {lanes : Nat}

/-! ## Words that are the same in all lanes -/

namespace Words

/-- Words of which every lane has the same. -/
def alike (words : List UInt32) : List (Vector UInt32 lanes) := words.map (Vector.replicate lanes)

@[simp] theorem length_alike (words : List UInt32) :
    (alike words : List (Vector UInt32 lanes)).length = words.length := List.length_map ..

@[simp] theorem alike_append (words more : List UInt32) :
    (alike (words ++ more) : List (Vector UInt32 lanes)) = alike words ++ alike more :=
  List.map_append ..

theorem alike_replicate (count : Nat) (word : UInt32) :
    (alike (List.replicate count word) : List (Vector UInt32 lanes)) =
      List.replicate count (Vector.replicate lanes word) := List.map_replicate ..

theorem alike_injective (words more : List UInt32) (hlanes : 0 < lanes)
    (h : (alike words : List (Vector UInt32 lanes)) = alike more) : words = more := by
  refine List.map_injective_iff.2 (fun x y hxy => ?_) h
  have := congrArg (·[0]) hxy
  simpa using this

theorem getD_alike (words : List UInt32) (i : Nat) :
    (alike words : List (Vector UInt32 lanes)).getD i (Vector.replicate lanes 0) =
      Vector.replicate lanes (words.getD i 0) := by
  simp only [alike, List.getD_eq_getElem?_getD, List.getElem?_map]
  cases words[i]? <;> rfl

theorem map_alike (f : UInt32 → UInt32) (words : List UInt32) :
    (alike words : List (Vector UInt32 lanes)).map (Vector.map f) = alike (words.map f) := by
  simp [alike, Function.comp_def]

theorem combine_alike (f : UInt32 → UInt32 → UInt32) {xs : List UInt32} {n : Nat}
    (hn : xs.length = n) (ys : List UInt32) :
    combine n (Vector.zipWith f) (alike (xs ++ ys) : List (Vector UInt32 lanes)) =
      alike (List.zipWith f xs ys) := by
  have hlen : (alike xs : List (Vector UInt32 lanes)).length = n := by rw [length_alike, hn]
  rw [combine, alike_append, List.take_left' hlen, List.drop_left' hlen]
  simp only [alike, List.zipWith_map, List.map_zipWith]
  congr 1
  funext x y
  ext i hi
  simp

theorem choose_alike (components : List Nat) (words : List UInt32) :
    choose components (alike words : List (Vector UInt32 lanes)) =
      alike (components.map fun c => words.getD c 0) := by
  simp only [choose, getD_alike]
  simp [alike, Function.comp_def]

theorem mapLanes_alike (f : Array UInt32 → Array UInt32) (words : List UInt32) {produced : Nat}
    (h : (f words.toArray).size = produced) :
    mapLanes produced f (alike words : List (Vector UInt32 lanes)) =
      alike (f words.toArray).toList := by
  have hlane : (Vector.ofFn fun lane : Fin lanes =>
      f ((alike words : List (Vector UInt32 lanes)).map (·.get lane)).toArray) =
      Vector.replicate lanes (f words.toArray) := by
    apply Vector.ext
    intro i hi
    simp [alike, Function.comp_def, Vector.get]
  subst h
  simp only [mapLanes, hlane]
  apply List.ext_getElem
  · simp
  · intro i hi hi'
    simp only [List.length_map, List.length_range] at hi
    simp [alike, hi]

end Words

/-- Telling the values of slots only adds events. -/
theorem Machine.exists_apply_trace_var (m : Machine lanes) (batch : Batch lanes) (range : SlotRange) :
    ∃ trace, m.apply batch (.trace (.var range)) = { m with trace } := by
  simp only [apply]
  generalize range.count = n
  induction n with
  | zero => exact ⟨_, rfl⟩
  | succ n ih =>
    obtain ⟨trace, ih⟩ := ih
    rw [forEach_succ, ih, record]
    split <;> exact ⟨_, rfl⟩

theorem Matrix.size_build (shape : Shape) (f : Nat → Nat → UInt32) :
    (build shape f).size = shape.size := by
  simp [build, Shape.size]

namespace StackMachine

theorem length_le_depth_push (σ : StackMachine lanes) (s : Int)
    (ws : List (Vector UInt32 lanes)) : (ws.length : Int) ≤ (σ.push s ws).depth s := by
  rw [depth_push, if_pos rfl]
  exact le_add_of_nonneg_left (Int.natCast_nonneg _)

@[simp] theorem push_nil (σ : StackMachine lanes) (s : Int) : σ.push s [] = σ :=
  σ.replace_zero_nil s

/-- An operation on all of the words that were just pushed. -/
theorem transform_push_self (σ : StackMachine lanes) (s : Int) {n : Nat}
    {ws : List (Vector UInt32 lanes)} (hn : ws.length = n)
    (f : List (Vector UInt32 lanes) → List (Vector UInt32 lanes)) :
    (σ.push s ws).transform s n f = σ.push s (f ws) := by
  rw [σ.transform_push s f (n := 0) (by omega) (Nat.zero_le _)]
  simp [peek, push]

/-- Words among those that were just pushed. -/
theorem peek_push_of_le (σ : StackMachine lanes) (s : Int) {distance : Nat}
    {ws : List (Vector UInt32 lanes)} (h : distance ≤ ws.length) (count : Nat) :
    (σ.push s ws).peek s distance count = (ws.drop (ws.length - distance)).take count := by
  simp only [peek, push, replace, Function.update_self, Nat.sub_zero, List.take_length,
    List.length_append]
  rw [Nat.add_sub_assoc h, List.drop_append, List.drop_eq_nil_of_le (by omega), List.nil_append]
  congr 2
  omega

end StackMachine

/-! ## Operations one after the other -/

/-- Operations on a stack, none of which fails, that find the words they read and keep the number of
value slots, lead from one state to another. -/
def Op.Takes (host : HostCall → Registers lanes → Registers lanes) (batch : Batch lanes)
    (valueSlots : Nat) (s : Int) : List Op → StackMachine lanes → StackMachine lanes → Prop
  | [], σ, τ => σ = τ
  | op :: ops, σ, τ =>
    op.fault? = none ∧ op.Finds valueSlots σ.depth s ∧
      (op.exec host batch s σ).memory.values.size = σ.memory.values.size ∧
      Takes host batch valueSlots s ops (op.exec host batch s σ) τ

namespace Op.Takes

variable {host : HostCall → Registers lanes → Registers lanes} {batch : Batch lanes}
  {valueSlots : Nat} {s : Int} {ops more : List Op} {σ τ υ : StackMachine lanes}

theorem append (h : Takes host batch valueSlots s ops σ τ)
    (h' : Takes host batch valueSlots s more τ υ) :
    Takes host batch valueSlots s (ops ++ more) σ υ := by
  induction ops generalizing σ with
  | nil =>
    obtain rfl : σ = τ := h
    exact h'
  | cons op ops ih =>
    obtain ⟨fault, finds, size, rest⟩ := h
    exact ⟨fault, finds, size, ih rest⟩

/-- An operation on `count` words, if there are any. -/
theorem counted {op : Op} (count : Nat) (fault : op.fault? = none)
    (finds : op.Finds valueSlots σ.depth s) (hexec : op.exec host batch s σ = τ)
    (hzero : count = 0 → σ = τ) (hsize : τ.memory.values.size = σ.memory.values.size) :
    Takes host batch valueSlots s (Call.counted count op) σ τ := by
  rw [Call.counted]
  split
  · rename_i hcount
    exact hzero hcount
  · exact ⟨fault, finds, hexec ▸ hsize, hexec⟩

/-- Words on top are dropped. -/
theorem discard (σ : StackMachine lanes) (us vs : List (Vector UInt32 lanes)) {n : Nat}
    (h : vs.length = n) :
    Takes host batch valueSlots s (Call.counted n (.discard n)) (σ.push s (us ++ vs))
      (σ.push s us) := by
  have hdepth := σ.length_le_depth_push s (us ++ vs)
  rw [List.length_append] at hdepth
  refine .counted n rfl ?_ ?_ ?_ rfl
  · show (n : Int) ≤ _
    omega
  · rw [Op.exec, StackMachine.pop_push_of_le _ _ (by simp; omega)]
    simp [h]
  · intro hzero
    rw [List.length_eq_zero_iff.1 (h.trans hzero), List.append_nil]

/-- The word on top is written to a slot. -/
theorem copyToSlot (σ : StackMachine lanes) (us : List (Vector UInt32 lanes))
    (w : Vector UInt32 lanes) {slot : Nat} (h : slot < valueSlots) :
    Takes host batch valueSlots s (Call.counted 1 (.copyToSlots false ⟨slot, 1⟩ 1))
      (σ.push s (us ++ [w])) ((σ.onMemory (·.overwrite slot [w])).push s (us ++ [w])) := by
  have hdepth := σ.length_le_depth_push s (us ++ [w])
  rw [List.length_append, List.length_singleton] at hdepth
  refine .counted 1 rfl ⟨le_rfl, by omega, h⟩ ?_ (by simp) (Machine.size_overwrite ..)
  rw [Op.exec, StackMachine.peek_push_of_le _ _ (by simp)]
  simp [Machine.store, StackMachine.onMemory, StackMachine.push, StackMachine.replace]

/-- A slot is pushed. -/
theorem pushSlot (σ : StackMachine lanes) (us : List (Vector UInt32 lanes)) {slot : Nat}
    (h : slot < valueSlots) :
    Takes host batch valueSlots s (Call.counted 1 (.pushSlots .value ⟨slot, 1⟩)) (σ.push s us)
      (σ.push s (us ++ [σ.memory.slot slot])) := by
  refine .counted 1 rfl (fun _ => h) ?_ (by simp) rfl
  have hword : (Vector.ofFn fun lane => σ.memory.read batch .value (slot + 0) lane) =
      σ.memory.slot slot := by
    apply Vector.ext
    intro lane hlane
    simp [Machine.read, Vector.get]
  rw [Op.exec, StackMachine.push_push]
  exact congrArg (fun w => σ.push s (us ++ [w])) hword

/-- A swizzle replaces the words that it consumes by those with the given places among them. -/
theorem selection (σ : StackMachine lanes) {ws : List (Vector UInt32 lanes)} {components : List Nat}
    (hlt : ∀ c ∈ components, c < 16) (hlength : components.length ≤ 16) :
    Takes host batch valueSlots s [Code.selection ws.length components] (σ.push s ws)
      (σ.push s (Words.choose components ws)) := by
  have hexec : (Code.selection ws.length components).exec host batch s (σ.push s ws) =
      σ.push s (Words.choose components ws) := by
    rw [Code.exec_selection hlt hlength, StackMachine.transform_push_self _ _ rfl]
  refine ⟨?_, (Code.finds_selection hlength).2 (σ.length_le_depth_push s ws), ?_, hexec⟩
  · fun_cases Code.selection ws.length components <;> rfl
  · rw [hexec]
    rfl

/-- One swizzle after the other repeats the word on top: each leaves as many words below the top one
as it repeats. -/
theorem duplicates (σ : StackMachine lanes) (w : Vector UInt32 lanes) (count : Nat) :
    Takes host batch valueSlots s (Call.duplicates count) (σ.push s [w])
      (σ.push s (List.replicate (count + 1) w)) := by
  induction count using Nat.strong_induction_on generalizing σ with
  | _ count ih =>
    rw [Call.duplicates]
    split
    · rename_i hcount
      rw [hcount]
      exact rfl
    · have hchosen : Words.choose (List.replicate (min count 15 + 1) 0) [w] =
          List.replicate (min count 15) w ++ [w] := by
        simp [Words.choose, List.replicate_succ']
      have hfirst : Takes host batch valueSlots s
          [Code.selection [w].length (List.replicate (min count 15 + 1) 0)] (σ.push s [w]) _ :=
        selection σ (by simp) (by simp)
      rw [hchosen] at hfirst
      have hrest := ih (count - min count 15) (by omega) (σ.push s (List.replicate (min count 15) w))
      rw [StackMachine.push_push, StackMachine.push_push, ← List.replicate_add,
        show min count 15 + (count - min count 15 + 1) = count + 1 by omega] at hrest
      exact hfirst.append hrest

end Op.Takes

/-! ## The state that code leads to -/

/-- What code is run with: a host, a batch, and the memory of value slots.  All stacks are empty. -/
structure Start (lanes : Nat) where
  host : HostCall → Registers lanes → Registers lanes
  batch : Batch lanes
  memory : Machine lanes

namespace Start

instance : Inhabited (Start lanes) where
  default :=
    ⟨fun _ => id, ⟨0, #[], #[], Vector.replicate lanes 0, Vector.replicate lanes 0⟩, .ofPixels #[] #[]⟩

/-- How many value slots there are. -/
def size (r : Start lanes) : Nat := r.memory.values.size

/-- The memory with empty stacks. -/
def state (r : Start lanes) : StackMachine lanes := ⟨r.memory, fun _ => []⟩

end Start

/-- The code of a builder is valid, has no control flow, and leads to a state without an error. -/
structure Builder.Leads (r : Start lanes) (b : Builder) (τ : StackMachine lanes) : Prop where
  stack : 0 ≤ b.stack
  valid : b.code.Valid r.size
  straight : ∀ i ∈ b.code, i.op.branchTarget? = none ∧ ∀ label, i.op ≠ .label label
  outcome : b.code.outcome r.host r.batch r.state = (τ, none)
  size : τ.memory.values.size = r.size

namespace Builder.Leads

open Call

variable {r : Start lanes} {b b' : Builder} {τ σ : StackMachine lanes}

theorem depth (h : b.Leads r τ) : τ.depth = stackDepth b.code :=
  Code.depth_outcome h.valid (fun _ => rfl) h.outcome

/-- Before the first instruction. -/
theorem empty (r : Start lanes) : Builder.empty.Leads r r.state :=
  ⟨le_rfl, trivial, by simp [Builder.empty], rfl, rfl⟩

/-- A pipeline that holds the instructions of a builder, and that is lowered, runs without an error
and ends in the state that the builder leads to. -/
theorem runFrom {p : Pipeline} {immutableSlots : Nat} {host : Option Host} {tailCalls : Bool}
    {lowered : Lowered} (h : b.Leads r τ) (holds : p.Holds b r.size immutableSlots)
    (own : Host.OwnStages host) (hhost : r.host = Host.effect host)
    (hlower : p.lower host tailCalls = .ok lowered) {m : Machine lanes} {fuel : Nat}
    (lay : LaidOut p m r.state) (hfuel : lowered.stages.size ≤ fuel) :
    (Machine.runFrom lowered.stages r.batch fuel 0 m).2 = none ∧
      LaidOut p (Machine.runFrom lowered.stages r.batch fuel 0 m).1 τ := by
  obtain ⟨-, hrun⟩ := Code.runFrom_lowered tailCalls holds.fits holds.instructions
    (holds.valueSlots ▸ h.valid) h.straight own
  obtain ⟨-, hrun⟩ := hrun lowered hlower
  have hend := hrun r.batch lay (fun _ => rfl) hfuel
  rwa [← hhost, h.outcome] at hend

/-- What follows a builder leads to the same state. -/
theorem of_follows (h : b.Leads r τ) (follows : Follows r.size b' b) : b'.Leads r τ := by
  obtain ⟨valid, same⟩ := follows.code h.valid
  refine ⟨follows.stack ▸ h.stack, valid, Code.straight_of_fixed same.fixed h.straight, ?_, h.size⟩
  rw [same.outcome _ _ _ fun _ => rfl, h.outcome]

/-- One more operation. -/
theorem emit (h : b.Leads r τ) (op : Op) (hdata : isData op = true) (hfault : op.fault? = none)
    (finds : op.Finds r.size τ.depth b.stack)
    (hsize : (op.exec r.host r.batch b.stack τ).memory.values.size = τ.memory.values.size) :
    (b.emit op).Leads r (op.exec r.host r.batch b.stack τ) where
  stack := h.stack
  valid := ⟨h.valid, h.stack, h.depth ▸ finds, fun n hn => absurd hn ((of_isData hdata).2.2 n)⟩
  straight := by
    intro i hi
    obtain rfl | hi := List.mem_cons.1 hi
    · exact ⟨(of_isData hdata).1, (of_isData hdata).2.1⟩
    · exact h.straight i hi
  outcome := by
    rw [Builder.emit, Code.outcome, h.outcome]
    simp only [hfault, Code.meaning_of_ne_pad (i := ⟨op, b.stack⟩) (of_isData hdata).2.2]
  size := hsize.trans h.size

/-- An operation on `count` words, if there are any, after which the state is `σ`. -/
theorem counted (h : b.Leads r τ) (count : Nat) (op : Op) (hdata : isData op = true)
    (hfault : op.fault? = none) (finds : op.Finds r.size τ.depth b.stack)
    (hexec : op.exec r.host r.batch b.stack τ = σ) (hzero : count = 0 → τ = σ)
    (hsize : σ.memory.values.size = τ.memory.values.size) :
    (addAll b (Call.counted count op)).Leads r σ := by
  rw [Call.counted]
  split
  · rename_i hcount
    exact hzero hcount ▸ h
  · exact hexec ▸ h.emit op hdata hfault finds (hexec ▸ hsize)

/-- Code leads from where it has led before to where added operations take that. -/
theorem addAll {ops : List Op} (h : b.Leads r σ) (data : ∀ op ∈ ops, Call.isData op = true)
    (takes : Op.Takes r.host r.batch r.size b.stack ops σ τ) : (Call.addAll b ops).Leads r τ := by
  induction ops generalizing b σ with
  | nil =>
    obtain rfl : σ = τ := takes
    exact h
  | cons op ops ih =>
    simp only [List.mem_cons, forall_eq_or_imp] at data
    obtain ⟨fault, finds, size, takes⟩ := takes
    exact ih (h.emit op data.1 fault finds size) data.2 takes

/-! ## Pushes -/

theorem pushConstant (h : b.Leads r τ) (bits : UInt32) (count : Nat) :
    (b.pushConstant bits count).Leads r (τ.push b.stack (Words.alike (List.replicate count bits))) := by
  have hexec : (Op.pushConstant count bits).exec r.host r.batch b.stack τ =
      τ.push b.stack (Words.alike (List.replicate count bits)) := by
    rw [Words.alike_replicate]
    rfl
  refine (h.counted count (.pushConstant count bits) rfl rfl trivial hexec ?_ rfl).of_follows
    (@follows_apply _ b (.pushConstant bits count) trivial)
  rintro rfl
  exact (τ.push_nil b.stack).symm

/-- Slots of values are pushed as they are. -/
theorem pushSlots (h : b.Leads r τ) {range : SlotRange} (hrange : range.stop ≤ r.size) :
    (b.pushSlots .value range).Leads r
      (τ.push b.stack (τ.memory.window range.index range.count)) := by
  have hexec : (Op.pushSlots .value range).exec r.host r.batch b.stack τ =
      τ.push b.stack (τ.memory.window range.index range.count) := by
    rw [Op.exec, Machine.window]
    congr 2
    funext i
    apply Vector.ext
    intro lane hlane
    simp [Machine.read, Vector.get]
  refine (h.counted range.count (.pushSlots .value range) rfl rfl (fun _ => hrange) hexec ?_ rfl).of_follows
    (@follows_apply _ b (.pushSlots .value range) trivial)
  intro hcount
  rw [hcount]
  exact (τ.push_nil b.stack).symm

/-- Words on top are pushed once more. -/
theorem pushClone {ws : List (Vector UInt32 lanes)} (h : b.Leads r (τ.push b.stack ws))
    {count distance : Nat} (hcount : count ≤ distance) (hdistance : distance ≤ ws.length) :
    (b.pushClone count distance).Leads r
      (τ.push b.stack (ws ++ (ws.drop (ws.length - distance)).take count)) := by
  have hdepth := τ.length_le_depth_push b.stack ws
  have hexec : (Op.pushClone count distance).exec r.host r.batch b.stack (τ.push b.stack ws) =
      τ.push b.stack (ws ++ (ws.drop (ws.length - distance)).take count) := by
    rw [Op.exec, StackMachine.peek_push_of_le _ _ hdistance, StackMachine.push_push]
  refine (h.counted count (.pushClone count distance) rfl rfl ⟨hcount, by omega⟩ hexec ?_ rfl).of_follows
    (@follows_apply _ b (.pushClone count distance) trivial)
  rintro rfl
  simp

/-! ## Pops -/

/-- Words on top are dropped. -/
theorem discard {ws vs : List (Vector UInt32 lanes)} (h : b.Leads r (τ.push b.stack (ws ++ vs))) :
    (b.discard vs.length).Leads r (τ.push b.stack ws) := by
  have hdepth := τ.length_le_depth_push b.stack (ws ++ vs)
  rw [List.length_append] at hdepth
  have hexec : (Op.discard vs.length).exec r.host r.batch b.stack (τ.push b.stack (ws ++ vs)) =
      τ.push b.stack ws := by
    rw [Op.exec, StackMachine.pop_push_of_le _ _ (by simp)]
    simp
  refine (h.counted vs.length (.discard vs.length) rfl rfl ?_ hexec ?_ rfl).of_follows
    (@follows_apply _ b (.discard vs.length) trivial)
  · show (vs.length : Int) ≤ _
    omega
  · intro hzero
    rw [List.length_eq_zero_iff.1 hzero, List.append_nil]

/-- Words on top are popped to slots. -/
theorem popSlotsUnmasked {ws : List (Vector UInt32 lanes)} (h : b.Leads r (τ.push b.stack ws))
    {target : SlotRange} (hlength : ws.length = target.count) (htarget : target.stop ≤ r.size) :
    (b.popSlotsUnmasked target).Leads r (τ.onMemory (·.overwrite target.index ws)) := by
  have hdepth := τ.length_le_depth_push b.stack ws
  rw [hlength] at hdepth
  refine of_follows ?_ (@follows_apply _ b (.popSlotsUnmasked target) trivial)
  by_cases hcount : target.count = 0
  · obtain rfl := List.length_eq_zero_iff.1 (hlength.trans hcount)
    simpa [Call.append, Call.ops, Call.counted, Call.addAll, hcount, StackMachine.onMemory] using h
  · have hcopy := h.emit (.copyToSlots false target target.count) rfl rfl
      ⟨le_rfl, hdepth, htarget⟩ (by simp [Op.exec, StackMachine.onMemory, Machine.store])
    have hdiscard := hcopy.emit (.discard target.count) rfl rfl hdepth rfl
    have hexec := τ.pop_store_push b.stack target.index hlength
    simp only [Call.append, Call.ops, Call.counted, if_neg hcount]
    exact hexec ▸ hdiscard

/-- The slots of a variable are told to a trace. -/
theorem traceVar (h : b.Leads r τ) {range : SlotRange} (hrange : range.stop ≤ r.size) :
    ∃ trace, (b.traceVar range).Leads r (τ.onMemory fun m => { m with trace }) := by
  obtain ⟨trace, htrace⟩ := τ.memory.exists_apply_trace_var r.batch range
  by_cases hcount : range.count = 0
  · refine ⟨τ.memory.trace, ?_⟩
    simpa [Builder.traceVar, Builder.emitCounted, hcount, StackMachine.onMemory] using h
  · refine ⟨trace, ?_⟩
    have hemit := h.emit (.trace (.var range)) rfl rfl hrange
      (by simp [Op.exec, StackMachine.onMemory, htrace])
    simpa [Builder.traceVar, Builder.emitCounted, hcount, Op.exec, StackMachine.onMemory, htrace]
      using hemit

/-! ## Operations on words on top -/

/-- An operation that makes other words of those that were pushed last. -/
theorem transform {ws : List (Vector UInt32 lanes)} (h : b.Leads r (τ.push b.stack ws)) (op : Op)
    {f : List (Vector UInt32 lanes) → List (Vector UInt32 lanes)} (hdata : isData op = true)
    (hfault : op.fault? = none) (finds : op.Finds r.size (τ.push b.stack ws).depth b.stack)
    (hexec : ∀ τ, op.exec r.host r.batch b.stack τ = τ.transform b.stack ws.length f) :
    (b.emit op).Leads r (τ.push b.stack (f ws)) := by
  have hemit := h.emit op hdata hfault finds (by rw [hexec]; rfl)
  rwa [hexec, StackMachine.transform_push_self _ _ rfl] at hemit

theorem unary {ws : List UInt32} (h : b.Leads r (τ.push b.stack (Words.alike ws))) (op : UnaryOp)
    (ty : NumType) :
    (b.unary op ty ws.length).Leads r (τ.push b.stack (Words.alike (ws.map (op.eval ty)))) := by
  have hdepth := τ.length_le_depth_push b.stack (Words.alike ws)
  rw [Words.length_alike] at hdepth
  by_cases hws : ws.length = 0
  · obtain rfl := List.length_eq_zero_iff.1 hws
    exact h
  · have hemit := h.transform (.unary op ty ws.length) rfl rfl hdepth
      (fun τ => by rw [Words.length_alike]; rfl)
    rw [Words.map_alike] at hemit
    rwa [Builder.unary, Builder.emitCounted, if_neg hws]

theorem binary {xs ys : List UInt32} (h : b.Leads r (τ.push b.stack (Words.alike (xs ++ ys))))
    (op : BinaryOp) (ty : NumType) (hlength : xs.length = ys.length) :
    (b.binary op ty xs.length).Leads r
      (τ.push b.stack (Words.alike (List.zipWith (op.eval ty) xs ys))) := by
  have hdepth := τ.length_le_depth_push b.stack (Words.alike (xs ++ ys))
  rw [Words.length_alike, List.length_append, ← hlength] at hdepth
  have hsum : (Words.alike (xs ++ ys) : List (Vector UInt32 lanes)).length = 2 * xs.length := by
    rw [Words.length_alike, List.length_append]
    omega
  refine of_follows ?_ (@follows_apply _ b (.binary op ty xs.length) trivial)
  refine h.counted xs.length (.binary op ty xs.length) rfl rfl (by simp only [Op.Finds]; omega) ?_ ?_ rfl
  · rw [Op.exec, StackMachine.transform_push_self _ _ hsum, Words.combine_alike _ rfl]
  · intro hzero
    rw [List.length_eq_zero_iff.1 hzero, List.length_eq_zero_iff.1 (hlength.symm.trans hzero)]
    rfl

theorem swizzle {ws : List (Vector UInt32 lanes)} (h : b.Leads r (τ.push b.stack ws))
    {components : List Nat} (hlt : ∀ c ∈ components, c < ws.length ∧ c < 16)
    (hlength : components.length ≤ 16) :
    (b.swizzle ws.length components).Leads r (τ.push b.stack (Words.choose components ws)) := by
  refine of_follows (h.addAll ?_ (.selection τ (fun c hc => (hlt c hc).2) hlength))
    (follows_swizzle b hlt hlength)
  simpa using isData_selection ws.length components

/-- The top word is repeated. -/
theorem pushDuplicates {word : Vector UInt32 lanes} (h : b.Leads r (τ.push b.stack [word]))
    (count : Nat) :
    (b.pushDuplicates count).Leads r (τ.push b.stack (List.replicate (count + 1) word)) :=
  of_follows (h.addAll isData_of_mem_duplicates (.duplicates τ word count))
    (follows_pushDuplicates b count)

theorem diagonal {word : UInt32} (h : b.Leads r (τ.push b.stack (Words.alike [word])))
    (shape : Shape) :
    (b.emit (.diagonal shape)).Leads r
      (τ.push b.stack (Words.alike (Matrix.diagonal shape word).toList)) := by
  have hdepth := τ.length_le_depth_push b.stack (Words.alike [word])
  have hemit := h.transform (.diagonal shape) rfl rfl hdepth fun _ => rfl
  rwa [Words.mapLanes_alike _ _ (Matrix.size_build ..)] at hemit

theorem resize {ws : List UInt32} (h : b.Leads r (τ.push b.stack (Words.alike ws)))
    {source : Shape} (target : Shape) (hlength : ws.length = source.size) :
    (b.emit (.resize source target)).Leads r
      (τ.push b.stack (Words.alike (Matrix.resize source target ws.toArray).toList)) := by
  have hdepth := τ.length_le_depth_push b.stack (Words.alike ws)
  rw [Words.length_alike, hlength] at hdepth
  have hemit := h.transform (.resize source target) rfl rfl hdepth fun _ => by
    rw [Words.length_alike, hlength]
    rfl
  rwa [Words.mapLanes_alike _ _ (Matrix.size_build ..)] at hemit

end Builder.Leads

end RasterShader
