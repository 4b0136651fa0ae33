import Mathlib
import RasterShader.Proofs.Code.Leads
import RasterShader.Proofs.Codegen.Place
import RasterShader.Proofs.Stack.Stores

/-!
# What reading and storing a place do

`GenM.Performs` says what the code does that a computation emits, whatever state the code before it
has led to.  The code that pushes a place reads, in every lane, components of the slots at its
location from `Location.start` on (`Place.Picks.performs_push`); the code that stores to a place
writes such components (`Place.Picks.performs_store`).  An offset moves these slots within the part
of the memory that a location belongs to, and not out of it (`Location.Within`).
-/

namespace RasterShader

/-! ## What emitted code does -/

/-- Runs operations on a stack one after the other. -/
def Op.execAll {lanes : Nat} (host : HostCall → Registers lanes → Registers lanes)
    (batch : Batch lanes) (s : Int) (ops : List Op) (σ : StackMachine lanes) : StackMachine lanes :=
  ops.foldl (fun σ op => op.exec host batch s σ) σ

/-- The computation always ends, and only adds code.  The code follows operations on data that take
every state to one in the given relation; whether stores are masked, the batch and the current stack
are parameters of the relation. -/
def GenM.Performs (act : GenM Unit)
    (R : ∀ {lanes : Nat}, Bool → Batch lanes → Int → StackMachine lanes → StackMachine lanes → Prop) :
    Prop :=
  ∃ ops : Bool → List Op, (∀ masked, ∀ op ∈ ops masked, Call.isData op = true) ∧
    (∀ g, ∃ b, act g = .ok ((), { g with builder := b }) ∧ ∀ valueSlots,
      Call.Follows valueSlots b (Call.addAll g.builder (ops g.builder.maskWritesEnabled))) ∧
    ∀ {lanes : Nat} (masked : Bool) (host : HostCall → Registers lanes → Registers lanes)
      (batch : Batch lanes) (s : Int) (σ : StackMachine lanes),
      R masked batch s σ (Op.execAll host batch s (ops masked) σ)

theorem Call.maskDepth_addAll (b : Builder) (ops : List Op) :
    (addAll b ops).maskDepth = b.maskDepth := by
  induction ops generalizing b with
  | nil => rfl
  | cons op ops ih => exact ih (b.emit op)

namespace GenM.Performs

open Gen

variable {R S T : ∀ {lanes : Nat},
  Bool → Batch lanes → Int → StackMachine lanes → StackMachine lanes → Prop}

/-- Calls of the builder follow operations. -/
theorem build {f : Builder → Builder} (ops : Bool → List Op)
    (data : ∀ masked, ∀ op ∈ ops masked, Call.isData op = true)
    (follows : ∀ b valueSlots, Call.Follows valueSlots (f b) (Call.addAll b (ops b.maskWritesEnabled)))
    (h : ∀ {lanes : Nat} (masked : Bool) (host : HostCall → Registers lanes → Registers lanes)
      (batch : Batch lanes) (s : Int) (σ : StackMachine lanes),
      R masked batch s σ (Op.execAll host batch s (ops masked) σ)) :
    GenM.Performs (Gen.build f) R :=
  ⟨ops, data, fun g => ⟨f g.builder, rfl, follows g.builder⟩, h⟩

theorem pure (h : ∀ {lanes : Nat} (masked : Bool) (batch : Batch lanes) (s : Int)
    (σ : StackMachine lanes), R masked batch s σ σ) : GenM.Performs (Pure.pure ()) R :=
  ⟨fun _ => [], by simp, fun g => ⟨g.builder, rfl, fun _ => .refl _⟩,
    fun masked _ batch s σ => h masked batch s σ⟩

theorem mono {act : GenM Unit} (h : act.Performs R)
    (hRS : ∀ {lanes : Nat} (masked : Bool) (batch : Batch lanes) (s : Int)
      (σ τ : StackMachine lanes), R masked batch s σ τ → S masked batch s σ τ) :
    act.Performs S := by
  obtain ⟨ops, data, follows, hR⟩ := h
  exact ⟨ops, data, follows, fun masked host batch s σ => hRS _ _ _ _ _ (hR masked host batch s σ)⟩

/-- One computation after another. -/
theorem seq {x y : GenM Unit} (hx : x.Performs R) (hy : y.Performs S)
    (hT : ∀ {lanes : Nat} (masked : Bool) (batch : Batch lanes) (s : Int)
      (σ τ υ : StackMachine lanes), R masked batch s σ τ → S masked batch s τ υ →
      T masked batch s σ υ) :
    GenM.Performs (do x; y) T := by
  obtain ⟨ops, data, follows, hR⟩ := hx
  obtain ⟨ops', data', follows', hS⟩ := hy
  refine ⟨fun masked => ops masked ++ ops' masked, ?_, fun g => ?_, ?_⟩
  · intro masked op hop
    rcases List.mem_append.1 hop with hop | hop
    · exact data masked op hop
    · exact data' masked op hop
  · obtain ⟨b, hb, hfollows⟩ := follows g
    obtain ⟨b', hb', hfollows'⟩ := follows' { g with builder := b }
    refine ⟨b', bind_eq_ok.2 ⟨(), _, hb, hb'⟩, fun valueSlots => ?_⟩
    have hmasked : b.maskWritesEnabled = g.builder.maskWritesEnabled := by
      rw [Builder.maskWritesEnabled, Builder.maskWritesEnabled, (hfollows valueSlots).maskDepth,
        Call.maskDepth_addAll]
    have hrest := hfollows' valueSlots
    simp only [hmasked] at hrest
    rw [Call.addAll_append]
    refine hrest.trans ((hfollows valueSlots).addAll ?_)
    exact fun op hop => (Call.of_isData (data' _ op hop)).2.2
  · intro lanes masked host batch s σ
    rw [Op.execAll, List.foldl_append]
    exact hT masked batch s _ _ _ (hR masked host batch s σ) (hS masked host batch s _)

end GenM.Performs

/-! ## Locations -/

namespace Location

variable {lanes : Nat} {l : Location} {part : SlotRange} {width : Nat}

/-- The first of `width` slots at a location, given the offset. -/
def start (l : Location) (offset : UInt32) (width : Nat) : Nat :=
  match l.offsetStack with
  | none => l.fixed.index
  | some _ => Machine.indirectStart l.fixed.index offset width l.limit

/-- The offset of a location in a lane. -/
def offset (l : Location) (σ : StackMachine lanes) (lane : Fin lanes) : UInt32 :=
  match l.offsetStack with
  | none => 0
  | some stack => (σ.word stack 1).get lane

theorem offset_congr {σ τ : StackMachine lanes} (h : τ.stack = σ.stack) (lane : Fin lanes) :
    l.offset τ lane = l.offset σ lane := by
  simp only [offset, StackMachine.word, h]

/-- The location lies in a part of its memory, and offsets are limited to that part. -/
structure Within (l : Location) (part : SlotRange) : Prop where
  index : part.index ≤ l.fixed.index
  stop : l.fixed.stop ≤ part.stop
  limit : l.offsetStack.isSome = true → l.limit = part.stop

/-- Whatever the offset is, the slots stay in the part. -/
theorem Within.start_mem (h : l.Within part) (hwidth : width ≤ l.fixed.count) (offset : UInt32) :
    part.index ≤ l.start offset width ∧ l.start offset width + width ≤ part.stop := by
  have hindex := h.index
  have hstop := h.stop
  have hlimit := h.limit
  unfold start
  simp only [SlotRange.stop] at hstop hlimit ⊢
  cases hoffset : l.offsetStack with
  | none =>
    show part.index ≤ l.fixed.index ∧ l.fixed.index + width ≤ part.index + part.count
    omega
  | some stack =>
    have hlimit := hlimit (by rw [hoffset]; rfl)
    simp only [Machine.indirectStart]
    omega

/-- An offset that does not reach past the part moves all slots by the same. -/
theorem start_eq_of_le {offset : UInt32}
    (h : l.fixed.index + (Word.toInt offset).toNat + l.fixed.count ≤ l.limit)
    (hwidth : width ≤ l.fixed.count) :
    l.start offset width = l.start offset l.fixed.count := by
  unfold start
  cases l.offsetStack with
  | none => rfl
  | some stack =>
    simp only [Machine.indirectStart]
    omega

/-- Pushes the words at a location. -/
theorem performs_push (l : Location) : (Gen.pushLocation l).Performs fun _ batch s σ τ =>
    τ = σ.push s ((List.range l.fixed.count).map fun i => Vector.ofFn fun lane =>
      σ.memory.read batch l.space (l.start (l.offset σ lane) l.fixed.count + i) lane) := by
  unfold Gen.pushLocation start offset
  cases l.offsetStack with
  | none =>
    refine .build (fun _ => Call.counted l.fixed.count (.pushSlots l.space l.fixed))
      (fun _ => Call.isData_of_mem_counted rfl)
      (fun b _ => Call.follows_apply b
        (show (Call.pushSlots l.space l.fixed).Admissible from trivial)) ?_
    intro lanes masked host batch s σ
    rw [Call.counted]
    split
    · rename_i hcount
      rw [hcount]
      exact (σ.replace_zero_nil s).symm
    · rfl
  | some stack =>
    refine .build (fun _ => [.pushIndirect l.space l.fixed stack l.limit]) (by simp [Call.isData])
      (fun b _ => Call.Follows.refl _) ?_
    intro lanes masked host batch s σ
    rfl

end Location

/-! ## Places -/

namespace Machine

theorem scatterWidth_le {components : List Nat} {n : Nat} (hn : 0 < n)
    (h : ∀ c ∈ components, c < n) : scatterWidth components ≤ n := by
  have fold : ∀ (cs : List Nat) (k : Nat), k ≤ n → (∀ c ∈ cs, c < n) →
      (cs.map (· + 1)).foldl max k ≤ n := by
    intro cs
    induction cs with
    | nil => exact fun k hk _ => hk
    | cons c rest ih =>
      intro k hk hcs
      have hc : c + 1 ≤ n := hcs c (List.mem_cons_self ..)
      exact ih _ (max_le hk hc) fun d hd => hcs d (List.mem_cons_of_mem c hd)
  exact max_le hn (fold components 0 (Nat.zero_le n) h)

end Machine

namespace Place

/-- A place consists of all slots at a location, or of some of them in another order. -/
inductive Picks (l : Location) : Place → List Nat → Prop
  | all {p : Place} (location : p.location = .ok l) : Picks l p (List.range l.fixed.count)
  | some {p : Place} {components : List Nat} (location : p.location = .ok l)
    (several : 0 < components.length) (few : components.length ≤ 8)
    (inside : ∀ c ∈ components, c < l.fixed.count ∧ c < 16) :
    Picks l (.scattered p components) components

/-- How many slots a store to the place may span. -/
def storeWidth : Place → Nat
  | scattered _ components => Machine.scatterWidth components
  | p => p.slotCount

/-- A store to a place that is not scattered spans all of it. -/
theorem storeWidth_of_location {l : Location} {p : Place} (h : p.location = .ok l) :
    p.storeWidth = l.fixed.count := by
  rw [count_location h]
  cases p with
  | scattered => cases h
  | _ => rfl

namespace Picks

variable {l : Location} {p : Place} {components : List Nat}

theorem lt_count (h : Picks l p components) : ∀ c ∈ components, c < l.fixed.count := by
  cases h with
  | all location => exact fun c hc => List.mem_range.1 hc
  | some location several few inside => exact fun c hc => (inside c hc).1

theorem storeWidth_le (h : Picks l p components) : p.storeWidth ≤ l.fixed.count := by
  cases h with
  | all location => exact (storeWidth_of_location location).le
  | some location several few inside =>
    refine Machine.scatterWidth_le ?_ fun c hc => (inside c hc).1
    exact Nat.zero_lt_of_lt (inside _ (List.getElem_mem several)).1

theorem lt_storeWidth (h : Picks l p components) : ∀ c ∈ components, c < p.storeWidth := by
  cases h with
  | all location =>
    intro c hc
    rw [storeWidth_of_location location]
    exact List.mem_range.1 hc
  | some => exact fun c hc => Machine.lt_scatterWidth hc

end Picks

end Place

namespace Gen

theorem pushPlace_of_location {p : Place} {l : Location} (h : p.location = .ok l) :
    pushPlace p = pushLocation l := by
  cases p with
  | scattered => cases h
  | _ =>
    unfold pushPlace
    rw [h]
    rfl

theorem writableLocation_of_value {p : Place} {l : Location} (h : p.location = .ok l)
    (hspace : l.space = .value) : writableLocation p = pure l := by
  unfold writableLocation
  rw [h]
  funext g
  simp [hspace, bind, StateT.bind, Except.bind, pure, StateT.pure, Except.pure, liftM, monadLift,
    MonadLift.monadLift, StateT.lift]

variable {p : Place} {l : Location}

theorem storePlace_of_offsetStack_eq_none (ctx : CodeContext) (h : p.location = .ok l)
    (hspace : l.space = .value) (hoffset : l.offsetStack = none) :
    storePlace ctx p = (do
      build (·.copyToSlots l.fixed l.fixed.count)
      if ctx.trace then build (·.traceVar l.fixed)) := by
  cases p with
  | scattered => cases h
  | _ => simp only [storePlace, writableLocation_of_value h hspace, pure_bind, hoffset]

theorem storePlace_of_offsetStack_eq_some (ctx : CodeContext) (h : p.location = .ok l)
    (hspace : l.space = .value) {stack : Int} (hoffset : l.offsetStack = some stack) :
    storePlace ctx p = build (·.copyToIndirect l.fixed stack l.limit l.fixed.count) := by
  cases p with
  | scattered => cases h
  | _ => simp only [storePlace, writableLocation_of_value h hspace, pure_bind, hoffset]

theorem storePlace_scattered (ctx : CodeContext) (h : p.location = .ok l)
    (hspace : l.space = .value) (components : List Nat) :
    storePlace ctx (.scattered p components) =
      match l.offsetStack with
      | none => build (·.swizzleToSlots l.fixed components components.length)
      | some stack =>
        build (·.swizzleToIndirect l.fixed stack l.limit components components.length) := by
  unfold storePlace
  dsimp only
  rw [writableLocation_of_value h hspace]
  exact pure_bind l _

end Gen

/-! ## Reading and storing -/

namespace Place.Picks

open Gen GenM

variable {l : Location} {p : Place} {components : List Nat}

/-- Reading a place pushes, in every lane, its components at the location. -/
theorem performs_push (h : Picks l p components) : (pushPlace p).Performs fun _ batch s σ τ =>
    τ = σ.push s (components.map fun c => Vector.ofFn fun lane =>
      σ.memory.read batch l.space (l.start (l.offset σ lane) l.fixed.count + c) lane) := by
  cases h with
  | all location =>
    rw [pushPlace_of_location location]
    exact l.performs_push
  | @some parent components location several few inside =>
    have hcount : parent.slotCount = l.fixed.count := (count_location location).symm
    have hpush : pushPlace (.scattered parent components) = (do
        pushLocation l
        build (·.swizzle l.fixed.count components)) := by
      simp only [pushPlace, pushPlace_of_location location, hcount]
    have hswizzle : (build (·.swizzle l.fixed.count components)).Performs fun _ _ s σ τ =>
        τ = σ.transform s l.fixed.count (Words.choose components) := by
      refine .build (fun _ => [Code.selection l.fixed.count components])
        (by simp [Call.isData_selection])
        (fun b _ => Call.follows_swizzle b inside (by omega)) fun masked host batch s σ => ?_
      exact Code.exec_selection (fun c hc => (inside c hc).2) (by omega) host batch σ
    rw [hpush]
    refine l.performs_push.seq hswizzle fun masked batch s σ τ υ hτ hυ => ?_
    rw [hυ, hτ, StackMachine.transform_push_self _ _ (by simp)]
    congr 1
    refine List.map_congr_left fun c hc => ?_
    rw [List.getD_eq_getElem _ _ (by simpa using (inside c hc).1)]
    simp

/-- What a store leaves behind: the value stays on the stack, and its words are at the components of
the place, at least in the lanes that execute, and in no others if stores are masked. -/
def Stored (l : Location) (width : Nat) (components : List Nat) {lanes : Nat} (masked : Bool)
    (_ : Batch lanes) (s : Int) (σ τ : StackMachine lanes) : Prop :=
  components.length ≤ (σ.stack s).length → τ.stack = σ.stack ∧
    ∃ writes : Fin lanes → Prop,
      (∀ lane, σ.memory.executes lane = true → writes lane) ∧
      (masked = true → ∀ lane, writes lane → σ.memory.executes lane = true) ∧
      σ.memory.Stores τ.memory writes (fun lane => l.start (l.offset σ lane) width) components
        (σ.peek s components.length components.length)

/-- The lanes that execute store one after the other. -/
theorem stored_forActiveLanes {lanes : Nat} {width : Nat} {masked : Bool} {batch : Batch lanes}
    {s : Int} {σ τ : StackMachine lanes}
    (h : τ = σ.onMemory (·.forActiveLanes fun lane m => m.storeComponents
      (l.start (l.offset σ lane) width) components
      (σ.peek s components.length components.length) lane)) :
    Stored l width components masked batch s σ τ := by
  subst h
  intro _
  refine ⟨rfl, _, fun lane hlane => hlane, fun _ lane hlane => hlane, ?_⟩
  exact Machine.stores_forActiveLanes (fun lane m => m.stores_storeComponents
    (fun lane => l.start (l.offset σ lane) width) components _ lane) σ.memory

/-- Without an offset, all slots are stored to, and told to a trace. -/
theorem performs_copyToSlots (ctx : CodeContext) (hoffset : l.offsetStack = none) :
    GenM.Performs (do
      build (·.copyToSlots l.fixed l.fixed.count)
      if ctx.trace then build (·.traceVar l.fixed))
      (Stored l l.fixed.count (List.range l.fixed.count)) := by
  have hcopy : (build (·.copyToSlots l.fixed l.fixed.count)).Performs fun masked _ s σ τ =>
      τ = σ.onMemory (·.store masked l.fixed.index (σ.peek s l.fixed.count l.fixed.count)) := by
    refine .build
      (fun masked => Call.counted l.fixed.count (.copyToSlots masked l.fixed l.fixed.count))
      (fun _ => Call.isData_of_mem_counted rfl)
      (fun b _ => .of_eq (Call.copyToSlots_eq b l.fixed l.fixed.count)) ?_
    intro lanes masked host batch s σ
    rw [Call.counted]
    split
    · rename_i hcount
      have hnil : σ.peek s 0 0 = [] := by simp [StackMachine.peek]
      rw [hcount, hnil]
      cases masked <;> rfl
    · rfl
  have htrace : GenM.Performs (if ctx.trace = true then build (·.traceVar l.fixed) else pure ())
      fun _ _ _ σ τ => ∃ trace, τ = σ.onMemory fun m => { m with trace } := by
    split
    · refine .build (fun _ => Call.counted l.fixed.count (.trace (.var l.fixed)))
        (fun _ => Call.isData_of_mem_counted rfl)
        (fun b _ => .of_eq (Call.emitCounted_eq ..)) ?_
      intro lanes masked host batch s σ
      rw [Call.counted]
      split
      · exact ⟨σ.memory.trace, rfl⟩
      · obtain ⟨trace, htrace⟩ := σ.memory.exists_apply_trace_var batch l.fixed
        exact ⟨trace, congrArg (fun m => { σ with memory := m }) htrace⟩
    · exact .pure fun masked batch s σ => ⟨σ.memory.trace, rfl⟩
  refine hcopy.seq htrace fun masked batch s σ τ υ hτ hυ hdepth => ?_
  obtain ⟨trace, rfl⟩ := hυ
  rw [List.length_range] at hdepth ⊢
  have hstart : (fun lane => l.start (l.offset σ lane) l.fixed.count) = fun _ => l.fixed.index := by
    funext lane
    simp [Location.start, hoffset]
  have hstores := σ.memory.stores_store masked l.fixed.index
    (σ.peek s l.fixed.count l.fixed.count)
  rw [σ.length_peek s le_rfl hdepth, ← hstart] at hstores
  subst hτ
  exact ⟨rfl, _, fun lane hlane _ => hlane, fun hmasked lane hlane => hlane hmasked,
    ⟨hstores.size, hstores.executes, hstores.stored, hstores.kept⟩⟩

/-- Storing to a place leaves the words of the value there. -/
theorem performs_store (h : Picks l p components) (hspace : l.space = .value) (ctx : CodeContext) :
    (storePlace ctx p).Performs (Stored l p.storeWidth components) := by
  cases h with
  | all location =>
    rw [storeWidth_of_location location]
    cases hoffset : l.offsetStack with
    | none =>
      rw [storePlace_of_offsetStack_eq_none ctx location hspace hoffset]
      exact performs_copyToSlots ctx hoffset
    | some stack =>
      rw [storePlace_of_offsetStack_eq_some ctx location hspace hoffset]
      refine .build (fun _ => [.copyToIndirect l.fixed stack l.limit l.fixed.count])
        (by simp [Call.isData]) (fun b _ => .refl _) fun masked host batch s σ => ?_
      refine stored_forActiveLanes ?_
      simp only [Op.execAll, List.foldl_cons, List.foldl_nil, Op.exec, Machine.forEach_setWord,
        Location.start, Location.offset, hoffset, List.length_range]
  | @some parent components location several few inside =>
    have hpacked : unpackNybbles (packNybbles components) components.length = components := by
      rw [unpackNybbles_packNybbles fun c hc => (inside c hc).2, List.take_of_length_le few]
    rw [storePlace_scattered ctx location hspace]
    cases hoffset : l.offsetStack with
    | none =>
      refine .build (fun _ => [.swizzleToSlots l.fixed.index components.length
        (packNybbles components) components.length]) (by simp [Call.isData]) (fun b _ => .refl _)
        fun masked host batch s σ => ?_
      refine stored_forActiveLanes ?_
      simp only [Op.execAll, List.foldl_cons, List.foldl_nil, Op.exec, hpacked, Location.start,
        hoffset]
    | some stack =>
      refine .build (fun _ => [.swizzleToIndirect l.fixed.index components.length
        (packNybbles components) components.length stack l.limit]) (by simp [Call.isData])
        (fun b _ => .refl _) fun masked host batch s σ => ?_
      refine stored_forActiveLanes ?_
      simp only [Op.execAll, List.foldl_cons, List.foldl_nil, Op.exec, hpacked, Location.start,
        Location.offset, hoffset, storeWidth]

end Place.Picks

end RasterShader
