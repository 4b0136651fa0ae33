import Mathlib
import RasterShader.Proofs.Codegen.Effect

/-!
# Slots and places in generated code

Slots are handed out in the widths of variables, and a place of `n` slots is pushed as `n` words.
What a place holds on to is the offset of every element in it that is chosen at run time: a word on
a stack of its own (`Place.held`).  Finding a place takes these stacks, and releasing it gives them
back.
-/

namespace RasterShader

/-! ## Tables -/

/-- What is looked up is an entry. -/
theorem mem_of_lookup {entries : List (Nat × SlotRange)} {id : Nat} {range : SlotRange}
    (h : entries.lookup id = some range) : (id, range) ∈ entries := by
  obtain ⟨before, after, rfl, -⟩ := List.lookup_eq_some_iff.1 h
  simp

namespace SlotTable

variable {slots : Nat → Nat} {table : SlotTable} {v : Variable}

theorem Agrees.count_of_get? (h : table.Agrees slots) {range : SlotRange}
    (hget : table.get? v = some range) : range.count = slots v.id := by
  unfold get? at hget
  rcases Option.or_eq_some_iff.1 hget with hlent | ⟨-, hown⟩
  · exact h.lent _ (mem_of_lookup hlent)
  · exact h.ranges _ (mem_of_lookup hown)

theorem Agrees.allocate (h : table.Agrees slots) (name : String) (ty : Ty) (line : Nat)
    (resultOf : Option Nat) : (table.allocate name ty line resultOf).2.Agrees slots :=
  ⟨h.ranges, h.lent⟩

theorem Agrees.getOrAllocate (h : table.Agrees slots) (hv : v.ty.slotCount = slots v.id)
    (line : Nat) :
    (table.getOrAllocate v line).2.Agrees slots ∧
      (table.getOrAllocate v line).1.count = slots v.id := by
  unfold SlotTable.getOrAllocate
  rcases hget : table.get? v with _ | range
  · refine ⟨⟨?_, h.lent⟩, hv⟩
    intro entry hentry
    rcases List.mem_cons.1 hentry with rfl | hentry
    · exact hv
    · exact h.ranges entry hentry
  · exact ⟨h, h.count_of_get? hget⟩

theorem Agrees.lend (h : table.Agrees slots) {id : Nat} {range : SlotRange}
    (hrange : range.count = slots id) : (table.lend id range).Agrees slots := by
  refine ⟨h.ranges, ?_⟩
  intro entry hentry
  rcases List.mem_cons.1 hentry with rfl | hentry
  · exact hrange
  · exact h.lent entry hentry

theorem Agrees.giveBack (h : table.Agrees slots) (id : Nat) : (table.giveBack id).Agrees slots :=
  ⟨h.ranges, fun entry hentry => h.lent entry (List.mem_of_mem_eraseP hentry)⟩

end SlotTable

namespace Gen

open GenM

variable {W : Widths}

/-- A change of the slots of values alone. -/
theorem Step.of_values {g : Gen} {values : SlotTable} (hg : g.Agrees W)
    (h : values.Agrees W.slots) : g.Step W 0 { g with values } 0 :=
  .of_builder_eq rfl rfl rfl rfl ⟨h, hg.uniforms, hg.immutableVars, hg.frame⟩

theorem affects_allocate (name : String) (ty : Ty) (line : Nat) (resultOf : Option Nat) :
    Affects W 0 (allocate name ty line resultOf) (fun _ _ => 0) (·.count = ty.slotCount) := by
  intro g range g' hg hrun
  obtain ⟨rfl, rfl⟩ := Prod.mk.inj (modifyGet_eq_ok.1 hrun)
  exact ⟨.of_values hg (hg.values.allocate ..), rfl⟩

theorem affects_scratch (ty : Ty) :
    Affects W 0 (scratch ty) (fun _ _ => 0) (·.count = ty.slotCount) :=
  affects_allocate "" ty 0 none

theorem affects_valueSlots (ctx : CodeContext) {v : Variable}
    (hv : v.ty.slotCount = W.slots v.id) :
    Affects W 0 (valueSlots ctx v) (fun _ _ => 0) (·.count = W.slots v.id) := by
  intro g range g' hg hrun
  obtain ⟨rfl, rfl⟩ := Prod.mk.inj (modifyGet_eq_ok.1 hrun)
  obtain ⟨htable, hcount⟩ := hg.values.getOrAllocate hv (ctx.line v.span)
  exact ⟨.of_values hg htable, hcount⟩

theorem affects_uniformSlots (ctx : CodeContext) {v : Variable}
    (hv : v.ty.slotCount = W.slots v.id) :
    Affects W 0 (uniformSlots ctx v) (fun _ _ => 0) (·.count = W.slots v.id) := by
  intro g range g' hg hrun
  obtain ⟨rfl, rfl⟩ := Prod.mk.inj (modifyGet_eq_ok.1 hrun)
  obtain ⟨htable, hcount⟩ := hg.uniforms.getOrAllocate hv (ctx.line v.span)
  exact ⟨.of_builder_eq rfl rfl rfl rfl ⟨hg.values, htable, hg.immutableVars, hg.frame⟩, hcount⟩

/-- A change of the state that concerns neither code nor slots. -/
theorem affects_modify {f : Gen → Gen}
    (hsame : ∀ g, (f g).builder = g.builder ∧ (f g).lastStack = g.lastStack ∧
      (f g).freeStacks = g.freeStacks ∧ (f g).context = g.context)
    (hagrees : ∀ g : Gen, g.Agrees W → (f g).Agrees W) :
    Affects W 0 (modify f) (fun _ _ => 0) fun _ => True := by
  intro g a g' hg hrun
  obtain rfl := modify_eq_ok.1 hrun
  obtain ⟨hbuilder, hlast, hfree, hcontext⟩ := hsame g
  exact ⟨.of_builder_eq hbuilder hlast hfree hcontext (hagrees g hg), trivial⟩

theorem affects_immutableSlots (words : List UInt32) :
    Affects W 0 (immutableSlots words) (fun _ _ => 0) (·.count = words.length) := by
  unfold immutableSlots
  by_cases hempty : words.isEmpty
  · simp only [hempty, if_true]
    refine Affects.pure ?_ fun _ => rfl
    rw [List.isEmpty_iff.1 hempty]
    rfl
  · simp only [hempty]
    refine Affects.get_bind fun g hg => ?_
    rcases findWords words g.immutable with _ | index
    · refine Affects.bind (Affects.forIn (ε := fun _ _ => 0) ?_) fun _ _ => ?_
      · intro entry _
        refine (moves_build fun b => Builder.adds_emit).bind (Affects.pure rfl fun s => ?_)
        simp [Op.stackUsage]
      · refine Affects.bind (affects_modify (fun _ => ⟨rfl, rfl, rfl, rfl⟩) ?_) fun _ _ => ?_
        · exact fun g hg => ⟨hg.values, hg.uniforms, hg.immutableVars, hg.frame⟩
        · exact Affects.pure rfl fun _ => by simp
    · exact Affects.pure rfl fun _ => rfl

theorem affects_functionIndex (ctx : CodeContext) (f : FunctionDecl) :
    Affects W 0 (functionIndex ctx f) (fun _ _ => 0) fun _ => True := by
  unfold functionIndex
  by_cases htrace : !ctx.trace
  · simp only [htrace, if_true]
    exact Affects.pure trivial fun _ => rfl
  · simp only [htrace]
    refine Affects.get_bind fun g hg => ?_
    generalize g.functions.findIdx? _ = index
    cases index with
    | none =>
      refine Affects.bind (affects_modify (fun _ => ⟨rfl, rfl, rfl, rfl⟩) ?_) fun _ _ => ?_
      · exact fun g hg => ⟨hg.values, hg.uniforms, hg.immutableVars, hg.frame⟩
      · exact Affects.pure trivial fun _ => by simp
    | some index => exact Affects.pure trivial fun _ => rfl

end Gen

/-! ## Places -/

namespace Place

/-- Scattered components are several, and components of what they are taken from. -/
def Sound : Place → Prop
  | scattered parent components =>
    parent.Sound ∧ 2 ≤ components.length ∧ ∀ c ∈ components, c < parent.slotCount
  | _ => True

/-- The offsets that a place keeps, each on a stack of its own. -/
def held (p : Place) : Effect := (p.offsetStacks.map fun t => Effect.onTop t + Effect.taken t).sum

variable {p : Place} {offset count n : Nat} {components : List Nat}

@[simp] theorem sound_narrow : (p.narrow offset count).Sound := by
  cases p <;> trivial

@[simp] theorem slotCount_narrow : (p.narrow offset count).slotCount = count := by
  cases p <;> rfl

@[simp] theorem offsetStacks_narrow : (p.narrow offset count).offsetStacks = p.offsetStacks := by
  cases p <;> rfl

theorem sound_pick (hp : p.Sound) (h : ∀ c ∈ components, c < p.slotCount) :
    (p.pick components).Sound := by
  unfold pick
  by_cases hcons : isConsecutive components = true
  · rw [if_pos hcons]
    exact sound_narrow
  · rw [if_neg hcons]
    refine ⟨hp, ?_, h⟩
    -- A single component follows itself.
    match components with
    | [] => exact absurd rfl hcons
    | [c] => exact absurd (by simp [isConsecutive]) hcons
    | _ :: _ :: _ => simp

@[simp] theorem slotCount_pick : (p.pick components).slotCount = components.length := by
  unfold pick
  split
  · exact slotCount_narrow
  · rfl

@[simp] theorem offsetStacks_pick : (p.pick components).offsetStacks = p.offsetStacks := by
  unfold pick
  split
  · exact offsetStacks_narrow
  · rfl

theorem sound_slice (hp : p.Sound) : (p.slice offset count).Sound := by
  cases p with
  | scattered parent components =>
    refine sound_pick hp.1 ?_
    intro c hc
    exact hp.2.2 c (List.mem_of_mem_drop (List.mem_of_mem_take hc))
  | _ => simp [slice]

/-- Some slots of a place are as many as were asked for.  Only components have to be there. -/
theorem slotCount_slice (hp : p.Sound) (h : 2 ≤ p.slotCount → offset + count ≤ p.slotCount) :
    (p.slice offset count).slotCount = count := by
  cases p with
  | scattered parent components =>
    have hle : offset + count ≤ components.length := h hp.2.1
    simp only [slice, slotCount_pick, List.length_take, List.length_drop]
    omega
  | _ => simp [slice]

@[simp] theorem offsetStacks_slice : (p.slice offset count).offsetStacks = p.offsetStacks := by
  cases p with
  | scattered parent components => exact offsetStacks_pick
  | _ => simp [slice]

theorem sound_swizzle (hp : p.Sound) (h : ∀ c ∈ components, c < p.slotCount) :
    (p.swizzle components).Sound := by
  cases p with
  | scattered parent inner =>
    refine sound_pick hp.1 ?_
    intro c hc
    obtain ⟨d, hd, rfl⟩ := List.mem_map.1 hc
    have hlt : d < inner.length := h d hd
    rw [List.getD_eq_getElem _ _ hlt]
    exact hp.2.2 _ (List.getElem_mem hlt)
  | _ => exact sound_pick trivial h

@[simp] theorem slotCount_swizzle : (p.swizzle components).slotCount = components.length := by
  cases p with
  | scattered parent inner => simp [swizzle]
  | _ => exact slotCount_pick

@[simp] theorem offsetStacks_swizzle : (p.swizzle components).offsetStacks = p.offsetStacks := by
  cases p with
  | scattered parent inner => exact offsetStacks_pick
  | _ => exact offsetStacks_pick

/-- A location has the slots of its place. -/
theorem count_location {l : Location} (h : p.location = .ok l) : l.fixed.count = p.slotCount := by
  cases p with
  | root space range =>
    cases h
    rfl
  | part parent offset count =>
    rcases hp : parent.location with e | l'
    · simp [location, hp, bind, Except.bind] at h
    · simp only [location, hp, bind, Except.bind, pure, Except.pure] at h
      cases h
      rfl
  | element parent count stack =>
    rcases hp : parent.location with e | l'
    · simp [location, hp, bind, Except.bind] at h
    · simp only [location, hp, bind, Except.bind, pure, Except.pure] at h
      cases h
      rfl
  | scattered => cases h

@[simp] theorem held_root (space : SlotSpace) (range : SlotRange) : (root space range).held = 0 :=
  rfl

theorem held_of_offsetStacks {q : Place} (h : p.offsetStacks = q.offsetStacks) :
    p.held = q.held := by
  rw [held, held, h]

end Place

/-- The computation finds a place of `n` slots, and takes the stacks that the place holds on to. -/
def Finds (W : Widths) (act : GenM Place) (n : Nat) : Prop :=
  Affects W 0 act (fun _ p => p.held) fun p => p.Sound ∧ p.slotCount = n

namespace Gen

open GenM Builder

variable {W : Widths}

theorem moves_pushLocation (l : Location) : Moves W (pushLocation l) l.fixed.count := by
  unfold pushLocation
  rcases l.offsetStack with _ | stack
  · exact moves_build fun b => adds_pushSlots
  · exact moves_build fun b => adds_pushIndirect

theorem moves_pushAt (p : Place) :
    Moves W (do pushLocation (← (p.location : Except Unsupported Location))) p.slotCount := by
  refine Affects.lift_bind fun l hl => ?_
  rw [← Place.count_location hl]
  exact moves_pushLocation l

/-- A place is pushed as a word for each of its slots. -/
theorem moves_pushPlace {p : Place} (hp : p.Sound) : Moves W (pushPlace p) p.slotCount := by
  induction p with
  | scattered parent components ih =>
    refine ((ih hp.1).seq (moves_build fun b => adds_swizzle hp.2.2)).of_eq ?_
    simp [Place.slotCount]
  | _ => exact moves_pushAt _

theorem affects_writableLocation (p : Place) :
    Affects W 0 (writableLocation p) (fun _ _ => 0) fun _ => True := by
  refine Affects.lift_bind fun l _ => ?_
  by_cases hspace : (l.space != .value) = true
  · simp only [hspace, if_true]
    exact Affects.throw
  · simp only [hspace]
    exact Affects.pure trivial fun _ => rfl

theorem moves_storeAt (ctx : CodeContext) (l : Location) :
    Moves W (match l.offsetStack with
      | none => do
        build (·.copyToSlots l.fixed l.fixed.count)
        if ctx.trace then build (·.traceVar l.fixed)
      | some stack => build (·.copyToIndirect l.fixed stack l.limit l.fixed.count)) 0 := by
  rcases l.offsetStack with _ | stack
  · refine Moves.bind (moves_build fun b => adds_copyToSlots) ?_
    by_cases htrace : ctx.trace = true
    · simp only [htrace, if_true]
      exact Affects.of_eq (moves_build fun b => adds_traceVar) fun s _ => by simp
    · simp only [htrace]
      exact Affects.pure trivial fun s => by simp
  · exact moves_build fun b => adds_copyToIndirect

/-- Storing leaves the value on the stack. -/
theorem moves_storePlace (ctx : CodeContext) (p : Place) : Moves W (storePlace ctx p) 0 := by
  cases p with
  | scattered parent components =>
    refine Affects.bind (affects_writableLocation parent) fun l _ => ?_
    rcases l.offsetStack with _ | stack
    · exact Affects.of_eq (moves_build fun b => adds_swizzleToSlots) fun s _ => by simp
    · exact Affects.of_eq (moves_build fun b => adds_swizzleToIndirect) fun s _ => by simp
  | _ =>
    refine Affects.bind (affects_writableLocation _) fun l _ => ?_
    exact Affects.of_eq (moves_storeAt ctx l) fun s _ => by simp

/-- Releasing a place gives back what it holds. -/
theorem affects_releasePlace (p : Place) :
    Affects W 0 (releasePlace p) (fun _ _ => -p.held) fun _ => True := by
  unfold releasePlace
  refine Affects.bind (Affects.forIn (ε := fun _ t => -(Effect.onTop t + Effect.taken t)) ?_)
    fun _ _ => Affects.pure trivial fun s => ?_
  · intro t _
    refine Affects.bind (affects_onStack (moves_build fun b => adds_discard)) fun _ _ => ?_
    refine Affects.bind (affects_recycleStack t) fun _ _ => ?_
    refine Affects.pure rfl fun s => ?_
    push_cast
    module
  · rw [Place.held, List.sum_neg, List.map_map]
    exact sub_self _

/-- The element of a place that is not scattered holds its offset as well. -/
theorem affects_elementPlace {parent : Place} {pushIndex : GenM Unit} (stride : Nat)
    (hindex : Moves W pushIndex 1) :
    Affects W 0 (elementPlace parent pushIndex stride) (fun _ p => p.held - parent.held)
      fun p => p.Sound ∧ p.slotCount = stride := by
  refine Affects.lift_bind fun parentStack hparent => ?_
  clear hparent
  refine Affects.bind affects_createStack fun t _ => ?_
  refine Affects.bind (affects_onStack (n := 1) ?_) fun _ _ => ?_
  · refine hindex.bind ?_
    -- Scaling and adding the offset of the parent leave one word where there was one.
    have scaled (b : Builder) :
        b.Adds ((b.pushConstant (Word.ofInt stride) 1).binary .mul .int 1) 0 :=
      (adds_pushConstant.trans adds_binary).of_eq (by norm_num)
    have moved (u : Int) (b : Builder) :
        b.Adds ((b.pushCloneFromStack 1 u 1).binary .add .int 1) 0 :=
      (adds_pushCloneFromStack.trans adds_binary).of_eq (by norm_num)
    by_cases hstride : (stride != 1) = true
    · simp only [hstride, if_true]
      refine Moves.bind (moves_build scaled) ?_
      cases parentStack with
      | none => exact Affects.pure trivial fun s => by simp
      | some u => exact Affects.of_eq (moves_build (moved u)) fun s _ => by simp
    · simp only [hstride, Bool.false_eq_true, if_false]
      cases parentStack with
      | none => exact Affects.pure trivial fun s => by simp
      | some u => exact Affects.of_eq (moves_build (moved u)) fun s _ => by simp
  · refine Affects.pure ⟨trivial, rfl⟩ fun s => ?_
    simp only [Place.held, Place.offsetStacks, List.map_cons, List.sum_cons]
    module

/-- The place of a variable has the variable's slots and holds nothing. -/
theorem affects_variablePlace (ctx : CodeContext) {v : Variable}
    (hv : v.ty.slotCount = W.slots v.id) (hcoord : isFragCoord v = true → v.ty.slotCount = 4) :
    Affects W 0 (variablePlace ctx v) (fun _ _ => 0)
      fun p => p.held = 0 ∧ p.Sound ∧ p.slotCount = W.slots v.id := by
  unfold variablePlace
  by_cases heffect : v.ty.isEffect = true
  · simp only [heffect, if_true]
    exact Affects.throw
  simp only [heffect, Bool.false_eq_true, if_false]
  by_cases hfrag : isFragCoord v = true
  · simp only [hfrag, if_true]
    refine Affects.bind (affects_scratch v.ty) fun range hrange => ?_
    refine Moves.bind (moves_build fun b => adds_pushInput.trans adds_popSlotsUnmasked) ?_
    refine Affects.pure ⟨rfl, trivial, hrange.trans hv⟩ fun s => ?_
    rw [hrange, hcoord hfrag]
    simp
  simp only [hfrag, Bool.false_eq_true, if_false]
  refine Affects.get_bind fun g hg => ?_
  rcases hlookup : g.immutableVars.lookup v.id with _ | range
  · by_cases huniform : v.isUniform = true
    · simp only [huniform, if_true]
      refine Affects.bind (affects_uniformSlots ctx hv) fun range hrange => ?_
      exact Affects.pure ⟨rfl, trivial, hrange⟩ fun s => by simp
    · simp only [huniform, Bool.false_eq_true, if_false]
      refine Affects.bind (affects_valueSlots ctx hv) fun range hrange => ?_
      by_cases hcolor : isFragColor v = true
      · simp only [hcolor, if_true]
        refine Affects.bind (affects_modify (fun _ => ⟨rfl, rfl, rfl, rfl⟩) ?_) fun _ _ => ?_
        · exact fun g hg => ⟨hg.values, hg.uniforms, hg.immutableVars, hg.frame⟩
        · exact Affects.pure ⟨rfl, trivial, hrange⟩ fun s => by simp
      · simp only [hcolor, Bool.false_eq_true, if_false]
        exact Affects.pure ⟨rfl, trivial, hrange⟩ fun s => by simp
  · refine Affects.pure ⟨rfl, trivial, ?_⟩ fun s => by simp
    exact hg.immutableVars _ (mem_of_lookup hlookup)

theorem finds_variablePlace (ctx : CodeContext) {v : Variable}
    (hv : v.ty.slotCount = W.slots v.id) (hcoord : isFragCoord v = true → v.ty.slotCount = 4) :
    Finds W (variablePlace ctx v) (W.slots v.id) :=
  (affects_variablePlace ctx hv hcoord).mono (fun _ _ hp => hp.1.symm) fun _ hp => hp.2

end Gen

end RasterShader
