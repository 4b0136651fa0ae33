import Mathlib
import RasterShader.Codegen.Statement
import RasterShader.Proofs.Codegen.Replacing
import RasterShader.Proofs.Codegen.Typed
import RasterShader.Proofs.Codegen.Views

/-!
# Code that leaves words

The code of an expression leaves words on the current stack, the same in all lanes, if wherever it
is generated it leads from any state of the machine to the state with these words on top (`Leaves`);
and the code that finds a place locates words if the slots of the place have them afterwards
(`Locates`). Both may use slots that are free, and leave all other ones alone (`Machine.SameBelow`).

The code is generated and run where some constant variables have been declared: they have slots
(`Gen.Covers`), which carry the words of their values (`Gen.Carries`).
-/

namespace RasterShader

open Gen Builder

variable {lanes : Nat}

/-! ## Memory -/

/-- What was written to a window is in it. -/
theorem Machine.window_overwrite (m : Machine lanes) {target : Nat}
    {ws : List (Vector UInt32 lanes)} (h : target + ws.length ≤ m.values.size) :
    (m.overwrite target ws).window target ws.length = ws := by
  apply List.ext_getElem
  · simp
  · intro i hi hi'
    rw [getElem_window, slot_overwrite, if_pos (by omega)]
    simp [List.getD_eq_getElem?_getD, hi']

/-- Nothing but slots from the `k`th on differs. -/
structure Machine.SameBelow (k : Nat) (m m' : Machine lanes) : Prop where
  size : m'.values.size = m.values.size
  slot : ∀ i < k, m'.slot i = m.slot i
  registers : m'.registers = m.registers
  condition : m'.condition = m.condition
  loop : m'.loop = m.loop
  returns : m'.returns = m.returns
  trace : m'.trace = m.trace

namespace Machine.SameBelow

variable {j k : Nat} {m m' m'' : Machine lanes}

theorem refl (k : Nat) (m : Machine lanes) : SameBelow k m m :=
  ⟨rfl, fun _ _ => rfl, rfl, rfl, rfl, rfl, rfl⟩

theorem trans (h : SameBelow k m m') (h' : SameBelow j m' m'') (hle : k ≤ j) :
    SameBelow k m m'' where
  size := h'.size.trans h.size
  slot i hi := (h'.slot i (hi.trans_le hle)).trans (h.slot i hi)
  registers := h'.registers.trans h.registers
  condition := h'.condition.trans h.condition
  loop := h'.loop.trans h.loop
  returns := h'.returns.trans h.returns
  trace := h'.trace.trans h.trace

theorem mono (h : SameBelow k m m') (hle : j ≤ k) : SameBelow j m m' where
  size := h.size
  slot i hi := h.slot i (hi.trans_le hle)
  registers := h.registers
  condition := h.condition
  loop := h.loop
  returns := h.returns
  trace := h.trace

theorem overwrite (m : Machine lanes) {target : Nat} (h : k ≤ target)
    (ws : List (Vector UInt32 lanes)) : SameBelow k m (m.overwrite target ws) where
  size := m.size_overwrite target ws
  slot _ hi := m.slot_overwrite_of_lt ws (hi.trans_le h)
  registers := m.registers_overwrite target ws
  condition := m.condition_overwrite target ws
  loop := m.loop_overwrite target ws
  returns := m.returns_overwrite target ws
  trace := m.trace_overwrite target ws

/-- Slots further down have the same words. -/
theorem map_slot (h : SameBelow k m m') {slots : List Nat} (hlt : ∀ i ∈ slots, i < k) :
    slots.map m'.slot = slots.map m.slot :=
  List.map_congr_left fun _ hi => h.slot _ (hlt _ hi)

theorem window (h : SameBelow k m m') {range : SlotRange} (hle : range.stop ≤ k) :
    m'.window range.index range.count = m.window range.index range.count := by
  rw [window_eq_map, window_eq_map]
  exact h.map_slot fun i hi => (SlotRange.mem_slots.1 hi).2.trans_le hle

end Machine.SameBelow

/-! ## Variables that have been declared -/

/-- The initializers of constant variables, by their identity. -/
abbrev Constants := Nat → Option Expr

namespace Gen

/-- Code has been generated, and slots have been taken, but no variable has been touched. -/
structure Later (g g' : Gen) : Prop where
  stack : g'.builder.stack = g.builder.stack
  next : g.values.next ≤ g'.values.next
  ranges : g'.values.ranges = g.values.ranges
  lent : g'.values.lent = g.values.lent
  immutableVars : g'.immutableVars = g.immutableVars

/-- Declared variables have the slots of their initializers. -/
def Covers (declared : Constants) (g : Gen) : Prop :=
  ∀ (v : Variable) (init : Expr), declared v.id = some init →
    ∃ range, g.immutableVars.lookup v.id = none ∧ g.values.get? v = some range ∧
      range.count = init.ty.slotCount ∧ range.stop ≤ g.values.next

/-- The slots of declared variables have the words of their values. -/
def Carries (declared : Constants) (g : Gen) (m : Machine lanes) : Prop :=
  ∀ (v : Variable) (init : Expr) (range : SlotRange) (values : List Float),
    declared v.id = some init → g.values.get? v = some range → init.constantValue? = some values →
      m.window range.index range.count = Words.alike (constantBits init.ty values)

variable {declared : Constants} {g g' g'' : Gen} {m m' : Machine lanes}

theorem Later.refl (g : Gen) : g.Later g := ⟨rfl, le_rfl, rfl, rfl, rfl⟩

theorem Later.trans (h : g.Later g') (h' : g'.Later g'') : g.Later g'' where
  stack := h'.stack.trans h.stack
  next := h.next.trans h'.next
  ranges := h'.ranges.trans h.ranges
  lent := h'.lent.trans h.lent
  immutableVars := h'.immutableVars.trans h.immutableVars

theorem Later.of_builder {b : Builder} (h : b.stack = g.builder.stack) :
    g.Later { g with builder := b } := ⟨h, le_rfl, rfl, rfl, rfl⟩

theorem Later.get? (h : g.Later g') (v : Variable) : g'.values.get? v = g.values.get? v := by
  rw [SlotTable.get?, SlotTable.get?, h.ranges, h.lent]

theorem Covers.later (h : g.Covers declared) (later : g.Later g') : g'.Covers declared := by
  intro v init hv
  obtain ⟨range, hlookup, hget, hcount, hstop⟩ := h v init hv
  exact ⟨range, later.immutableVars ▸ hlookup, (later.get? v).trans hget, hcount,
    hstop.trans later.next⟩

theorem Carries.later (h : g.Carries declared m) (covers : g.Covers declared)
    (later : g.Later g') (same : m.SameBelow g.values.next m') : g'.Carries declared m' := by
  intro v init range values hv hget hvalues
  rw [later.get?] at hget
  obtain ⟨range', -, hget', -, hstop⟩ := covers v init hv
  obtain rfl : range = range' := Option.some.inj (hget.symm.trans hget')
  rw [same.window hstop]
  exact h v init range values hv hget hvalues

/-- From one state of code generation to a later one, code that leads to words on top of the stack
and to a memory with a property. -/
def Reaches (declared : Constants) (g g' : Gen) (ws : List UInt32)
    (P : ∀ {lanes : Nat}, Machine lanes → Prop) : Prop :=
  ∀ {lanes : Nat} (r : Start lanes) (τ : StackMachine lanes), g'.values.next ≤ r.size →
    g.Carries declared τ.memory → g.builder.Leads r τ →
    ∃ m, τ.memory.SameBelow g.values.next m ∧ P m ∧
      g'.builder.Leads r
        (StackMachine.push { τ with memory := m } g.builder.stack (Words.alike ws))

end Gen

/-! ## Computations -/

/-- The code that the computation generates leaves words on the stack, where variables have been
declared. -/
def Leaves (declared : Constants) (act : GenM Unit) (ws : List UInt32) : Prop :=
  ∀ g : Gen, g.Covers declared → ∃ g', act g = .ok ((), g') ∧ g.Later g' ∧
    g.Reaches declared g' ws fun _ => True

/-- The code that the computation generates makes the slots of a place have words. -/
def Locates (declared : Constants) (act : GenM Place) (ws : List UInt32) : Prop :=
  ∀ g : Gen, g.Covers declared → ∃ p slots g', act g = .ok (p, g') ∧ g.Later g' ∧
    p.Views g'.values.next slots ∧ slots.length = ws.length ∧
    g.Reaches declared g' [] fun m => slots.map m.slot = Words.alike ws

namespace Leaves

variable {declared : Constants} {x y : GenM Unit} {f : Builder → Builder} {us vs ws : List UInt32}

theorem build (h : Builder.Turns f [] ws) : Leaves declared (Gen.build f) ws := by
  intro g hg
  refine ⟨_, rfl, .of_builder (h.stack _), ?_⟩
  intro lanes r τ hr hτ hb
  exact ⟨τ.memory, .refl _ _, trivial, h.leads (by simpa [Words.alike] using hb)⟩

theorem pure : Leaves declared (Pure.pure ()) [] := by
  intro g hg
  refine ⟨g, rfl, .refl g, ?_⟩
  intro lanes r τ hr hτ hb
  exact ⟨τ.memory, .refl _ _, trivial, by simpa [Words.alike] using hb⟩

theorem seq (hx : Leaves declared x ws) (hy : Leaves declared y vs) :
    Leaves declared (x >>= fun _ => y) (ws ++ vs) := by
  intro g hg
  obtain ⟨g₁, hx, later₁, run₁⟩ := hx g hg
  obtain ⟨g₂, hy, later₂, run₂⟩ := hy g₁ (hg.later later₁)
  refine ⟨g₂, GenM.bind_eq_ok.2 ⟨(), g₁, hx, hy⟩, later₁.trans later₂, ?_⟩
  intro lanes r τ hr hτ hb
  obtain ⟨m₁, same₁, -, lead₁⟩ := run₁ r τ (later₂.next.trans hr) hτ hb
  rw [← later₁.stack] at lead₁
  obtain ⟨m₂, same₂, -, lead₂⟩ := run₂ r _ hr (hτ.later hg later₁ same₁) lead₁
  refine ⟨m₂, same₁.trans same₂ later₁.next, trivial, ?_⟩
  rw [Words.alike_append, ← StackMachine.push_push, ← later₁.stack]
  exact lead₂

/-- Code that goes on with the words that are left. -/
theorem replaces (hx : Leaves declared x ws) (hy : Replaces y ws vs) :
    Leaves declared (x >>= fun _ => y) vs := by
  intro g hg
  obtain ⟨g₁, hx, later₁, run₁⟩ := hx g hg
  obtain ⟨f, hf, hy⟩ := hy
  have hstack := hf.stack g₁.builder
  refine ⟨_, GenM.bind_eq_ok.2 ⟨(), g₁, hx, hy g₁⟩, later₁.trans (.of_builder hstack), ?_⟩
  intro lanes r τ hr hτ hb
  obtain ⟨m₁, same₁, -, lead₁⟩ := run₁ r τ hr hτ hb
  rw [← later₁.stack] at lead₁ ⊢
  exact ⟨m₁, same₁, trivial, hf.leads lead₁⟩

end Leaves

namespace Gen

variable {declared : Constants} {limit : Nat} {p : Place} {slots : List Nat}

/-- Pushing a place is a step of the builder, which pushes the words of the slots that it shows. -/
theorem pushPlace_views (h : p.Views limit slots) :
    ∃ f : Builder → Builder, (∀ g, pushPlace p g = .ok ((), { g with builder := f g.builder })) ∧
      (∀ b, (f b).stack = b.stack) ∧
      ∀ {lanes : Nat} {r : Start lanes} {b : Builder} {τ : StackMachine lanes}, limit ≤ r.size →
        b.Leads r τ → (f b).Leads r (τ.push b.stack (slots.map τ.memory.slot)) := by
  cases h with
  | @plain _ range h below =>
    obtain ⟨location, hlocation⟩ := h.location
    refine ⟨(·.pushSlots .value range), fun g => ?_, fun b => adds_pushSlots.stack, ?_⟩
    · have hpush : pushPlace p = (do pushLocation (← p.location)) := by cases h <;> rfl
      rw [hpush, hlocation]
      rfl
    · intro lanes r b τ hr hb
      rw [← Machine.window_eq_map]
      exact hb.pushSlots (below.trans hr)
  | @scattered parent range components h below short few inside =>
    obtain ⟨location, hlocation⟩ := h.location
    have hcomponents : ∀ c ∈ components, c < range.count ∧ c < 16 := fun c hc =>
      ⟨inside c hc, (inside c hc).trans_le short⟩
    refine ⟨fun b => (b.pushSlots .value range).swizzle range.count components, fun g => ?_,
      fun b => (adds_swizzle inside).stack.trans adds_pushSlots.stack, ?_⟩
    · have hpush : pushPlace parent = (do pushLocation (← parent.location)) := by cases h <;> rfl
      have hcount := h.slotCount
      rw [pushPlace, hpush, hlocation, hcount]
      rfl
    · intro lanes r b τ hr hb
      have hpushed := hb.pushSlots (below.trans hr)
      have hstack : (b.pushSlots .value range).stack = b.stack := adds_pushSlots.stack
      rw [← hstack] at hpushed ⊢
      rw [← Machine.length_window τ.memory range.index range.count] at hcomponents
      have hswizzle := hpushed.swizzle hcomponents few
      rw [Machine.length_window] at hswizzle
      have hchosen : Words.choose components (τ.memory.window range.index range.count) =
          (components.map (range.index + ·)).map τ.memory.slot := by
        rw [Words.choose, List.map_map]
        refine List.map_congr_left fun c hc => ?_
        simp [Machine.window, List.getD_eq_getElem?_getD, inside c hc]
      rwa [hchosen] at hswizzle

theorem releasePlace_views (h : p.Views limit slots) (g : Gen) :
    releasePlace p g = .ok ((), g) := by
  rw [releasePlace, h.offsetStacks]
  rfl

end Gen

namespace Locates

variable {declared : Constants} {place : GenM Place} {components : List Nat} {ws : List UInt32}
  {offset count : Nat}

/-- A place that is pushed, and with which nothing else is done. -/
theorem pushed (h : Locates declared place ws) {rest : Place → GenM Unit}
    (hrest : ∀ limit p slots, p.Views limit slots → ∀ g, rest p g = .ok ((), g)) :
    Leaves declared (do
      let p ← place
      pushPlace p
      rest p) ws := by
  intro g hg
  obtain ⟨p, slots, g₁, hplace, later, views, -, run⟩ := h g hg
  obtain ⟨f, hpush, hstack, hleads⟩ := Gen.pushPlace_views views
  refine ⟨{ g₁ with builder := f g₁.builder }, ?_, later.trans (.of_builder (hstack _)), ?_⟩
  · exact GenM.bind_eq_ok.2 ⟨p, g₁, hplace, GenM.bind_eq_ok.2 ⟨(), _, hpush g₁,
      hrest _ _ _ views _⟩⟩
  · intro lanes r τ hr hτ hb
    obtain ⟨m, same, hslots, lead⟩ := run r τ hr hτ hb
    rw [show Words.alike [] = [] from rfl, StackMachine.push_nil] at lead
    have hpushed := hleads hr lead
    rw [hslots, later.stack] at hpushed
    exact ⟨m, same, trivial, hpushed⟩

/-- A value that is read through its place. -/
theorem leaves (h : Locates declared place ws) (ty : Ty) :
    Leaves declared (Operand.ofPlace ty place).push ws :=
  h.pushed fun _ _ _ views => Gen.releasePlace_views views

theorem slice (h : Locates declared place ws) (inside : offset + count ≤ ws.length) :
    Locates declared (do return (← place).slice offset count) ((ws.drop offset).take count) := by
  intro g hg
  obtain ⟨p, slots, g₁, hplace, later, views, hlength, run⟩ := h g hg
  refine ⟨_, _, g₁, GenM.bind_eq_ok.2 ⟨p, g₁, hplace, rfl⟩, later, views.slice (by omega), ?_, ?_⟩
  · simp [hlength]
  · intro lanes r τ hr hτ hb
    obtain ⟨m, same, hslots, lead⟩ := run r τ hr hτ hb
    refine ⟨m, same, ?_, lead⟩
    show List.map m.slot _ = _
    rw [List.map_take, List.map_drop, hslots, Words.alike, Words.alike, List.map_take,
      List.map_drop]

theorem swizzle (h : Locates declared place ws) (short : ws.length ≤ 16)
    (few : components.length ≤ 16) (inside : ∀ c ∈ components, c < ws.length) :
    Locates declared (do return (← place).swizzle components)
      (components.map (ws.getD · 0)) := by
  intro g hg
  obtain ⟨p, slots, g₁, hplace, later, views, hlength, run⟩ := h g hg
  refine ⟨_, _, g₁, GenM.bind_eq_ok.2 ⟨p, g₁, hplace, rfl⟩, later,
    views.swizzle (by omega) few (by rwa [hlength]), by simp, ?_⟩
  intro lanes r τ hr hτ hb
  obtain ⟨m, same, hslots, lead⟩ := run r τ hr hτ hb
  refine ⟨m, same, ?_, lead⟩
  show List.map m.slot _ = _
  rw [← Words.choose_alike, ← hslots, Words.choose, List.map_map]
  refine List.map_congr_left fun c hc => ?_
  have hc' : c < slots.length := by rw [hlength]; exact inside c hc
  simp [List.getD_eq_getElem?_getD, hc']

end Locates

/-- The place of a value that is computed: new slots, to which it goes. -/
theorem Leaves.locates {declared : Constants} {push : GenM Unit} {ws : List UInt32} {ty : Ty}
    (h : Leaves declared push ws) (hlength : ws.length = ty.slotCount) :
    Locates declared (Operand.ofValue ty push).place ws := by
  intro g hg
  let range : SlotRange := ⟨g.values.next, ty.slotCount⟩
  let g₁ : Gen := { g with values := (g.values.allocate "" ty 0 none).2 }
  have later₁ : g.Later g₁ := ⟨rfl, Nat.le_add_right _ _, rfl, rfl, rfl⟩
  obtain ⟨g₂, hpush, later₂, run⟩ := h g₁ (hg.later later₁)
  have hstack : (g₂.builder.popSlotsUnmasked range).stack = g₂.builder.stack :=
    adds_popSlotsUnmasked.stack
  refine ⟨.root .value range, range.slots, { g₂ with builder := g₂.builder.popSlotsUnmasked range },
    ?_, (later₁.trans later₂).trans (.of_builder hstack), .plain (.root range) later₂.next,
    by simp [range, hlength], ?_⟩
  · exact GenM.bind_eq_ok.2 ⟨range, g₁, rfl, GenM.bind_eq_ok.2 ⟨(), g₂, hpush, rfl⟩⟩
  · intro lanes r τ hr hτ hb
    obtain ⟨m, same, -, lead⟩ := run r τ hr (hτ.later hg later₁ (.refl _ _)) hb
    have hsize : m.values.size = r.size := lead.size
    rw [← later₂.stack] at lead
    have hstop : range.index + (Words.alike ws : List (Vector UInt32 lanes)).length ≤
        m.values.size := by
      rw [Words.length_alike, hlength, hsize]
      exact later₂.next.trans hr
    have hcount : (Words.alike ws : List (Vector UInt32 lanes)).length = range.count := by
      rw [Words.length_alike, hlength]
    have hpop := lead.popSlotsUnmasked hcount (later₂.next.trans hr)
    refine ⟨m.overwrite range.index (Words.alike ws),
      (same.mono later₁.next).trans (.overwrite m le_rfl _) le_rfl, ?_, ?_⟩
    · have hwindow := m.window_overwrite hstop
      rw [Words.length_alike, hlength] at hwindow
      rwa [Machine.window_eq_map _ range] at hwindow
    · rwa [show Words.alike [] = [] from rfl, StackMachine.push_nil]

namespace Operand

variable {declared : Constants} {v : Variable} {init : Expr}
  {values : List Float}

/-- The place of a variable that has been declared is its slots. -/
theorem variablePlace_declared (ctx : CodeContext) (effect : v.ty.isEffect = false) (uniform : v.isUniform = false)
    (coords : isFragCoord v = false) {g : Gen} {range : SlotRange}
    (hlookup : g.immutableVars.lookup v.id = none) (hget : g.values.get? v = some range) :
    ∃ g', variablePlace ctx v g = .ok (.root .value range, g') ∧ g'.builder = g.builder ∧
      g.Later g' := by
  have hslots : valueSlots ctx v g = .ok (range, g) := by
    rw [valueSlots, GenM.modifyGet_eq_ok, SlotTable.getOrAllocate, hget]
  simp only [variablePlace, effect, coords, uniform, Bool.false_eq_true, if_false]
  by_cases hcolor : isFragColor v = true
  · refine ⟨{ g with fragColor := some range }, ?_, rfl, ⟨rfl, le_rfl, rfl, rfl, rfl⟩⟩
    refine GenM.bind_eq_ok.2 ⟨g, g, GenM.get_eq_ok.2 ⟨rfl, rfl⟩, ?_⟩
    simp only [hlookup, hcolor, if_true]
    exact GenM.bind_eq_ok.2 ⟨range, g, hslots, rfl⟩
  · refine ⟨g, ?_, rfl, .refl g⟩
    refine GenM.bind_eq_ok.2 ⟨g, g, GenM.get_eq_ok.2 ⟨rfl, rfl⟩, ?_⟩
    simp only [hlookup, hcolor]
    exact GenM.bind_eq_ok.2 ⟨range, g, hslots, rfl⟩

theorem locates_variable (ctx : CodeContext) (hv : declared v.id = some init)
    (hvalues : init.constantValue? = some values) (hlength : values.length = init.ty.slotCount)
    (effect : v.ty.isEffect = false) (uniform : v.isUniform = false)
    (coords : isFragCoord v = false) :
    Locates declared (variablePlace ctx v) (constantBits init.ty values) := by
  intro g hg
  obtain ⟨range, hlookup, hget, hcount, hstop⟩ := hg v init hv
  obtain ⟨g', hplace, hbuilder, later⟩ :=
    variablePlace_declared ctx effect uniform coords hlookup hget
  refine ⟨.root .value range, range.slots, g', hplace, later,
    .plain (.root range) (hstop.trans later.next), ?_, ?_⟩
  · rw [SlotRange.length_slots, hcount, length_constantBits hlength]
  · intro lanes r τ hr hτ hb
    refine ⟨τ.memory, .refl _ _, ?_, ?_⟩
    · show range.slots.map τ.memory.slot = _
      rw [← Machine.window_eq_map]
      exact hτ v init range values hv hget hvalues
    · rwa [hbuilder, show Words.alike [] = [] from rfl, StackMachine.push_nil]

theorem leaves_variable (ctx : CodeContext) (hv : declared v.id = some init)
    (hvalues : init.constantValue? = some values) (hlength : values.length = init.ty.slotCount)
    (effect : v.ty.isEffect = false) (uniform : v.isUniform = false)
    (coords : isFragCoord v = false) :
    Leaves declared (pushVariable ctx v) (constantBits init.ty values) := by
  let rest : Place → GenM Unit := fun _ => pure ()
  have hpushed : Leaves declared (do
      let p ← variablePlace ctx v
      pushPlace p
      rest p) (constantBits init.ty values) :=
    (locates_variable ctx hv hvalues hlength effect uniform coords).pushed fun _ _ _ _ _ => rfl
  intro g hg
  obtain ⟨range, hlookup, -⟩ := hg v init hv
  have hsame : pushVariable ctx v g = (variablePlace ctx v >>= pushPlace) g := by
    simp only [pushVariable, coords, Bool.false_eq_true, if_false]
    change StateT.bind get _ g = _
    simp only [StateT.bind, get, getThe, MonadStateOf.get, StateT.get, pure, bind, Except.bind,
      Except.pure, hlookup]
  have hrest : (fun p => do pushPlace p; rest p) = pushPlace :=
    funext fun p => bind_pure (pushPlace p)
  rw [hsame, ← hrest]
  exact hpushed g hg

end Operand

end RasterShader
