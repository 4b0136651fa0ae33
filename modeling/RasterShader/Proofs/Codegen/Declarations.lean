import Mathlib
import RasterShader.Proofs.Codegen.Leaves

/-!
# Declarations of constants

The declaration of a variable whose initializer leaves given words gives the variable slots that
carry these words, and keeps what other variables carry (`Leaves.declares`).  The variable has no
slots before, or slots of its own, as when a function is written out a second time (`Gen.Admits`).
-/

namespace RasterShader

open Gen Builder

/-- One more variable has been declared. -/
def Constants.declare (declared : Constants) (v : Variable) (init : Expr) : Constants :=
  Function.update declared v.id (some init)

theorem Constants.declare_self (declared : Constants) (v : Variable) (init : Expr) :
    declared.declare v init v.id = some init := Function.update_self ..

theorem Constants.declare_of_ne (declared : Constants) {v w : Variable} (init : Expr)
    (h : w.id ≠ v.id) : declared.declare v init w.id = declared w.id := Function.update_of_ne h ..

namespace Gen

variable {declared : Constants} {g g' : Gen} {v : Variable} {range : SlotRange}

/-- A variable has slots of its own, apart from those of other declared variables. -/
structure Owns (declared : Constants) (g : Gen) (v : Variable) (range : SlotRange) : Prop where
  lookup : g.immutableVars.lookup v.id = none
  slots : g.values.get? v = some range
  count : range.count = v.ty.slotCount
  stop : range.stop ≤ g.values.next
  apart : ∀ (w : Variable) (init : Expr) (other : SlotRange), declared w.id = some init →
    w.id ≠ v.id → g.values.get? w = some other →
    other.stop ≤ range.index ∨ range.stop ≤ other.index

/-- A variable may be declared: it has no slots yet, or slots of its own. -/
def Admits (declared : Constants) (g : Gen) (v : Variable) : Prop :=
  (g.immutableVars.lookup v.id = none ∧ g.values.get? v = none) ∨
    ∃ range, g.Owns declared v range

/-- Slots that are taken stay with the variable. -/
theorem Owns.later (h : g.Owns declared v range) (later : g.Later g') :
    g'.Owns declared v range where
  lookup := later.immutableVars ▸ h.lookup
  slots := (later.get? v).trans h.slots
  count := h.count
  stop := h.stop.trans later.next
  apart w init other hw hne hget := h.apart w init other hw hne ((later.get? w).symm.trans hget)

/-- Declared variables carry their words as long as they keep their slots. -/
theorem Carries.of_kept {m : Machine lanes} (h : g.Carries declared m) (hg : g.Covers declared)
    (kept : ∀ w range, g.values.get? w = some range → g'.values.get? w = some range) :
    g'.Carries declared m := by
  intro w init range values hw hget hvalues
  obtain ⟨own, -, hown, -⟩ := hg w init hw
  obtain rfl : own = range := Option.some.inj ((kept w own hown).symm.trans hget)
  exact h w init own values hw hown hvalues

/-- A variable that may be declared gets slots of its own, and no variable loses its slots. -/
theorem valueSlots_admits (ctx : CodeContext) (hg : g.Covers declared)
    (admits : g.Admits declared v) :
    ∃ range g', valueSlots ctx v g = .ok (range, g') ∧ g'.builder = g.builder ∧
      g'.immutableVars = g.immutableVars ∧
      (∀ w range, g.values.get? w = some range → g'.values.get? w = some range) ∧
      (∀ w : Variable, w.id ≠ v.id → g'.values.get? w = g.values.get? w) ∧
      g'.Owns declared v range ∧ g'.Covers declared := by
  obtain ⟨hlookup, hget⟩ | ⟨range, owns⟩ := admits
  · let range : SlotRange := ⟨g.values.next, v.ty.slotCount⟩
    let table := (g.values.allocate v.name v.ty (ctx.line v.span) none).2
    let g' : Gen := { g with values := { table with ranges := (v.id, range) :: table.ranges } }
    have hother : ∀ w : Variable, w.id ≠ v.id → g'.values.get? w = g.values.get? w := by
      intro w hne
      show (g.values.lent.lookup w.id).or (((v.id, range) :: g.values.ranges).lookup w.id) = _
      rw [List.lookup_cons, beq_false_of_ne hne]
      rfl
    have kept : ∀ w range, g.values.get? w = some range → g'.values.get? w = some range := by
      intro w range hw
      refine (hother w fun heq => ?_).trans hw
      rw [SlotTable.get?, heq] at hw
      rw [SlotTable.get?, hw] at hget
      cases hget
    refine ⟨range, g', ?_, rfl, rfl, kept, hother, ⟨hlookup, ?_, rfl, le_rfl, ?_⟩, ?_⟩
    · rw [valueSlots, GenM.modifyGet_eq_ok, SlotTable.getOrAllocate, hget]
      rfl
    · obtain ⟨hlent, -⟩ := Option.or_eq_none_iff.1 hget
      show (g.values.lent.lookup v.id).or (((v.id, range) :: g.values.ranges).lookup v.id) = _
      rw [hlent, List.lookup_cons_self]
      rfl
    · intro w init other hw hne hslots
      obtain ⟨own, -, hown, -, hstop⟩ := hg w init hw
      rw [hother w hne] at hslots
      obtain rfl : own = other := Option.some.inj (hown.symm.trans hslots)
      exact .inl hstop
    · intro w init hw
      obtain ⟨own, hnone, hown, hcount, hstop⟩ := hg w init hw
      exact ⟨own, hnone, kept w own hown, hcount, hstop.trans (Nat.le_add_right _ _)⟩
  · refine ⟨range, g, ?_, rfl, rfl, fun _ _ hw => hw, fun _ _ => rfl, owns, hg⟩
    rw [valueSlots, GenM.modifyGet_eq_ok, SlotTable.getOrAllocate, owns.slots]

end Gen

/-! ## Declarations -/

/-- The computation declares a constant variable: other declared variables have their slots and
words as before, and the slots of the variable have the words of its value. -/
def Declares (declared : Constants) (act : GenM Unit) (v : Variable) (init : Expr) : Prop :=
  ∀ g : Gen, g.Covers declared → g.Admits declared v → ∃ g', act g = .ok ((), g') ∧
    g'.builder.stack = g.builder.stack ∧ g'.immutableVars = g.immutableVars ∧
    (∀ w : Variable, w.id ≠ v.id → g'.values.get? w = g.values.get? w) ∧
    g'.Covers (declared.declare v init) ∧
    ∀ {lanes : Nat} (r : Start lanes) (τ : StackMachine lanes), g'.values.next ≤ r.size →
      g.Carries declared τ.memory → g.builder.Leads r τ →
      ∃ m, g'.Carries (declared.declare v init) m ∧ g'.builder.Leads r { τ with memory := m }

section Declares

variable {declared : Constants} {g : Gen} {v : Variable} {init : Expr} {range : SlotRange}
  {values : List Float}

/-- A variable that has slots of its own is among the variables that have been declared. -/
theorem Gen.Owns.covers_declare (owns : g.Owns declared v range) (hg : g.Covers declared)
    (hslots : v.ty.slotCount = init.ty.slotCount) : g.Covers (declared.declare v init) := by
  intro w e hw
  by_cases hid : w.id = v.id
  · rw [hid, declared.declare_self v init] at hw
    obtain rfl := Option.some.inj hw
    refine ⟨range, hid ▸ owns.lookup, ?_, owns.count.trans hslots, owns.stop⟩
    rw [SlotTable.get?, hid]
    exact owns.slots
  · rw [declared.declare_of_ne init hid] at hw
    exact hg w e hw

/-- Words that are written to the slots of a variable are there, and those of other variables are as
they were. -/
theorem Gen.Owns.carries_declare {m : Machine lanes} (owns : g.Owns declared v range)
    (carries : g.Carries declared m) (hvalues : init.constantValue? = some values)
    (hlength : (constantBits init.ty values).length = range.count)
    (hsize : range.stop ≤ m.values.size) :
    g.Carries (declared.declare v init)
      (m.overwrite range.index (Words.alike (constantBits init.ty values))) := by
  rw [← Words.length_alike (constantBits init.ty values)] at hlength
  intro w e other others hw hget he
  by_cases hid : w.id = v.id
  · rw [hid, declared.declare_self v init] at hw
    obtain rfl := Option.some.inj hw
    obtain rfl := Option.some.inj (hvalues.symm.trans he)
    have hown : g.values.get? v = some other := by
      rwa [SlotTable.get?, ← hid]
    obtain rfl := Option.some.inj (owns.slots.symm.trans hown)
    rw [← hlength]
    exact m.window_overwrite (by rwa [hlength])
  · rw [declared.declare_of_ne init hid] at hw
    rw [← carries w e other others hw hget he]
    refine Machine.window_congr fun i hi => ?_
    obtain hbefore | hafter := owns.apart w e other hw hid hget
    · refine m.slot_overwrite_of_lt _ ?_
      simp only [SlotRange.stop] at hbefore
      omega
    · refine m.slot_overwrite_of_ge ?_
      rw [hlength]
      simp only [SlotRange.stop] at hafter
      omega

/-- A declaration with an initializer whose code leaves its words. -/
theorem Leaves.declares {ctx : CodeContext}
    (h : Leaves declared (init.operand ctx).push (constantBits init.ty values))
    (hvalues : init.constantValue? = some values) (hlength : values.length = init.ty.slotCount)
    (hslots : v.ty.slotCount = init.ty.slotCount) :
    Declares declared (writeSlots ctx v (some init)) v init := by
  intro g hg admits
  obtain ⟨range, g₁, halloc, hbuilder, himmutable, kept, hothers, owns, hg₁⟩ :=
    valueSlots_admits ctx hg admits
  obtain ⟨g₂, hpush, later, run⟩ := h g₁ hg₁
  let f : Builder → Builder := fun b =>
    if ctx.trace then (b.popSlotsUnmasked range).traceVar range else b.popSlotsUnmasked range
  have hf : ∀ b, (f b).stack = b.stack := by
    intro b
    simp only [f]
    split
    · exact adds_traceVar.stack.trans adds_popSlotsUnmasked.stack
    · exact adds_popSlotsUnmasked.stack
  let g₃ : Gen := { g₂ with builder := f g₂.builder }
  have later₃ : g₁.Later g₃ := later.trans (.of_builder (hf _))
  refine ⟨g₃, ?_, later₃.stack.trans (congrArg Builder.stack hbuilder),
    later₃.immutableVars.trans himmutable, fun w hw => (later₃.get? w).trans (hothers w hw),
    (owns.later later₃).covers_declare (hg₁.later later₃) hslots, ?_⟩
  · refine GenM.bind_eq_ok.2 ⟨range, g₁, halloc, GenM.bind_eq_ok.2 ⟨(), g₂, hpush, ?_⟩⟩
    simp only [g₃, f]
    cases ctx.trace <;> rfl
  · intro lanes r τ hr hτ hb
    have hτ₁ := hτ.of_kept hg kept
    have hcount := owns.count.trans hslots
    have hwords := length_constantBits hlength
    have hstop : range.stop ≤ r.size := (owns.later later₃).stop.trans hr
    rw [← hbuilder] at hb
    obtain ⟨m, same, -, lead⟩ := run r τ hr hτ₁ hb
    have hsize : m.values.size = r.size := lead.size
    rw [← later.stack] at lead
    have hpop := lead.popSlotsUnmasked (by rw [Words.length_alike, hwords, hcount]) hstop
    have hcarries := (owns.later later).carries_declare (hτ₁.later hg₁ later same) hvalues
      (hwords.trans hcount.symm) (hstop.trans hsize.ge)
    show ∃ m, (g₂.Carries _ m ∧ (f g₂.builder).Leads r { τ with memory := m })
    simp only [f]
    split
    · obtain ⟨trace, htrace⟩ := hpop.traceVar hstop
      exact ⟨{ m.overwrite range.index (Words.alike (constantBits init.ty values)) with trace },
        hcarries, htrace⟩
    · exact ⟨_, hcarries, hpop⟩

end Declares

end RasterShader
