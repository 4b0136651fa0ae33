import Mathlib
import RasterShader.Proofs.Codegen.Lvalues

/-!
# Choices of slots, one after the other

A place is narrowed down by slices and swizzles, and each of them may be merged with those before
it: a slice of a slice is a slice, a slice or a swizzle of a swizzle is a swizzle, and components
that follow each other are a slice again.  However they are merged, the place shows the slots that
the choices leave when they are made one by one (`Place.choices_compose`), and no swizzle is of a
swizzle (`Place.Unnested`).
-/

namespace RasterShader

namespace Place

/-! ## Choices -/

/-- A way to choose some of the slots of a place. -/
inductive Choice where
  /-- Consecutive ones. -/
  | slice (offset count : Nat)
  /-- Some in a given order. -/
  | swizzle (components : List Nat)

namespace Choice

/-- The place of the slots that are chosen. -/
def place (p : Place) : Choice → Place
  | slice offset count => p.slice offset count
  | swizzle components => p.swizzle components

/-- There are slots enough to choose from. -/
def Within (slotCount : Nat) : Choice → Prop
  | slice offset count => offset + count ≤ slotCount
  | swizzle components => ∀ c ∈ components, c < slotCount

instance (slotCount : Nat) : (choice : Choice) → Decidable (choice.Within slotCount)
  | slice offset count => inferInstanceAs (Decidable (offset + count ≤ slotCount))
  | swizzle components => inferInstanceAs (Decidable (∀ c ∈ components, c < slotCount))

/-- The slots that are chosen from a list of them. -/
def slots? (slots : List Nat) : Choice → Option (List Nat)
  | slice offset count =>
    if offset + count ≤ slots.length then some ((slots.drop offset).take count) else none
  | swizzle components => components.mapM (slots[·]?)

end Choice

/-- There are slots enough for each choice when those before it have been made. -/
def Admits (p : Place) : List Choice → Prop
  | [] => True
  | choice :: choices => choice.Within p.slotCount ∧ (choice.place p).Admits choices

instance decidableAdmits : (p : Place) → (choices : List Choice) → Decidable (p.Admits choices)
  | _, [] => inferInstanceAs (Decidable True)
  | p, choice :: choices =>
    have := decidableAdmits (choice.place p) choices
    inferInstanceAs (Decidable (choice.Within p.slotCount ∧ (choice.place p).Admits choices))

/-! ## The slots of a place -/

/-- The slots of a place that is not scattered, in order, unless they depend on an offset. -/
def located? (p : Place) : Option (SlotSpace × List Nat) :=
  match p.location with
  | .ok ⟨space, fixed, _, none⟩ => some (space, fixed.slots)
  | _ => none

/-- The slots of a place in order: those at its location, or components of those of its parent. -/
def shown? : Place → Option (SlotSpace × List Nat)
  | scattered parent components => do
    let (space, slots) ← parent.located?
    return (space, ← components.mapM (slots[·]?))
  | p => p.located?

/-- Nowhere in a place are components of components. -/
def Unnested : Place → Prop
  | root .. => True
  | part parent _ _ | element parent _ _ => parent.Unnested
  | scattered (scattered ..) _ => False
  | scattered parent _ => parent.Unnested

variable {space : SlotSpace} {p : Place} {range : SlotRange} {slots components : List Nat}
  {choice : Choice}

/-- A place that stands for a range of slots. -/
def IsRange (space : SlotSpace) (p : Place) (range : SlotRange) : Prop :=
  p.Unnested ∧ ∃ limit, p.location = .ok ⟨space, range, limit, none⟩

/-- A place that stands for given slots: a range of them, or components of a range. -/
inductive Shows (space : SlotSpace) : Place → List Nat → Prop
  | range {p : Place} {range : SlotRange} : IsRange space p range → Shows space p range.slots
  | scattered {p : Place} {range : SlotRange} {components : List Nat} : IsRange space p range →
    (∀ c ∈ components, c < range.count) →
    Shows space (.scattered p components) (components.map (range.index + ·))

theorem mapM_getElem? (inside : ∀ c ∈ components, c < slots.length) :
    components.mapM (slots[·]?) = some (components.map (slots.getD · 0)) := by
  induction components with
  | nil => rfl
  | cons c components ih =>
    obtain ⟨hc, hcomponents⟩ := List.forall_mem_cons.1 inside
    rw [List.mapM_cons, List.getElem?_eq_getElem hc, ih hcomponents, List.map_cons,
      List.getD_eq_getElem _ _ hc]
    rfl

namespace IsRange

theorem root (space : SlotSpace) (range : SlotRange) : IsRange space (.root space range) range :=
  ⟨trivial, _, rfl⟩

theorem located? (h : IsRange space p range) : p.located? = some (space, range.slots) := by
  obtain ⟨-, limit, hlocation⟩ := h
  rw [Place.located?, hlocation]

theorem shown? (h : IsRange space p range) : p.shown? = some (space, range.slots) := by
  cases p with
  | scattered =>
    obtain ⟨-, limit, hlocation⟩ := h
    cases hlocation
  | root | part | element => exact h.located?

theorem slotCount (h : IsRange space p range) : p.slotCount = range.count := by
  obtain ⟨-, limit, hlocation⟩ := h
  exact (count_location hlocation).symm

theorem unnested_scattered (h : IsRange space p range) : (scattered p components).Unnested := by
  obtain ⟨hunnested, limit, hlocation⟩ := h
  cases p with
  | scattered => cases hlocation
  | root | part | element => exact hunnested

theorem narrow (h : IsRange space p range) (offset count : Nat) :
    IsRange space (p.narrow offset count) (range.slice offset count) := by
  obtain ⟨hunnested, limit, hlocation⟩ := h
  refine ⟨?_, limit, location_narrow hlocation offset count⟩
  cases p <;> exact hunnested

/-- Components that follow each other are a range, and others are scattered. -/
theorem pick (h : IsRange space p range) (inside : ∀ c ∈ components, c < range.count) :
    Shows space (p.pick components) (components.map (range.index + ·)) := by
  unfold Place.pick
  split
  · rename_i hconsecutive
    rw [← slots_slice_headD range hconsecutive]
    exact .range (h.narrow _ _)
  · exact .scattered h inside

end IsRange

namespace Shows

theorem slotCount (h : Shows space p slots) : p.slotCount = slots.length := by
  cases h with
  | range h => rw [h.slotCount, SlotRange.length_slots]
  | scattered => rw [List.length_map, Place.slotCount]

theorem shown? (h : Shows space p slots) : p.shown? = some (space, slots) := by
  cases h with
  | range h => exact h.shown?
  | @scattered p range components h inside =>
    have hpicked : components.mapM (range.slots[·]?) =
        some (components.map (range.index + ·)) := by
      rw [mapM_getElem? (by simpa using inside), map_getD_slots inside]
    simp only [Place.shown?, h.located?, Option.bind_eq_bind, Option.bind_some, hpicked]
    rfl

theorem unnested (h : Shows space p slots) : p.Unnested := by
  cases h with
  | range h => exact h.1
  | scattered h => exact h.unnested_scattered

/-- A slice of a place, however it is merged with it. -/
theorem slice {offset count : Nat} (h : Shows space p slots)
    (inside : offset + count ≤ slots.length) :
    Shows space (p.slice offset count) ((slots.drop offset).take count) := by
  cases h with
  | @range _ range h =>
    have hslice : p.slice offset count = p.narrow offset count := by
      obtain ⟨-, limit, hlocation⟩ := h
      cases p with
      | scattered => cases hlocation
      | root | part | element => rfl
    rw [SlotRange.length_slots] at inside
    rw [hslice, ← Plain.slots_slice range inside]
    exact .range (h.narrow offset count)
  | scattered h within =>
    rw [← List.map_drop, ← List.map_take]
    exact h.pick fun c hc => within c (List.mem_of_mem_drop (List.mem_of_mem_take hc))

/-- A swizzle of a place, however it is merged with it. -/
theorem swizzle (h : Shows space p slots) (inside : ∀ c ∈ components, c < slots.length) :
    Shows space (p.swizzle components) (components.map (slots.getD · 0)) := by
  cases h with
  | @range _ range h =>
    have hswizzle : p.swizzle components = p.pick components := by
      obtain ⟨-, limit, hlocation⟩ := h
      cases p with
      | scattered => cases hlocation
      | root | part | element => rfl
    rw [SlotRange.length_slots] at inside
    rw [hswizzle, map_getD_slots inside]
    exact h.pick inside
  | @scattered _ range inner h within =>
    rw [List.length_map] at inside
    rw [map_getD_map (range.index + ·) inside]
    exact h.pick (forall_mem_map_getD inside within)

/-- One choice. -/
theorem choose (h : Shows space p slots) (inside : choice.Within p.slotCount) :
    ∃ chosen, choice.slots? slots = some chosen ∧ Shows space (choice.place p) chosen := by
  rw [h.slotCount] at inside
  cases choice with
  | slice offset count => exact ⟨_, if_pos inside, h.slice inside⟩
  | swizzle components => exact ⟨_, mapM_getElem? inside, h.swizzle inside⟩

/-- All choices, one after the other. -/
theorem chooseAll {choices : List Choice} (h : Shows space p slots) (inside : p.Admits choices) :
    ∃ chosen, choices.foldlM Choice.slots? slots = some chosen ∧
      Shows space (choices.foldl Choice.place p) chosen := by
  induction choices generalizing p slots with
  | nil => exact ⟨slots, rfl, h⟩
  | cons choice choices ih =>
    obtain ⟨hfirst, hrest⟩ := inside
    obtain ⟨chosen, hchosen, hplace⟩ := h.choose hfirst
    rw [List.foldlM_cons, hchosen]
    exact ih hplace hrest

end Shows

/-- The place that choices are merged into shows the slots that they leave one by one, of the slots
of the place that they start from, and is not a swizzle of a swizzle anywhere. -/
theorem choices_compose (space : SlotSpace) (range : SlotRange) (choices : List Choice)
    (h : (root space range).Admits choices) :
    ∃ slots, choices.foldlM Choice.slots? range.slots = some slots ∧
      let p := choices.foldl Choice.place (root space range)
      p.shown? = some (space, slots) ∧ p.slotCount = slots.length ∧ p.Unnested := by
  have hroot : Shows space (root space range) range.slots := .range (.root space range)
  obtain ⟨slots, hslots, hplace⟩ := hroot.chooseAll h
  exact ⟨slots, hslots, hplace.shown?, hplace.slotCount, hplace.unnested⟩

/-- The second slice is of components that follow each other, so that nothing is scattered before
the last swizzle. -/
theorem choices_compose_mixed :
    let choices := [.slice 2 6, .swizzle [5, 0, 1, 2], .slice 1 3, .swizzle [2, 0]]
    (root .value ⟨10, 8⟩).Admits choices ∧
      choices.foldl Choice.place (root .value ⟨10, 8⟩) =
        .scattered (.part (.root .value ⟨10, 8⟩) 2 3) [2, 0] ∧
      (choices.foldl Choice.place (root .value ⟨10, 8⟩)).shown? = some (.value, [14, 12]) := by
  intro choices
  have hadmits : (root .value ⟨10, 8⟩).Admits choices := by decide
  obtain ⟨slots, hslots, hshown, -⟩ := choices_compose .value ⟨10, 8⟩ choices hadmits
  obtain rfl : [14, 12] = slots := Option.some.inj hslots
  exact ⟨hadmits, rfl, hshown⟩

end Place

end RasterShader
