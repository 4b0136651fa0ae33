import Mathlib
import RasterShader.Codegen.Place
import RasterShader.Proofs.Machine.Slots

/-!
# What places of constants look like

The place of a part of a variable, or of a computed value, is a range of value slots, or some slots
of a range in another order (`Place.Views`).  Slices and swizzles of such a place are such places
again, and show the slots that they choose (`Place.Views.slice`, `Place.Views.swizzle`).
-/

namespace RasterShader

variable {lanes : Nat}

/-- The slots of a range, in order. -/
def SlotRange.slots (range : SlotRange) : List Nat := List.range' range.index range.count

@[simp] theorem SlotRange.length_slots (range : SlotRange) : range.slots.length = range.count :=
  List.length_range'

theorem SlotRange.mem_slots {range : SlotRange} {i : Nat} :
    i ∈ range.slots ↔ range.index ≤ i ∧ i < range.stop := List.mem_range'_1

/-- The words of consecutive slots. -/
theorem Machine.window_eq_map (m : Machine lanes) (range : SlotRange) :
    m.window range.index range.count = range.slots.map m.slot := by
  simp [window, SlotRange.slots, List.range'_eq_map_range, Function.comp_def]

namespace Place

variable {p : Place} {range : SlotRange} {slots components : List Nat} {limit offset count : Nat}

/-- Components that follow each other are those from the first on. -/
theorem eq_map_of_isConsecutive (h : isConsecutive components = true) :
    components = (List.range components.length).map (components.headD 0 + ·) := eq_of_beq h

theorem headD_add_length_le (h : isConsecutive components = true)
    (inside : ∀ c ∈ components, c < count) : components.headD 0 + components.length ≤ count := by
  rcases Nat.eq_zero_or_pos components.length with hzero | hpos
  · simp [List.length_eq_zero_iff.1 hzero]
  · have hlast : components.headD 0 + (components.length - 1) ∈ components := by
      have hlisted : components.headD 0 + (components.length - 1) ∈
          (List.range components.length).map (components.headD 0 + ·) :=
        List.mem_map_of_mem (List.mem_range.2 (by omega))
      rwa [← eq_map_of_isConsecutive h] at hlisted
    have := inside _ hlast
    omega

/-- Components of a range that follow each other are a part of it. -/
theorem slots_slice_headD (range : SlotRange) (h : isConsecutive components = true) :
    (range.slice (components.headD 0) components.length).slots =
      components.map (range.index + ·) := by
  conv_rhs => rw [eq_map_of_isConsecutive h]
  simp [SlotRange.slots, SlotRange.slice, List.range'_eq_map_range, Function.comp_def,
    Nat.add_assoc]

theorem map_getD_slots (inside : ∀ c ∈ components, c < range.count) :
    components.map (range.slots.getD · 0) = components.map (range.index + ·) := by
  refine List.map_congr_left fun c hc => ?_
  simp [SlotRange.slots, List.getD_eq_getElem?_getD, inside c hc]

/-- Components of components. -/
theorem map_getD_map {inner : List Nat} (f : Nat → Nat)
    (inside : ∀ c ∈ components, c < inner.length) :
    components.map ((inner.map f).getD · 0) = (components.map (inner.getD · 0)).map f := by
  rw [List.map_map]
  refine List.map_congr_left fun c hc => ?_
  simp [List.getD_eq_getElem?_getD, inside c hc]

theorem forall_mem_map_getD {inner : List Nat} {P : Nat → Prop}
    (inside : ∀ c ∈ components, c < inner.length) (within : ∀ c ∈ inner, P c) :
    ∀ c ∈ components.map (inner.getD · 0), P c := by
  intro c hc
  obtain ⟨i, hi, rfl⟩ := List.mem_map.1 hc
  rw [List.getD_eq_getElem _ _ (inside i hi)]
  exact within _ (List.getElem_mem _)

/-- A place is a range of value slots: all of a variable, or consecutive ones of it. -/
inductive Plain : Place → SlotRange → Prop
  | root (range : SlotRange) : Plain (.root .value range) range
  | part (range : SlotRange) (offset count : Nat) :
    Plain (.part (.root .value range) offset count) (range.slice offset count)

/-- A place shows given ones of the first `limit` value slots: those of a range, or some of a short
range in another order. -/
inductive Views (limit : Nat) : Place → List Nat → Prop
  | plain {p : Place} {range : SlotRange} (plain : Plain p range) (below : range.stop ≤ limit) :
    Views limit p range.slots
  | scattered {p : Place} {range : SlotRange} {components : List Nat} (plain : Plain p range)
    (below : range.stop ≤ limit) (short : range.count ≤ 16) (few : components.length ≤ 16)
    (inside : ∀ c ∈ components, c < range.count) :
    Views limit (.scattered p components) (components.map (range.index + ·))

namespace Plain

theorem slotCount (h : Plain p range) : p.slotCount = range.count := by
  cases h <;> rfl

theorem location (h : Plain p range) :
    ∃ limit, p.location = .ok ⟨.value, range, limit, none⟩ := by
  cases h <;> exact ⟨_, rfl⟩

theorem offsetStacks (h : Plain p range) : p.offsetStacks = [] := by
  cases h <;> rfl

theorem narrow (h : Plain p range) (offset count : Nat) :
    Plain (p.narrow offset count) (range.slice offset count) := by
  cases h with
  | root range => exact .part range offset count
  | part range start n =>
    have hslice : (range.slice start n).slice offset count = range.slice (start + offset) count := by
      simp [SlotRange.slice, Nat.add_assoc]
    rw [hslice]
    exact .part range (start + offset) count

theorem slots_slice (range : SlotRange) (h : offset + count ≤ range.count) :
    (range.slice offset count).slots = (range.slots.drop offset).take count := by
  apply List.ext_getElem
  · simp [SlotRange.slice]
    omega
  · intro i hi hi'
    simp [SlotRange.slots, SlotRange.slice, Nat.add_assoc]

theorem stop_slice_le (below : range.stop ≤ limit) (h : offset + count ≤ range.count) :
    (range.slice offset count).stop ≤ limit := by
  simp only [SlotRange.slice, SlotRange.stop] at below ⊢
  omega

/-- Components of a short range. -/
theorem pick (h : Plain p range) (below : range.stop ≤ limit) (short : range.count ≤ 16)
    (few : components.length ≤ 16) (inside : ∀ c ∈ components, c < range.count) :
    Views limit (p.pick components) (components.map (range.index + ·)) := by
  unfold Place.pick
  split
  · rename_i hconsecutive
    rw [← slots_slice_headD range hconsecutive]
    exact .plain (h.narrow _ _)
      (stop_slice_le below (headD_add_length_le hconsecutive inside))
  · exact .scattered h below short few inside

end Plain

namespace Views

theorem mono {more : Nat} (h : Views limit p slots) (hle : limit ≤ more) : Views more p slots := by
  cases h with
  | plain h below => exact .plain h (below.trans hle)
  | scattered h below short few inside => exact .scattered h (below.trans hle) short few inside

theorem offsetStacks (h : Views limit p slots) : p.offsetStacks = [] := by
  cases h with
  | plain h => exact h.offsetStacks
  | scattered h => exact h.offsetStacks

/-- Consecutive ones of the slots of a place. -/
theorem slice (h : Views limit p slots) (inside : offset + count ≤ slots.length) :
    Views limit (p.slice offset count) ((slots.drop offset).take count) := by
  cases h with
  | plain h below =>
    rw [SlotRange.length_slots] at inside
    have hslice : p.slice offset count = p.narrow offset count := by cases h <;> rfl
    rw [hslice, ← Plain.slots_slice _ inside]
    exact .plain (h.narrow offset count) (Plain.stop_slice_le below inside)
  | scattered h below short few within =>
    rw [← List.map_drop, ← List.map_take]
    refine h.pick below short ?_ fun c hc =>
      within c (List.mem_of_mem_drop (List.mem_of_mem_take hc))
    rw [List.length_take, List.length_drop]
    omega

/-- Some of a few slots of a place, in any order. -/
theorem swizzle (h : Views limit p slots) (short : slots.length ≤ 16) (few : components.length ≤ 16)
    (inside : ∀ c ∈ components, c < slots.length) :
    Views limit (p.swizzle components) (components.map (slots.getD · 0)) := by
  cases h with
  | @plain _ range h below =>
    rw [SlotRange.length_slots] at short inside
    have hswizzle : p.swizzle components = p.pick components := by cases h <;> rfl
    rw [hswizzle, map_getD_slots inside]
    exact h.pick below short few inside
  | @scattered p range inner h below short' few' within =>
    rw [List.length_map] at inside
    rw [map_getD_map (range.index + ·) inside]
    exact h.pick below short' (by rwa [List.length_map]) (forall_mem_map_getD inside within)

end Views

end Place

end RasterShader
