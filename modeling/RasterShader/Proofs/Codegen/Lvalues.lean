import Mathlib
import RasterShader.Codegen.Statement
import RasterShader.Proofs.Codegen.Access
import RasterShader.Proofs.Codegen.Program
import RasterShader.Proofs.Codegen.Views
import RasterShader.Proofs.Constant.Layout

/-!
# The slots of an lvalue

An lvalue selects a part of a variable through fields, elements and swizzles (`Expr.Selects`).
Which slots it has is a matter of types (`Expr.slotsIn`), unless an index is computed at run time:
then all that is known beforehand are the slots of what the first such index is applied to
(`Expr.slotsReached`).

`Expr.PlacedAt` relates an lvalue to the place that code generation finds for it, one step of the
path to the variable after the other (`Expr.Selects.placedAt`).  It follows that reading and storing
stay within the reach of the lvalue (`Expr.Selects.stays_inside`), and that a value is read back as
it was stored wherever both are limited to the same slots (`Expr.Selects.reads_back`).
-/

namespace RasterShader

/-! ## Parts of places -/

namespace Place

variable {l : Location} {p : Place} {components chosen : List Nat} {offset count : Nat}

theorem location_narrow (h : p.location = .ok l) (offset count : Nat) :
    (p.narrow offset count).location = .ok { l with fixed := l.fixed.slice offset count } := by
  have hpart : ∀ q : Place, q.location = .ok l →
      (q.part offset count).location = .ok { l with fixed := l.fixed.slice offset count } := by
    intro q hq
    simp only [location, hq]
    rfl
  cases p with
  | part parent start n =>
    cases hparent : parent.location with
    | error e => simp [location, hparent, bind, Except.bind] at h
    | ok l' =>
      simp only [location, hparent, bind, Except.bind, pure, Except.pure] at h
      obtain rfl := Except.ok.inj h
      simp only [narrow, location, hparent, bind, Except.bind, pure, Except.pure, SlotRange.slice,
        Nat.add_assoc]
  | scattered => cases h
  | root => exact hpart _ h
  | element => exact hpart _ h

/-- A place shows the given slots, which are components at a location that differs from another one
only in lying within it. -/
def ShowsWithin (l : Location) (p : Place) (slots : List Nat) : Prop :=
  ∃ fixed components, Picks { l with fixed } p components ∧
    l.fixed.index ≤ fixed.index ∧ fixed.stop ≤ l.fixed.stop ∧
    components.map (fixed.index + ·) = slots

theorem showsWithin_narrow (h : p.location = .ok l) (hle : offset + count ≤ l.fixed.count) :
    ShowsWithin l (p.narrow offset count) (l.fixed.slice offset count).slots := by
  refine ⟨_, _, .all (location_narrow h offset count), ?_, ?_, ?_⟩
  · simp [SlotRange.slice]
  · simp only [SlotRange.slice, SlotRange.stop]
    omega
  · simp [SlotRange.slots, SlotRange.slice, List.range'_eq_map_range]

/-- Some components at a location. -/
theorem showsWithin_pick (h : p.location = .ok l) (few : components.length ≤ 8)
    (inside : ∀ c ∈ components, c < l.fixed.count ∧ c < 16) :
    ShowsWithin l (p.pick components) (components.map (l.fixed.index + ·)) := by
  unfold pick
  split
  · rename_i hconsecutive
    have hle := headD_add_length_le hconsecutive fun c hc => (inside c hc).1
    rw [← slots_slice_headD l.fixed hconsecutive]
    exact showsWithin_narrow h hle
  · rename_i hconsecutive
    have several : 0 < components.length := by
      by_contra hzero
      rw [List.length_eq_zero_iff.1 (Nat.eq_zero_of_not_pos hzero)] at hconsecutive
      exact hconsecutive rfl
    exact ⟨l.fixed, components, .some h several few inside, le_rfl, le_rfl, rfl⟩

namespace Picks

/-- Consecutive ones of the slots of a place. -/
theorem slice (h : Picks l p components) (hle : offset + count ≤ components.length) :
    ShowsWithin l (p.slice offset count)
      (((components.map (l.fixed.index + ·)).drop offset).take count) := by
  cases h with
  | all location =>
    have hslice : p.slice offset count = p.narrow offset count := by
      cases p with
      | scattered => cases location
      | _ => rfl
    rw [List.length_range] at hle
    have hslots : ((List.range l.fixed.count).map (l.fixed.index + ·)) = l.fixed.slots := by
      simp [SlotRange.slots, List.range'_eq_map_range]
    rw [hslice, hslots, ← Plain.slots_slice _ hle]
    exact showsWithin_narrow location hle
  | some location several few inside =>
    rw [← List.map_drop, ← List.map_take]
    refine showsWithin_pick location ?_ fun c hc =>
      inside c (List.mem_of_mem_drop (List.mem_of_mem_take hc))
    rw [List.length_take, List.length_drop]
    omega

/-- Some of a few slots of a place, in any order. -/
theorem swizzle (h : Picks l p components) (short : components.length ≤ 16)
    (few : chosen.length ≤ 8) (inside : ∀ c ∈ chosen, c < components.length) :
    ShowsWithin l (p.swizzle chosen)
      (chosen.map ((components.map (l.fixed.index + ·)).getD · 0)) := by
  cases h with
  | all location =>
    have hswizzle : p.swizzle chosen = p.pick chosen := by
      cases p with
      | scattered => cases location
      | _ => rfl
    rw [List.length_range] at short inside
    have hslots : chosen.map (((List.range l.fixed.count).map (l.fixed.index + ·)).getD · 0) =
        chosen.map (l.fixed.index + ·) := by
      refine List.map_congr_left fun c hc => ?_
      rw [List.getD_eq_getElem _ _ (by simpa using inside c hc)]
      simp
    rw [hswizzle, hslots]
    exact showsWithin_pick location few fun c hc => ⟨inside c hc, (inside c hc).trans_le short⟩
  | @some parent components location several few' within =>
    rw [map_getD_map (l.fixed.index + ·) inside]
    exact showsWithin_pick location (by rwa [List.length_map]) (forall_mem_map_getD inside within)

/-- An element can be chosen at run time of a place that is not scattered. -/
theorem of_offsetStack? (h : Picks l p components) {stack : Option Int}
    (hstack : p.offsetStack? = .ok stack) :
    p.location = .ok l ∧ components = List.range l.fixed.count := by
  cases h with
  | all location => exact ⟨location, rfl⟩
  | some location => cases hstack

end Picks

theorem location_element (h : p.location = .ok l) (count : Nat) (stack : Int) :
    (p.element count stack).location = .ok ⟨l.space, ⟨l.fixed.index, count⟩,
      if l.offsetStack.isSome then l.limit else l.fixed.stop, some stack⟩ := by
  simp only [location, h]
  rfl

end Place

/-! ## Lvalues -/

theorem Ty.slotCount_element {ty element : Ty} {count : Nat}
    (helement : Typing.elementType? ty = some element)
    (hcount : Typing.elementCount? ty = some count) :
    ty.slotCount = count * element.slotCount := by
  have h := congrArg List.length (slotKinds_element helement hcount)
  simpa [length_slotKinds] using h

namespace Expr

/-- The expression selects a part of a variable, through fields, elements and swizzles.  Of every
array that an element is taken of it is known how many elements it has, and there are some. -/
inductive Selects (v : Variable) : Expr → Prop
  | reference {h : Expr.Head} {init : Option Expr} {ref : RefKind} (type : h.ty = v.ty) :
    Selects v (.reference h v init ref)
  | field {h : Expr.Head} {base : Expr} {i : Nat} {f : Field} (selects : Selects v base)
    (member : base.ty.fields[i]? = some f) (type : h.ty = f.ty) : Selects v (.field h base i)
  | index {h : Expr.Head} {base i : Expr} {count : Nat} (selects : Selects v base)
    (type : Typing.elementType? base.ty = some h.ty)
    (size : Typing.elementCount? base.ty = some count) (pos : 0 < count) :
    Selects v (.index h base i)
  | swizzle {h : Expr.Head} {base : Expr} {components : List Nat} (selects : Selects v base)
    (short : base.ty.slotCount ≤ 4) (few : components.length ≤ 4)
    (inside : ∀ c ∈ components, c < base.ty.slotCount)
    (type : h.ty.slotCount = components.length) : Selects v (.swizzle h base components)

/-- What the dynamic index nearest to the variable is applied to, if there is a dynamic index. -/
def indexed? : Expr → Option Expr
  | field _ base _ | swizzle _ base _ => base.indexed?
  | index _ base i => base.indexed?.or (if i.constantInt?.isNone then some base else none)
  | _ => none

/-- The slots of an lvalue without dynamic indices, given those of the variable.  Constant indices
are kept within the bounds. -/
def slotsIn (root : SlotRange) : Expr → List Nat
  | field h base i =>
    ((base.slotsIn root).drop (base.ty.fieldSlotOffset i)).take h.ty.slotCount
  | index h base i =>
    let elements := base.ty.slotCount / max h.ty.slotCount 1
    let first := min ((i.constantInt?.getD 0).toNat) (elements - 1) * h.ty.slotCount
    ((base.slotsIn root).drop first).take h.ty.slotCount
  | swizzle _ base components => components.map ((base.slotsIn root).getD · 0)
  | _ => root.slots

/-- The slots that an lvalue may reach: its own, or those of what the dynamic index nearest to the
variable is applied to. -/
def slotsReached (root : SlotRange) (e : Expr) : List Nat := (e.indexed?.getD e).slotsIn root

/-- No swizzle on the way to the variable names a component twice. -/
def NamesOnce : Expr → Prop
  | field _ base _ | index _ base _ => base.NamesOnce
  | swizzle _ base components => components.Nodup ∧ base.NamesOnce
  | _ => True

/-- A place is that of an lvalue, given the slots of the variable.  Without dynamic indices it
consists of just the slots of the lvalue.  Otherwise it is moved by an offset, within the slots of
what the first dynamic index is applied to. -/
structure PlacedAt (e : Expr) (space : SlotSpace) (root : SlotRange) (p : Place) (l : Location)
    (components : List Nat) : Prop where
  picks : Place.Picks l p components
  space : l.space = space
  width : components.length = e.ty.slotCount
  once : e.NamesOnce → components.Nodup
  index : root.index ≤ l.fixed.index
  stop : l.fixed.stop ≤ root.stop
  static : e.indexed? = none →
    l.offsetStack = none ∧ components.map (l.fixed.index + ·) = e.slotsIn root
  dynamic : ∀ base, e.indexed? = some base → l.offsetStack.isSome = true ∧ ∃ part : SlotRange,
    base.slotsIn root = part.slots ∧ l.Within part ∧ root.index ≤ part.index ∧
      part.stop ≤ root.stop

namespace PlacedAt

variable {e base : Expr} {space : SlotSpace} {root : SlotRange} {p q : Place} {l : Location}
  {components slots : List Nat}

/-- An lvalue that shows some of the slots of another one, chosen at compile time. -/
theorem of_showsWithin (h : base.PlacedAt space root p l components)
    (shows : Place.ShowsWithin l q slots) (hindexed : e.indexed? = base.indexed?)
    (width : slots.length = e.ty.slotCount)
    (once : e.NamesOnce → base.NamesOnce ∧
      ((components.map (l.fixed.index + ·)).Nodup → slots.Nodup))
    (static : components.map (l.fixed.index + ·) = base.slotsIn root → slots = e.slotsIn root) :
    ∃ l' components', e.PlacedAt space root q l' components' := by
  obtain ⟨fixed, chosen, picks, hindex, hstop, rfl⟩ := shows
  rw [List.length_map] at width
  have nodup_iff (cs : List Nat) (k : Nat) : (cs.map (k + ·)).Nodup ↔ cs.Nodup :=
    List.nodup_map_iff fun a b hab => Nat.add_left_cancel hab
  refine ⟨{ l with fixed }, chosen, picks, h.space, width, ?_, h.index.trans hindex,
    hstop.trans h.stop, ?_, ?_⟩
  · intro honce
    obtain ⟨hbase, hslots⟩ := once honce
    exact (nodup_iff _ _).1 (hslots ((nodup_iff _ _).2 (h.once hbase)))
  · intro hnone
    obtain ⟨hoffset, hslots⟩ := h.static (hindexed ▸ hnone)
    exact ⟨hoffset, static hslots⟩
  · intro inner hinner
    obtain ⟨hoffset, part, hslots, within, hpart⟩ := h.dynamic inner (hindexed ▸ hinner)
    refine ⟨hoffset, part, hslots, ⟨?_, ?_, within.limit⟩, hpart⟩
    · exact within.index.trans hindex
    · exact hstop.trans within.stop

theorem slots_length (h : base.PlacedAt space root p l components) :
    (components.map (l.fixed.index + ·)).length = base.ty.slotCount := by
  rw [List.length_map, h.width]

/-- An element that is chosen at run time. -/
theorem element {h : Expr.Head} {i : Expr} (hbase : base.PlacedAt space root p l components)
    (hi : i.constantInt? = none) (hle : h.ty.slotCount ≤ base.ty.slotCount)
    {parentStack : Option Int} (hparent : p.offsetStack? = .ok parentStack) (stack : Int) :
    ∃ l' components', (Expr.index h base i).PlacedAt space root (p.element h.ty.slotCount stack)
      l' components' := by
  obtain ⟨location, rfl⟩ := hbase.picks.of_offsetStack? hparent
  have hcount : l.fixed.count = base.ty.slotCount := by
    have := hbase.width
    rwa [List.length_range] at this
  have hstop : l.fixed.index + h.ty.slotCount ≤ l.fixed.stop := by
    rw [SlotRange.stop, hcount]
    omega
  refine ⟨_, _, .all (Place.location_element location h.ty.slotCount stack), hbase.space, ?_, ?_,
    hbase.index, hstop.trans hbase.stop, ?_, ?_⟩
  · simp [Expr.ty, Expr.head]
  · exact fun _ => List.nodup_range
  · simp [indexed?, hi]
  · intro inner hinner
    refine ⟨rfl, ?_⟩
    cases hindexed : base.indexed? with
    | none =>
      -- the first dynamic index
      obtain rfl : base = inner := by simpa [indexed?, hindexed, hi] using hinner
      obtain ⟨hoffset, hslots⟩ := hbase.static hindexed
      refine ⟨l.fixed, ?_, ⟨le_rfl, hstop, ?_⟩, hbase.index, hbase.stop⟩
      · rw [← hslots]
        simp [SlotRange.slots, List.range'_eq_map_range]
      · simp [hoffset]
    | some first =>
      obtain rfl : first = inner := by simpa [indexed?, hindexed] using hinner
      obtain ⟨hoffset, part, hslots, within, hpart⟩ := hbase.dynamic first hindexed
      refine ⟨part, hslots, ⟨within.index, hstop.trans within.stop, ?_⟩, hpart⟩
      simp [hoffset, within.limit]

end PlacedAt

end Expr

namespace Gen

open GenM

variable {W : Widths} {g g' : Gen}

/-- The place of a variable has the slots of its type. -/
theorem exists_root_of_variablePlace {ctx : CodeContext} {v : Variable} {p : Place}
    (agrees : g.Agrees W) (identity : v.ty.slotCount = W.slots v.id)
    (h : variablePlace ctx v g = .ok (p, g')) :
    ∃ space root, p = .root space root ∧ root.count = v.ty.slotCount := by
  unfold variablePlace at h
  by_cases heffect : v.ty.isEffect = true
  · simp only [heffect, if_true] at h
    obtain ⟨_, _, hthrow, -⟩ := bind_eq_ok.1 h
    exact absurd hthrow throw_ne_ok
  simp only [heffect, Bool.false_eq_true, if_false] at h
  by_cases hcoord : isFragCoord v = true
  · simp only [hcoord, if_true] at h
    obtain ⟨range, g₁, hrange, h⟩ := bind_eq_ok.1 h
    obtain ⟨_, g₂, -, h⟩ := bind_eq_ok.1 h
    obtain ⟨rfl, -⟩ := pure_eq_ok.1 h
    exact ⟨_, range, rfl, (affects_scratch v.ty g range g₁ agrees hrange).2⟩
  simp only [hcoord, Bool.false_eq_true, if_false] at h
  obtain ⟨read, g₁, hget, h⟩ := bind_eq_ok.1 h
  obtain ⟨hread, hg₁⟩ := get_eq_ok.1 hget
  rw [hread, hg₁] at h
  cases hlookup : g.immutableVars.lookup v.id with
  | some range =>
    simp only [hlookup] at h
    obtain ⟨rfl, -⟩ := pure_eq_ok.1 h
    exact ⟨_, range, rfl, (agrees.immutableVars _ (mem_of_lookup hlookup)).trans identity.symm⟩
  | none =>
    simp only [hlookup] at h
    by_cases huniform : v.isUniform = true
    · simp only [huniform, if_true] at h
      obtain ⟨range, g₂, hrange, h⟩ := bind_eq_ok.1 h
      obtain ⟨rfl, -⟩ := pure_eq_ok.1 h
      refine ⟨_, range, rfl, ?_⟩
      exact ((affects_uniformSlots ctx identity g range g₂ agrees hrange).2).trans identity.symm
    · simp only [huniform, Bool.false_eq_true, if_false] at h
      obtain ⟨range, g₂, hrange, h⟩ := bind_eq_ok.1 h
      have hcount := (affects_valueSlots ctx identity g range g₂ agrees hrange).2
      by_cases hcolor : isFragColor v = true
      · simp only [hcolor, if_true] at h
        obtain ⟨_, g₃, -, h⟩ := bind_eq_ok.1 h
        obtain ⟨rfl, -⟩ := pure_eq_ok.1 h
        exact ⟨_, range, rfl, hcount.trans identity.symm⟩
      · simp only [hcolor, Bool.false_eq_true, if_false] at h
        obtain ⟨rfl, -⟩ := pure_eq_ok.1 h
        exact ⟨_, range, rfl, hcount.trans identity.symm⟩

/-- What is found for an element chosen at run time. -/
theorem elementPlace_eq_ok {parent p : Place} {pushIndex : GenM Unit} {stride : Nat}
    (h : elementPlace parent pushIndex stride g = .ok (p, g')) :
    ∃ parentStack stack, parent.offsetStack? = .ok parentStack ∧
      p = .element parent stride stack := by
  obtain ⟨parentStack, g₁, hparent, h⟩ := bind_eq_ok.1 h
  obtain ⟨stack, g₂, -, h⟩ := bind_eq_ok.1 h
  obtain ⟨_, g₃, -, h⟩ := bind_eq_ok.1 h
  obtain ⟨rfl, -⟩ := pure_eq_ok.1 h
  exact ⟨parentStack, stack, (lift_eq_ok.1 hparent).1, rfl⟩

end Gen

namespace Expr

open Gen GenM

variable {W : Widths} {g g' : Gen} {v : Variable} {e : Expr} {p : Place}

/-- The place that code generation finds for an lvalue is that of the lvalue. -/
theorem Selects.placedAt (h : e.Selects v) {ctx : CodeContext} (agrees : g.Agrees W)
    (identity : v.ty.slotCount = W.slots v.id) (found : (e.operand ctx).place g = .ok (p, g')) :
    ∃ space root g₁, variablePlace ctx v g = .ok (.root space root, g₁) ∧
      root.count = v.ty.slotCount ∧ ∃ l components, e.PlacedAt space root p l components := by
  induction h generalizing p g' with
  | @reference h init ref type =>
    rw [operand] at found
    obtain ⟨space, root, rfl, hcount⟩ := exists_root_of_variablePlace agrees identity found
    refine ⟨space, root, g', found, hcount, _, _, .all rfl, rfl, ?_, fun _ => List.nodup_range,
      le_rfl, le_rfl, fun _ => ⟨rfl, ?_⟩, fun base h => absurd h.symm (Option.some_ne_none base)⟩
    · rw [List.length_range, hcount, ← type]
      rfl
    · simp [slotsIn, SlotRange.slots, List.range'_eq_map_range]
  | @field h base i f selects member type ih =>
    rw [operand] at found
    obtain ⟨parent, g₁, hparent, hpure⟩ := bind_eq_ok.1 found
    obtain ⟨rfl, -⟩ := pure_eq_ok.1 hpure
    obtain ⟨space, root, g₂, hroot, hcount, l, components, hbase⟩ := ih hparent
    refine ⟨space, root, g₂, hroot, hcount, ?_⟩
    have hle : base.ty.fieldSlotOffset i + h.ty.slotCount ≤ components.length := by
      rw [hbase.width, type]
      exact Ty.fieldSlotOffset_add_le member
    refine hbase.of_showsWithin (hbase.picks.slice hle) rfl ?_ ?_ ?_
    · rw [List.length_take, List.length_drop, List.length_map]
      show min h.ty.slotCount _ = h.ty.slotCount
      omega
    · exact fun once => ⟨once, fun nodup =>
        (nodup.sublist (List.drop_sublist ..)).sublist (List.take_sublist ..)⟩
    · intro hslots
      rw [hslots, slotsIn]
  | @index h base i count selects type size pos ih =>
    rw [operand] at found
    obtain ⟨parent, g₁, hparent, hfound⟩ := bind_eq_ok.1 found
    obtain ⟨space, root, g₂, hroot, hcount, l, components, hbase⟩ := ih hparent
    refine ⟨space, root, g₂, hroot, hcount, ?_⟩
    have helements := Ty.slotCount_element type size
    cases hi : i.constantInt? with
    | none =>
      simp only [hi] at hfound
      obtain ⟨parentStack, stack, hstack, rfl⟩ := elementPlace_eq_ok hfound
      refine hbase.element hi ?_ hstack stack
      rw [helements]
      exact Nat.le_mul_of_pos_left _ pos
    | some k =>
      simp only [hi] at hfound
      obtain ⟨rfl, -⟩ := pure_eq_ok.1 hfound
      have hle := constantOffset_add_le (i := k.toNat) helements pos
      have hslots : (operand ctx base).slots = base.ty.slotCount := by
        rw [Operand.slots, operand_ty]
      rw [hslots]
      refine hbase.of_showsWithin (hbase.picks.slice (by rwa [hbase.width])) ?_ ?_ ?_ ?_
      · simp [indexed?, hi]
      · rw [List.length_take, List.length_drop, hbase.slots_length]
        show min h.ty.slotCount _ = h.ty.slotCount
        omega
      · exact fun once => ⟨once, fun nodup =>
          (nodup.sublist (List.drop_sublist ..)).sublist (List.take_sublist ..)⟩
      · intro hslots
        rw [hslots, slotsIn, hi]
        rfl
  | @swizzle h base chosen selects short few inside type ih =>
    have hplace : (operand ctx (.swizzle h base chosen)).place =
        (do return (← (operand ctx base).place).swizzle chosen) := by
      rw [operand]
      split <;> rfl
    rw [hplace] at found
    obtain ⟨parent, g₁, hparent, hpure⟩ := bind_eq_ok.1 found
    obtain ⟨rfl, -⟩ := pure_eq_ok.1 hpure
    obtain ⟨space, root, g₂, hroot, hcount, l, components, hbase⟩ := ih hparent
    refine ⟨space, root, g₂, hroot, hcount, ?_⟩
    have hinside : ∀ c ∈ chosen, c < components.length := by
      rw [hbase.width]
      exact inside
    refine hbase.of_showsWithin (hbase.picks.swizzle (by rw [hbase.width]; omega) (by omega)
      hinside) rfl ?_ ?_ ?_
    · rw [List.length_map]
      exact type.symm
    · refine fun once => ⟨once.2, fun nodup => once.1.map_on fun c hc d hd hcd => ?_⟩
      have hlength := hbase.slots_length
      rw [List.getD_eq_getElem _ _ (by rw [hlength]; exact inside c hc),
        List.getD_eq_getElem _ _ (by rw [hlength]; exact inside d hd)] at hcd
      exact (nodup.getElem_inj_iff).1 hcd
    · intro hslots
      rw [hslots, slotsIn]

/-- What an lvalue may reach are slots of the variable. -/
theorem PlacedAt.slotsReached_subset {space : SlotSpace} {root : SlotRange} {l : Location}
    {components : List Nat} (h : e.PlacedAt space root p l components) :
    e.slotsReached root ⊆ root.slots := by
  intro slot hslot
  have hindex := h.index
  have hstop := h.stop
  rw [SlotRange.mem_slots]
  cases hindexed : e.indexed? with
  | none =>
    rw [slotsReached, hindexed, Option.getD_none, ← (h.static hindexed).2] at hslot
    obtain ⟨c, hc, rfl⟩ := List.mem_map.1 hslot
    have hlt := h.picks.lt_count c hc
    simp only [SlotRange.stop] at hstop ⊢
    omega
  | some base =>
    obtain ⟨-, part, hpart, -, hfirst, hlast⟩ := h.dynamic base hindexed
    rw [slotsReached, hindexed, Option.getD_some, hpart, SlotRange.mem_slots] at hslot
    omega

/-- Wherever an offset moves them to, slots at the location of an lvalue are in the variable, and in
the reach of the lvalue if there is an offset. -/
theorem PlacedAt.start_add_mem {space : SlotSpace} {root : SlotRange} {l : Location}
    {components : List Nat} (h : e.PlacedAt space root p l components) {width : Nat}
    (hwidth : width ≤ l.fixed.count) (offset : UInt32) {i : Nat} (hi : i < width) :
    l.start offset width + i ∈ root.slots ∧
      (e.indexed?.isSome = true → l.start offset width + i ∈ e.slotsReached root) := by
  cases hindexed : e.indexed? with
  | none =>
    have hindex := h.index
    have hstop := h.stop
    rw [Location.start, (h.static hindexed).1, SlotRange.mem_slots]
    simp only [SlotRange.stop] at hstop ⊢
    exact ⟨⟨by omega, by omega⟩, fun h => absurd h Bool.false_ne_true⟩
  | some base =>
    obtain ⟨-, part, hpart, within, -⟩ := h.dynamic base hindexed
    obtain ⟨hfirst, hlast⟩ := within.start_mem hwidth offset
    have hmem : l.start offset width + i ∈ e.slotsReached root := by
      rw [slotsReached, hindexed, Option.getD_some, hpart, SlotRange.mem_slots]
      omega
    exact ⟨h.slotsReached_subset hmem, fun _ => hmem⟩

/-- The slots of an lvalue, moved by an offset or not, are in its reach. -/
theorem PlacedAt.component_mem {space : SlotSpace} {root : SlotRange} {l : Location}
    {components : List Nat} (h : e.PlacedAt space root p l components) {width : Nat}
    (hwidth : width ≤ l.fixed.count) (offset : UInt32) {c : Nat} (hc : c ∈ components)
    (hlt : c < width) : l.start offset width + c ∈ e.slotsReached root := by
  cases hindexed : e.indexed? with
  | none =>
    obtain ⟨hoffset, hslots⟩ := h.static hindexed
    rw [slotsReached, hindexed, Option.getD_none, ← hslots, Location.start, hoffset]
    exact List.mem_map_of_mem hc
  | some base => exact (h.start_add_mem hwidth offset hlt).2 (by rw [hindexed]; rfl)

end Expr

/-- In every lane, words of given slots of a memory are pushed, as many as `count`. -/
def StackMachine.ReadsFrom (space : SlotSpace) (slots : List Nat) (count : Nat) {lanes : Nat}
    (_ : Bool) (batch : Batch lanes) (s : Int) (σ τ : StackMachine lanes) : Prop :=
  ∃ addresses : List (Fin lanes → Nat), addresses.length = count ∧
    (∀ address ∈ addresses, ∀ lane, address lane ∈ slots) ∧
    τ = σ.push s (addresses.map fun address => Vector.ofFn fun lane =>
      σ.memory.read batch space (address lane) lane)

/-- With `count` words on top of the stack, which stay there, nothing is written but to given slots,
and nothing at all in lanes that do not execute if stores are masked. -/
def StackMachine.WritesTo (slots : List Nat) (count : Nat) {lanes : Nat} (masked : Bool)
    (_ : Batch lanes) (s : Int) (σ τ : StackMachine lanes) : Prop :=
  count ≤ (σ.stack s).length → τ.stack = σ.stack ∧
    ∀ slot lane, (slot ∈ slots → masked = true ∧ σ.memory.executes lane = false) →
      (τ.memory.slot slot).get lane = (σ.memory.slot slot).get lane

/-! ### Some lvalues -/

/-- The color of one pixel after code that leaves a color on the stack. -/
def GenM.color? (act : GenM Unit) : Option (Rgba UInt32) := do
  let (_, g) ← ((do Gen.build (·.emit .initLaneMasks); act) (Gen.start false)).toOption
  let b := g.builder.emit (.popColor .src)
  let p ← (Pipeline.ofBuilder b g.values.next g.uniforms.next g.immutable.length none).toOption
  let output ← (p.evaluate 1 none [] [.zero]).toOption
  output.colors.head?

namespace Lvalue

/-- The context of an empty program. -/
def bare : CodeContext := ⟨default, default, fun _ _ => pure ()⟩

/-- A local variable. -/
def localOf (id : Nat) (name : String) (ty : Ty) : Variable :=
  ⟨id, name, ty, default, .local, default, false⟩

/-- An index. -/
def chooser : Variable := localOf 0 "i" .int

/-- An array of two vectors. -/
def vectors : Variable := localOf 1 "a" (.array (.vector .int 4) (some 2))

/-- Two components that are not next to each other, of a vector that is chosen at run time. -/
def scattered : Expr :=
  .swizzle ⟨default, .vector .int 2⟩ (.index ⟨default, .vector .int 4⟩
    (.ofVariable default vectors none) (.ofVariable default chooser none)) [0, 2]

/-- An interface block with an array whose size is not known, and which has no slots. -/
def block : Variable :=
  localOf 2 "b" (.struct "B" [⟨"a", .array .int none, default, default⟩] true)

/-- An element of the array of the block. -/
def unsized : Expr :=
  .index ⟨default, .int⟩
    (.field ⟨default, .array .int none⟩ (.ofVariable default block none) 0)
    (.ofVariable default chooser none)

/-- Assigns words to an lvalue. -/
def assignWords (e : Expr) (words : List UInt32) : GenM Unit := do
  Operand.assign bare (e.operand bare) fun _ => Operand.pushWords words
  Gen.build (·.discard words.length)

theorem selects_scattered : scattered.Selects vectors :=
  .swizzle
    (.index (.reference rfl) rfl (show Typing.elementCount? vectors.ty = some 2 from rfl)
      (by decide))
    (by decide) (by decide) (by decide) rfl

end Lvalue

namespace Expr

open Gen GenM

variable {W : Widths} {g g' : Gen} {v : Variable} {e : Expr} {p : Place}

/-- Dynamic indices do not leave the variable.  Whatever offsets are on the stacks, in every lane
the code for an lvalue reads and writes slots of the lvalue only, or of the array, vector or matrix
to which the first dynamic index is applied; this includes the slots that are read to be left out by
a swizzle.  Lanes that do not execute write nothing where stores are masked. -/
theorem Selects.stays_inside (h : e.Selects v) {ctx : CodeContext} (agrees : g.Agrees W)
    (identity : v.ty.slotCount = W.slots v.id) (found : (e.operand ctx).place g = .ok (p, g')) :
    ∃ space root g₁, variablePlace ctx v g = .ok (.root space root, g₁) ∧
      e.slotsReached root ⊆ root.slots ∧
      (∃ l components, Place.Picks l p components ∧ ∀ offset, ∀ i < l.fixed.count,
        l.start offset l.fixed.count + i ∈ root.slots ∧
        (e.indexed?.isSome = true → l.start offset l.fixed.count + i ∈ e.slotsReached root)) ∧
      (pushPlace p).Performs (StackMachine.ReadsFrom space (e.slotsReached root) e.ty.slotCount) ∧
      (space = .value →
        (storePlace ctx p).Performs
          (StackMachine.WritesTo (e.slotsReached root) e.ty.slotCount)) := by
  obtain ⟨space, root, g₁, hroot, -, l, components, placed⟩ := h.placedAt agrees identity found
  refine ⟨space, root, g₁, hroot, placed.slotsReached_subset,
    ⟨l, components, placed.picks, ?_⟩, ?_, ?_⟩
  · exact fun offset i hi => placed.start_add_mem le_rfl offset hi
  · refine placed.picks.performs_push.mono fun masked batch s σ τ hτ => ?_
    refine ⟨components.map fun c lane => l.start (l.offset σ lane) l.fixed.count + c, ?_, ?_, ?_⟩
    · rw [List.length_map, placed.width]
    · intro address haddress lane
      obtain ⟨c, hc, rfl⟩ := List.mem_map.1 haddress
      exact placed.component_mem le_rfl _ hc (placed.picks.lt_count c hc)
    · rw [hτ, List.map_map, placed.space]
      rfl
  · intro hspace
    refine (placed.picks.performs_store (placed.space.trans hspace) ctx).mono ?_
    intro lanes masked batch s σ τ hstored hdepth
    obtain ⟨hstack, writes, -, hmasked, hstores⟩ := hstored (placed.width ▸ hdepth)
    refine ⟨hstack, fun slot lane hslot => hstores.kept lane slot fun hlane c hc heq => ?_⟩
    have hmem : slot ∈ e.slotsReached root := heq ▸
      placed.component_mem placed.picks.storeWidth_le _ hc (placed.picks.lt_storeWidth c hc)
    obtain ⟨hmask, hinactive⟩ := hslot hmem
    rw [hmasked hmask lane hlane] at hinactive
    cases hinactive

theorem stays_inside_scattered : ∃ p g', Lvalue.scattered.Selects Lvalue.vectors ∧
    (Gen.start false).Agrees ⟨fun _ => 8, 0⟩ ∧ Lvalue.vectors.ty.slotCount = 8 ∧
    (Lvalue.scattered.operand Lvalue.bare).place (Gen.start false) = .ok (p, g') ∧
    (pushPlace p).Performs (StackMachine.ReadsFrom .value (List.range 8) 2) ∧
    (storePlace Lvalue.bare p).Performs (StackMachine.WritesTo (List.range 8) 2) := by
  obtain ⟨g', found⟩ : ∃ g', (Lvalue.scattered.operand Lvalue.bare).place (Gen.start false) =
    .ok (.scattered (.element (.root .value ⟨0, 8⟩) 4 1) [0, 2], g') := ⟨_, rfl⟩
  have agrees : (Gen.start false).Agrees ⟨fun _ => 8, 0⟩ := agrees_start false
  obtain ⟨space, root, g₁, hroot, -, -, hload, hstore⟩ :=
    Lvalue.selects_scattered.stays_inside agrees rfl found
  have hplace : Place.root .value ⟨0, 8⟩ = .root space root :=
    congrArg Prod.fst (Except.ok.inj hroot)
  obtain ⟨rfl, rfl⟩ := Place.root.inj hplace
  exact ⟨_, g', Lvalue.selects_scattered, agrees, rfl, found, hload, hstore rfl⟩

/-- An array whose size is not known has no slots, but its elements are written: the word that is
stored to an element goes to a variable of another name. -/
theorem unsized_element_leaves_block :
    (∃ g₁, variablePlace Lvalue.bare Lvalue.block (Gen.start false) =
      .ok (.root .value ⟨0, 0⟩, g₁)) ∧
    GenM.color? (do
      let _ ← valueSlots Lvalue.bare Lvalue.block
      Lvalue.assignWords (.ofVariable default (Lvalue.localOf 3 "x" .int) none) [5]
      Lvalue.assignWords (.ofVariable default Lvalue.chooser none) [0]
      Lvalue.assignWords Lvalue.unsized [7]
      ((Expr.ofVariable default (Lvalue.localOf 3 "x" .int) none).operand Lvalue.bare).push
      build (·.pushConstant 0 3)) = some ⟨7, 0, 0, 0⟩ :=
  ⟨⟨_, rfl⟩, by decide +kernel⟩

/-- Stores to a place begin where reads of it do unless its components are scattered over an element
that the offset moves past the end of what is indexed. -/
theorem PlacedAt.start_storeWidth {space : SlotSpace} {root : SlotRange} {l : Location}
    {components : List Nat} (h : e.PlacedAt space root p l components) {offset : UInt32}
    (hoffset : p.location = .ok l ∨ e.indexed? = none ∨
      l.fixed.index + (Word.toInt offset).toNat + l.fixed.count ≤ l.limit) :
    l.start offset p.storeWidth = l.start offset l.fixed.count := by
  rcases hoffset with hlocation | hstatic | hle
  · rw [Place.storeWidth_of_location hlocation]
  · rw [Location.start, Location.start, (h.static hstatic).1]
  · exact Location.start_eq_of_le hle h.picks.storeWidth_le

end Expr

/-- The word of a value with a given place in a lane. -/
def Words.inLane {lanes : Nat} (words : List (Vector UInt32 lanes)) (lane : Fin lanes) (i : Nat) :
    UInt32 := (words.getD i (Vector.replicate lanes 0)).get lane

/-- A value of `count` words on top of the stack is stored to a place and read back, in a memory
that has `size` slots.  In the lanes that execute, the words that are pushed are those of the value
if the store begins where the read does.  If it does not, the first word of the value does not come
back, provided it occurs nowhere else. -/
def Place.ReadsBack (p : Place) (l : Location) (count size : Nat) {lanes : Nat} (_ : Bool)
    (_ : Batch lanes) (s : Int) (σ τ : StackMachine lanes) : Prop :=
  count ≤ (σ.stack s).length → size ≤ σ.memory.values.size →
    ∃ loaded, τ = StackMachine.push { σ with memory := τ.memory } s loaded ∧
      loaded.length = count ∧ ∀ lane, σ.memory.executes lane = true →
        let value := Words.inLane (σ.peek s count count) lane
        if l.start (l.offset σ lane) p.storeWidth = l.start (l.offset σ lane) l.fixed.count then
          ∀ i < count, Words.inLane loaded lane i = value i
        else (∀ i < count, 0 < i → value i ≠ value 0) →
          (∀ slot, (σ.memory.slot slot).get lane ≠ value 0) → Words.inLane loaded lane 0 ≠ value 0

namespace Place.Picks

variable {l : Location} {p : Place} {components : List Nat}

/-- A value is stored to a place and read back. -/
theorem performs_store_push (h : Picks l p components) (hspace : l.space = .value)
    (nodup : components.Nodup) {size : Nat}
    (hsize : ∀ (offset : UInt32), ∀ c ∈ components, l.start offset p.storeWidth + c < size)
    (ctx : CodeContext) :
    GenM.Performs (do Gen.storePlace ctx p; Gen.pushPlace p)
      (p.ReadsBack l components.length size) := by
  refine (h.performs_store hspace ctx).seq h.performs_push ?_
  intro lanes masked batch s σ τ υ hτ hυ hdepth hmemory
  obtain ⟨hstack, writes, hexecutes, -, hstores⟩ := hτ hdepth
  have hslot : ∀ lane, ∀ c ∈ components,
      l.start (l.offset σ lane) p.storeWidth + c < σ.memory.values.size :=
    fun lane c hc => (hsize _ c hc).trans_le hmemory
  obtain ⟨loaded, hdef⟩ : ∃ loaded, loaded = components.map fun c => Vector.ofFn fun lane =>
    τ.memory.read batch l.space (l.start (l.offset τ lane) l.fixed.count + c) lane := ⟨_, rfl⟩
  rw [← hdef] at hυ
  have hlength : loaded.length = components.length := by rw [hdef, List.length_map]
  have hloaded : ∀ lane i, ∀ hi : i < components.length, Words.inLane loaded lane i =
      (τ.memory.slot (l.start (l.offset σ lane) l.fixed.count + components[i])).get lane := by
    intro lane i hi
    rw [Words.inLane, List.getD_eq_getElem _ _ (hlength ▸ hi)]
    simp [hdef, hspace, Machine.read, Vector.get_eq_getElem, Location.offset_congr hstack]
  refine ⟨loaded, ?_, hlength, fun lane hlane => ?_⟩
  · have hτ : τ = { σ with memory := τ.memory } := by rw [← hstack]
    rw [hυ, StackMachine.memory_push, ← hτ]
  · simp only
    split
    · rename_i hstart
      intro i hi
      rw [hloaded lane i hi, ← hstart]
      exact hstores.stored nodup lane (hexecutes lane hlane) i hi
        (hslot lane _ (List.getElem_mem hi))
    · rename_i hstart
      intro hvalue hfresh
      have hpos : 0 < components.length := by
        cases h with
        | all location => exact absurd (by rw [Place.storeWidth_of_location location]) hstart
        | some location several => exact several
      rw [hloaded lane 0 hpos]
      by_cases hhit : ∃ c ∈ components, l.start (l.offset σ lane) l.fixed.count + components[0] =
          l.start (l.offset σ lane) p.storeWidth + c
      · obtain ⟨c, hc, heq⟩ := hhit
        obtain ⟨j, hj, rfl⟩ := List.getElem_of_mem hc
        rw [heq, hstores.stored nodup lane (hexecutes lane hlane) j hj
          (hslot lane _ (List.getElem_mem hj))]
        refine hvalue j hj (Nat.pos_of_ne_zero ?_)
        rintro rfl
        exact hstart (Nat.add_right_cancel heq).symm
      · rw [hstores.kept lane _ fun _ c hc heq => hhit ⟨c, hc, heq⟩]
        exact hfresh _

end Place.Picks

namespace Expr

open Gen GenM

variable {W : Widths} {g g' : Gen} {v : Variable} {e : Expr} {p : Place}

/-- Storing to an lvalue and reading it gives the value back, in every lane that executes and in
which stores begin where reads do.  That is every lane, whatever the offsets are, but for components
of an element that are not consecutive: an offset that would move the element past the end of what
is indexed is limited in one way for the whole element, which is read, and in another for the span
of the components, which is stored to. -/
theorem Selects.reads_back (h : e.Selects v) (once : e.NamesOnce) {ctx : CodeContext}
    (agrees : g.Agrees W) (identity : v.ty.slotCount = W.slots v.id)
    (found : (e.operand ctx).place g = .ok (p, g')) :
    ∃ space root g₁, variablePlace ctx v g = .ok (.root space root, g₁) ∧ (space = .value →
      ∃ l components, Place.Picks l p components ∧
        (∀ offset, (p.location = .ok l ∨ e.indexed? = none ∨
            l.fixed.index + (Word.toInt offset).toNat + l.fixed.count ≤ l.limit) →
          l.start offset p.storeWidth = l.start offset l.fixed.count) ∧
        GenM.Performs (do storePlace ctx p; pushPlace p)
          (p.ReadsBack l e.ty.slotCount root.stop)) := by
  obtain ⟨space, root, g₁, hroot, -, l, components, placed⟩ := h.placedAt agrees identity found
  refine ⟨space, root, g₁, hroot, fun hspace => ⟨l, components, placed.picks,
    fun offset hoffset => placed.start_storeWidth hoffset, ?_⟩⟩
  rw [← placed.width]
  refine placed.picks.performs_store_push (placed.space.trans hspace) (placed.once once) ?_ ctx
  intro offset c hc
  have hmem := placed.start_add_mem placed.picks.storeWidth_le offset
    (placed.picks.lt_storeWidth c hc)
  exact (SlotRange.mem_slots.1 hmem.1).2

theorem reads_back_scattered : ∃ p g' l components,
    Lvalue.scattered.Selects Lvalue.vectors ∧ Lvalue.scattered.NamesOnce ∧
    (Gen.start false).Agrees ⟨fun _ => 8, 0⟩ ∧ Lvalue.vectors.ty.slotCount = 8 ∧
    (Lvalue.scattered.operand Lvalue.bare).place (Gen.start false) = .ok (p, g') ∧
    Place.Picks l p components ∧
    GenM.Performs (do storePlace Lvalue.bare p; pushPlace p) (p.ReadsBack l 2 8) := by
  obtain ⟨g', found⟩ : ∃ g', (Lvalue.scattered.operand Lvalue.bare).place (Gen.start false) =
    .ok (.scattered (.element (.root .value ⟨0, 8⟩) 4 1) [0, 2], g') := ⟨_, rfl⟩
  have agrees : (Gen.start false).Agrees ⟨fun _ => 8, 0⟩ := agrees_start false
  have once : Lvalue.scattered.NamesOnce := ⟨by decide, trivial⟩
  obtain ⟨space, root, g₁, hroot, hback⟩ :=
    Lvalue.selects_scattered.reads_back once agrees rfl found
  have hplace : Place.root .value ⟨0, 8⟩ = .root space root :=
    congrArg Prod.fst (Except.ok.inj hroot)
  obtain ⟨rfl, rfl⟩ := Place.root.inj hplace
  obtain ⟨l, components, picks, -, hperforms⟩ := hback rfl
  exact ⟨_, g', l, components, Lvalue.selects_scattered, once, agrees, rfl, found, picks, hperforms⟩

/-- Two words are stored to components of an element and read back, for an index that is in range
and for one that is past the end. -/
theorem scattered_words_are_lost_past_the_end :
    let storeAndRead (i : UInt32) : GenM Unit := do
      Lvalue.assignWords (.ofVariable default Lvalue.chooser none) [i]
      Lvalue.assignWords Lvalue.scattered [7, 8]
      (Lvalue.scattered.operand Lvalue.bare).push
      build (·.pushConstant 0 2)
    GenM.color? (storeAndRead 1) = some ⟨7, 8, 0, 0⟩ ∧
      GenM.color? (storeAndRead 2) = some ⟨0, 0, 0, 0⟩ :=
  ⟨by decide +kernel, by decide +kernel⟩

end Expr

end RasterShader
