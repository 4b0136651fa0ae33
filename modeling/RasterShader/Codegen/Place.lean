import RasterShader.Codegen.Unsupported
import RasterShader.Slot

/-!
# Places

A `Place` is a view onto slots that can be read and, in the memory of values, stored to: the slots
of a variable, some consecutive ones of them, some of them in another order, or an element that is
chosen at run time by an offset on top of a stack.

Views of views are simplified as they are made (`Place.slice`, `Place.swizzle`), so that a swizzle
is never of a swizzle. All other places are a range of slots, possibly moved by an offset
(`Place.location`).
-/

namespace RasterShader

/-- A view onto slots. -/
inductive Place where
  /-- All slots of a variable or of a computed value. -/
  | root (space : SlotSpace) (range : SlotRange)
  | part (parent : Place) (offset count : Nat)
  | scattered (parent : Place) (components : List Nat)
  /-- The element whose offset is on top of a stack. -/
  | element (parent : Place) (count : Nat) (offsetStack : Int)
deriving DecidableEq, Repr, Inhabited

/-- A range of slots, moved by the offset on top of a stack if there is one, but not past the
limit. -/
structure Location where
  space : SlotSpace
  fixed : SlotRange
  limit : Nat
  offsetStack : Option Int
deriving DecidableEq, Repr

namespace Place

/-- Consecutive slots of a place that is not scattered. -/
def narrow (parent : Place) (offset count : Nat) : Place :=
  match parent with
  | part parent start _ => part parent (start + offset) count
  | parent => part parent offset count

/-- Components that follow each other. -/
def isConsecutive (components : List Nat) : Bool :=
  components == (List.range components.length).map (components.headD 0 + ·)

/-- Components of a place that is not scattered. -/
def pick (parent : Place) (components : List Nat) : Place :=
  if isConsecutive components then parent.narrow (components.headD 0) components.length
  else scattered parent components

/-- Consecutive slots of a place. -/
def slice (parent : Place) (offset count : Nat) : Place :=
  match parent with
  | scattered parent components => parent.pick ((components.drop offset).take count)
  | parent => parent.narrow offset count

/-- Slots of a place in a given order. -/
def swizzle (parent : Place) (components : List Nat) : Place :=
  match parent with
  | scattered parent inner => parent.pick (components.map (inner.getD · 0))
  | parent => parent.pick components

/-- How many slots a place has. -/
def slotCount : Place → Nat
  | root _ range => range.count
  | part _ _ count | element _ count _ => count
  | scattered _ components => components.length

/-- Where the slots of a place are, unless they are scattered. -/
def location : Place → Except Unsupported Location
  | root space range => .ok ⟨space, range, range.stop, none⟩
  | part parent offset count => do
    let p ← parent.location
    return { p with fixed := p.fixed.slice offset count }
  | element parent count offsetStack => do
    let p ← parent.location
    let limit := if p.offsetStack.isSome then p.limit else p.fixed.stop
    return ⟨p.space, ⟨p.fixed.index, count⟩, limit, some offsetStack⟩
  | scattered .. => .error .scatteredLocation

/-- The stack with the offset of a place that an element is to be chosen from. -/
def offsetStack? : Place → Except Unsupported (Option Int)
  | scattered .. => .error .indexedSwizzle
  | place => return (← place.location).offsetStack

/-- The stacks that hold offsets of a place, outermost element first. -/
def offsetStacks : Place → List Int
  | root .. => []
  | part parent _ _ | scattered parent _ => parent.offsetStacks
  | element parent _ offsetStack => offsetStack :: parent.offsetStacks

end Place

end RasterShader
