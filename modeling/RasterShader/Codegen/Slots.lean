import RasterShader.Arithmetic.Word
import RasterShader.Constant.Value
import RasterShader.Slot
import RasterShader.Trace

/-!
# Slots of variables

A `SlotTable` hands out consecutive slots, one range per variable, and describes every slot when
tracing. A variable may borrow the slots of another one for a while (`SlotTable.lend`).

Constant data is kept in immutable slots, where equal runs of words are stored once
(`findOrStore`).
-/

namespace RasterShader

/-! ## Scalars of a type -/

namespace Ty

mutual

/-- The scalars, vectors and matrices that a type consists of, in slot order, each with the name it
has in a variable with a given name. -/
def leaves (name : String) : Ty → List (String × Ty)
  | array element count =>
    (List.range (count.getD 0)).flatMap fun i => leaves s!"{name}[{i}]" element
  | struct _ fields _ => leavesOfFields name fields
  | ty => [(name, ty)]

/-- The scalars, vectors and matrices of fields. -/
def leavesOfFields (name : String) : List (FieldOf Ty) → List (String × Ty)
  | [] => []
  | ⟨field, ty, _, _⟩ :: rest => leaves s!"{name}.{field}" ty ++ leavesOfFields name rest

end

/-- How each slot of a type is read. -/
def slotKinds (ty : Ty) : List NumberKind :=
  (ty.leaves "").flatMap fun (_, leaf) => List.replicate leaf.slotCount leaf.numberKind

/-- Descriptions of the slots of a variable. -/
def slotInfo (ty : Ty) (name : String) (line : Nat) (resultOf : Option Nat) : List SlotInfo :=
  let slots := (ty.leaves name).flatMap fun (name, leaf) =>
    (List.range leaf.slotCount).map fun i => (name, leaf, i)
  slots.zipIdx.map fun ((name, leaf, i), group) =>
    ⟨name, leaf.columns, leaf.rows, i, group, .ofNumberKind leaf.numberKind, line, resultOf⟩

end Ty

/-- The word of a constant in a slot of a kind. -/
def literalBits (value : Float) : NumberKind → UInt32
  | .float | .nonnumeric => Double.singleBits value
  | .signed | .unsigned => Word.ofInt (Double.truncated value)
  | .boolean => Word.ofBool (value != 0.0)

/-- The words of a constant of a type. -/
def constantBits (ty : Ty) (values : List Float) : List UInt32 :=
  List.zipWith (fun kind value => literalBits value kind) ty.slotKinds values

/-! ## Tables -/

/-- Slots of variables, by their identity. -/
structure SlotTable where
  /-- The first slot that is free. -/
  next : Nat
  ranges : List (Nat × SlotRange)
  /-- Slots borrowed from other variables, which come before a variable's own. -/
  lent : List (Nat × SlotRange)
  /-- Descriptions of all slots so far, when tracing. -/
  info : Option (List SlotInfo)
deriving Inhabited

namespace SlotTable

/-- No slots. -/
def empty (trace : Bool) : SlotTable := ⟨0, [], [], if trace then some [] else none⟩

/-- The slots of a variable. -/
def get? (table : SlotTable) (v : Variable) : Option SlotRange :=
  (table.lent.lookup v.id).or (table.ranges.lookup v.id)

/-- New slots for a value of a type. -/
def allocate (table : SlotTable) (name : String) (ty : Ty) (line : Nat) (resultOf : Option Nat) :
    SlotRange × SlotTable :=
  (⟨table.next, ty.slotCount⟩,
    { table with
      next := table.next + ty.slotCount
      info := table.info.map (· ++ ty.slotInfo name line resultOf) })

/-- The slots of a variable, new ones if it has none. -/
def getOrAllocate (table : SlotTable) (v : Variable) (line : Nat) : SlotRange × SlotTable :=
  match table.get? v with
  | some range => (range, table)
  | none =>
    let (range, table) := table.allocate v.name v.ty line none
    (range, { table with ranges := (v.id, range) :: table.ranges })

/-- Points a variable to borrowed slots. -/
def lend (table : SlotTable) (id : Nat) (range : SlotRange) : SlotTable :=
  { table with lent := (id, range) :: table.lent }

/-- Gives the slots that were borrowed last back. -/
def giveBack (table : SlotTable) (id : Nat) : SlotTable :=
  { table with lent := table.lent.eraseP (·.1 == id) }

end SlotTable

/-! ## Immutable data -/

/-- The first place at which a list of words occurs in another. -/
def findWords (wanted : List UInt32) : (words : List UInt32) → Option Nat
  | [] => none
  | w :: rest =>
    if wanted.isPrefixOf (w :: rest) then some 0 else (findWords wanted rest).map (· + 1)

end RasterShader
