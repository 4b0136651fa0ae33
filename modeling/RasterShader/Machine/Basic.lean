import RasterShader.Pipeline.Basic
import RasterShader.Stage.Basic

/-!
# The lane machine

Stages run on a batch of pixels at a time, one pixel per lane. A lane executes while its condition,
loop and return masks have a bit in common; the lanes past the end of the batch never do after the
masks have been set up.

A slot holds a vector with one word per lane, and stages work on such vectors as a whole. What
differs between lanes is then what the functions in `Vector.map`, `Vector.zipWith` and
`Vector.ofFn` make of the lane.
-/

namespace RasterShader

/-- What a program is run on: the colors it starts with and device coordinates. -/
structure Pixel where
  src : Rgba UInt32
  dst : Rgba UInt32
  device : UInt32 × UInt32
deriving DecidableEq, Repr, Inhabited

namespace Pixel

/-- No color at the origin. -/
def zero : Pixel := ⟨.splat 0, .splat 0, (0, 0)⟩

/-- Coordinates for a shader. -/
def ofCoords (x y : UInt32) : Pixel := ⟨⟨x, y, 0, 0⟩, .splat 0, (x, y)⟩

end Pixel

/-- What does not change while a batch runs. -/
structure Batch (lanes : Nat) where
  /-- Lanes that belong to a pixel. -/
  active : Nat
  immutable : Array UInt32
  uniforms : Array UInt32
  deviceX : Vector UInt32 lanes
  deviceY : Vector UInt32 lanes

/-- State of the machine. -/
structure Machine (lanes : Nat) where
  values : Array (Vector UInt32 lanes)
  registers : Registers lanes
  condition : Vector UInt32 lanes
  loop : Vector UInt32 lanes
  returns : Vector UInt32 lanes
  trace : Array TraceEvent

variable {lanes : Nat}

namespace Machine

/-- The words of a slot. -/
def slot (m : Machine lanes) (slot : Nat) : Vector UInt32 lanes :=
  m.values.getD slot (Vector.replicate lanes 0)

/-- Replaces the words of a slot. -/
def setSlot (m : Machine lanes) (slot : Nat) (words : Vector UInt32 lanes) : Machine lanes :=
  { m with values := m.values.setIfInBounds slot words }

/-- Replaces one word of a slot. -/
def setWord (m : Machine lanes) (slot : Nat) (lane : Fin lanes) (word : UInt32) : Machine lanes :=
  { m with values := m.values.modify slot (·.set lane word) }

/-- A mask. -/
def mask (m : Machine lanes) : Mask → Vector UInt32 lanes
  | .condition => m.condition
  | .loop => m.loop
  | .returns => m.returns

/-- Replaces a mask. -/
def setMask (m : Machine lanes) (mask : Mask) (words : Vector UInt32 lanes) : Machine lanes :=
  match mask with
  | .condition => { m with condition := words }
  | .loop => { m with loop := words }
  | .returns => { m with returns := words }

/-- The lane executes. -/
def executes (m : Machine lanes) (lane : Fin lanes) : Bool :=
  (m.condition.get lane &&& m.loop.get lane &&& m.returns.get lane) != 0

/-- Replaces a word of every lane that executes. -/
def masked (m : Machine lanes) (old new : Vector UInt32 lanes) : Vector UInt32 lanes :=
  Vector.ofFn fun lane => if m.executes lane then new.get lane else old.get lane

/-- Does something for each of `count` places, from the first on. -/
def forEach (m : Machine lanes) (count : Nat) (f : Nat → Machine lanes → Machine lanes) :
    Machine lanes :=
  count.fold (fun i _ m => f i m) m

/-- Does something for every lane that executes. -/
def forActiveLanes (m : Machine lanes) (f : Fin lanes → Machine lanes → Machine lanes) :
    Machine lanes :=
  Fin.foldl lanes (fun m lane => if m.executes lane then f lane m else m) m

/-- Replaces the words of `count` slots from `target` on. -/
def fill (m : Machine lanes) (target count : Nat) (f : Nat → Vector UInt32 lanes) :
    Machine lanes :=
  m.forEach count fun i m => m.setSlot (target + i) (f i)

/-- The words of `count` slots from `base` on in one lane. -/
def gather (m : Machine lanes) (base count : Nat) (lane : Fin lanes) : Array UInt32 :=
  (Array.range count).map fun i => (m.slot (base + i)).get lane

/-- Replaces, in every lane, the words of `produced` slots from `base` on by what a function makes
of `consumed` words that start there. -/
def mapLanes (m : Machine lanes) (base consumed produced : Nat)
    (f : Array UInt32 → Array UInt32) : Machine lanes :=
  let results := Vector.ofFn fun lane => f (m.gather base consumed lane)
  m.fill base produced fun i => results.map (·.getD i 0)

end Machine

end RasterShader
