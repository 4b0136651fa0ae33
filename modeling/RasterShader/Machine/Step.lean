import RasterShader.Arithmetic.Matrix
import RasterShader.Machine.Basic
import RasterShader.Pipeline.Error

/-!
# Running one stage

A stage first checks that its slots exist (`Stage.fault?`), and then changes the machine
(`Machine.apply`). A branch changes nothing itself; `Machine.takes` tells whether it is taken.
-/

namespace RasterShader

namespace Stage

/-- The first of some ranges that is not within `size` slots. -/
def outOfRange? (size : Nat) : List SlotRange → Option PipelineError
  | [] => none
  | range :: rest =>
    if size < range.stop then some (.slotsOutOfRange range) else outOfRange? size rest

/-- What keeps a stage from running on `size` slots. -/
def fault? (size : Nat) : Stage → Option PipelineError
  | storeCoords target => outOfRange? size [⟨target, 2⟩]
  | storeInput _ target => outOfRange? size [⟨target, 4⟩]
  | loadColor _ source => outOfRange? size [⟨source, 4⟩]
  | splat target count _ | zeroSlots target count | copyUniform target _ count
  | copyImmutable target _ count | copyFromIndirect target _ count _ _ _
  | unary _ _ target count | binaryImm _ _ target count _ => outOfRange? size [⟨target, count⟩]
  | copySlots target source count _ | binary _ _ target source count =>
    outOfRange? size [⟨target, count⟩, ⟨source, count⟩]
  | swizzle base consumed components =>
    outOfRange? size [⟨base, max consumed components.length⟩]
  | diagonal base shape => outOfRange? size [⟨base, shape.size⟩]
  | resize base source target => outOfRange? size [⟨base, max target.size source.size⟩]
  | ternary _ _ base count => outOfRange? size [⟨base, 3 * count⟩]
  | multiply _ left right =>
    if left.columns = right.rows then none else some (.shapesDisagree left right)
  | _ => none

end Stage

namespace Machine

variable {lanes : Nat}

/-- The first slot of a range moved by an offset that is not negative, such that `count` slots end
by the limit. -/
def indirectStart (base : Nat) (offset : UInt32) (count limit : Nat) : Nat :=
  min (base + (Word.toInt offset).toNat) (max (limit - count) base)

/-- A word of one of the memories. -/
def read (m : Machine lanes) (batch : Batch lanes) (space : SlotSpace) (slot : Nat)
    (lane : Fin lanes) : UInt32 :=
  match space with
  | .value => (m.slot slot).get lane
  | .uniform => batch.uniforms.getD slot 0
  | .immutable => batch.immutable.getD slot 0

/-- The words of an input. -/
def input (m : Machine lanes) (batch : Batch lanes) : Input → Rgba (Vector UInt32 lanes)
  | .color .src => m.registers.src
  | .color .dst => m.registers.dst
  | .device =>
    ⟨batch.deviceX, batch.deviceY, Vector.replicate lanes 0, Vector.replicate lanes Word.one⟩

/-- The first lane executes. Events are recorded for it only. -/
def firstExecutes (m : Machine lanes) : Bool :=
  if h : 0 < lanes then m.executes ⟨0, h⟩ else false

/-- The word of a slot in the first lane. -/
def firstWord (m : Machine lanes) (slot : Nat) : UInt32 :=
  if h : 0 < lanes then (m.slot slot).get ⟨0, h⟩ else 0

/-- Records an event. -/
def record (m : Machine lanes) (event : TraceEvent) : Machine lanes :=
  if m.firstExecutes then { m with trace := m.trace.push event } else m

/-- Copies slots, from the first on. -/
def copy (m : Machine lanes) (target source count : Nat) (masked : Bool) : Machine lanes :=
  m.forEach count fun i m =>
    let new := m.slot (source + i)
    m.setSlot (target + i) (if masked then m.masked (m.slot (target + i)) new else new)

/-- Scatters words to components of the slots from `target` on, in one lane. -/
def scatter (m : Machine lanes) (target source : Nat) (components : List Nat)
    (lane : Fin lanes) : Machine lanes :=
  components.zipIdx.foldl (fun m (c, i) =>
    m.setWord (target + c) lane ((m.slot (source + i)).get lane)) m

/-- Runs a stage. -/
def apply (batch : Batch lanes) (stage : Stage) (m : Machine lanes) : Machine lanes :=
  match stage with
  | .initLaneMasks =>
    let on := Vector.ofFn fun lane : Fin lanes => Word.ofBool (lane < batch.active)
    { m with condition := on, loop := on, returns := on }
  | .storeCoords target =>
    (m.setSlot target m.registers.src.r).setSlot (target + 1) m.registers.src.g
  | .storeInput input target =>
    let color := m.input batch input
    (((m.setSlot target color.r).setSlot (target + 1) color.g).setSlot (target + 2) color.b).setSlot
      (target + 3) color.a
  | .loadColor register source =>
    let color : Rgba (Vector UInt32 lanes) :=
      ⟨m.slot source, m.slot (source + 1), m.slot (source + 2), m.slot (source + 3)⟩
    match register with
    | .src => { m with registers := { m.registers with src := color } }
    | .dst => { m with registers := { m.registers with dst := color } }
  | .loadCoords source =>
    let src := { m.registers.src with r := m.slot source, g := m.slot (source + 1) }
    { m with registers := { m.registers with src } }
  | .storeMask mask target => m.setSlot target (m.mask mask)
  | .loadMask mask source => m.setMask mask (m.slot source)
  | .mergeCondition inverted source =>
    let merge (saved test : UInt32) := saved &&& if inverted then ~~~test else test
    { m with condition := (m.slot source).zipWith merge (m.slot (source + 1)) }
  | .mergeLoop source => { m with loop := m.loop.zipWith (· &&& ·) (m.slot source) }
  | .reenableLoop source => { m with loop := m.loop.zipWith (· ||| ·) (m.slot source) }
  | .maskOffLoop => { m with loop := m.masked m.loop (Vector.replicate lanes 0) }
  | .maskOffReturn => { m with returns := m.masked m.returns (Vector.replicate lanes 0) }
  | .continueLoop continueMask =>
    let continued := m.masked (m.slot continueMask) (Vector.replicate lanes Word.allOnes)
    let loop := m.masked m.loop (Vector.replicate lanes 0)
    { m.setSlot continueMask continued with loop }
  | .matchCase base value =>
    let matched := (m.slot base).zipWith (fun x unmatched => x == value && unmatched != 0)
      (m.slot (base + 1))
    let loop := matched.zipWith (fun hit x => if hit then Word.allOnes else x) m.loop
    let unmatched := matched.zipWith (fun hit x => if hit then 0 else x) (m.slot (base + 1))
    { m.setSlot (base + 1) unmatched with loop }
  | .splat target count value => m.fill target count fun _ => Vector.replicate lanes value
  | .zeroSlots target count => m.fill target count fun _ => Vector.replicate lanes 0
  | .copySlots target source count masked => m.copy target source count masked
  | .copyUniform target source count =>
    m.fill target count fun i => Vector.replicate lanes (batch.uniforms.getD (source + i) 0)
  | .copyImmutable target source count =>
    m.fill target count fun i => Vector.replicate lanes (batch.immutable.getD (source + i) 0)
  | .copyFromIndirect target source count offset limit space =>
    let starts := (m.slot offset).map fun word => indirectStart source word count limit
    m.forEach count fun i m =>
      m.setSlot (target + i) (Vector.ofFn fun lane => m.read batch space (starts.get lane + i) lane)
  | .copyToIndirect target source count offset limit =>
    m.forActiveLanes fun lane m =>
      let start := indirectStart target ((m.slot offset).get lane) count limit
      m.forEach count fun i m => m.setWord (start + i) lane ((m.slot (source + i)).get lane)
  | .swizzleCopy target source components =>
    m.forActiveLanes fun lane m => m.scatter target source components lane
  | .swizzleCopyToIndirect target source components offset limit =>
    let width := max 1 ((components.map (· + 1)).foldl max 0)
    m.forActiveLanes fun lane m =>
      m.scatter (indirectStart target ((m.slot offset).get lane) width limit) source components lane
  | .swizzle base consumed components =>
    let inputs := (Array.range consumed).map fun i => m.slot (base + i)
    let outputs := components.toArray.map fun c => inputs.getD c (Vector.replicate lanes 0)
    m.fill base outputs.size fun i => outputs.getD i (Vector.replicate lanes 0)
  | .transpose base shape => m.mapLanes base shape.size shape.size (Matrix.transpose shape)
  | .diagonal base shape =>
    m.mapLanes base 1 shape.size fun x => Matrix.diagonal shape (x.getD 0 0)
  | .resize base source target =>
    m.mapLanes base source.size target.size (Matrix.resize source target)
  | .multiply base left right =>
    m.mapLanes base (left.size + right.size) (right.columns * left.rows)
      (Matrix.multiply left right)
  | .inverse base size => m.mapLanes base (size * size) (size * size) (Matrix.invert size)
  | .determinant base size =>
    m.mapLanes base (size * size) 1 fun x => #[Matrix.determinant size x]
  | .dot base count => m.mapLanes base (2 * count) 1 fun x => #[Matrix.dot count x]
  | .refract base => m.mapLanes base 9 4 Matrix.refract
  | .unary op ty target count =>
    m.forEach count fun i m =>
      m.setSlot (target + i) ((m.slot (target + i)).map (op.eval ty))
  | .binary op ty target source count =>
    m.forEach count fun i m =>
      m.setSlot (target + i)
        ((m.slot (target + i)).zipWith (op.eval ty) (m.slot (source + i)))
  | .binaryImm op ty target count bits =>
    m.forEach count fun i m =>
      m.setSlot (target + i) ((m.slot (target + i)).map fun x => op.eval ty x bits)
  | .ternary op ty base count =>
    m.forEach count fun i m =>
      let y := m.slot (base + count + i)
      let z := m.slot (base + 2 * count + i)
      m.setSlot (base + i)
        (((m.slot (base + i)).zip y).zipWith (fun (x, y) z => op.eval ty x y z) z)
  | .select target source count => m.copy target source count true
  | .host stage => { m with registers := stage.run lanes m.registers }
  | .trace (.line number) => m.record ⟨.line, number, 0⟩
  | .trace (.var range) =>
    m.forEach range.count fun i m =>
      let slot := range.index + i
      m.record ⟨.var, slot, Word.toInt (m.firstWord slot)⟩
  | .trace (.enter function) => m.record ⟨.enter, function, 0⟩
  | .trace (.exit function) => m.record ⟨.exit, function, 0⟩
  | .trace (.scope delta) => m.record ⟨.scope, delta, 0⟩
  | .branch .. | .stackRewind | .setBasePointer => m

/-- Runs a stage, if nothing keeps it from running. -/
def step (batch : Batch lanes) (stage : Stage) (m : Machine lanes) :
    Machine lanes × Option PipelineError :=
  match stage.fault? m.values.size with
  | some e => (m, some e)
  | none => (m.apply batch stage, none)

/-- Some lane of a pixel satisfies a condition. -/
def anyLane (batch : Batch lanes) (p : Fin lanes → Bool) : Bool :=
  batch.active.any fun l _ => if h : l < lanes then p ⟨l, h⟩ else false

/-- The branch with a condition is taken. -/
def takes (m : Machine lanes) (batch : Batch lanes) : StageCondition → Bool
  | .always => true
  | .allLanesActive => !anyLane batch fun lane => !m.executes lane
  | .anyLanesActive => anyLane batch m.executes
  | .noLanesActive => !anyLane batch m.executes
  | .noLanesEqual slot value =>
    let words := m.slot slot
    !anyLane batch fun lane => m.executes lane && words.get lane == value

end Machine

end RasterShader
