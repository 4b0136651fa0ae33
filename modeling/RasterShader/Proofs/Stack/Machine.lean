import Mathlib
import RasterShader.Pipeline.Lowering
import RasterShader.Proofs.Machine.Slots

/-!
# A machine with separate stacks

The instructions of a pipeline are meant for a machine in which every stack is a list of its own.
`StackMachine` is that machine: a memory that holds the value slots only, and for each stack number
a list of words with the deepest one first.  `Op.exec` says what an operation does to it; an
operation takes its operands off the top of its stack, and puts its results there.

* `Op.Finds` says that an operation finds on the stacks the words that it reads, and that its slots
  are value slots.
* `StackMachine.Runs` runs a list of instructions without branches.  A `pad` may reveal any words:
  which ones were left above the top is not part of the state.
* `StackMachine.run` is the same as a function, for lists without `pad`.
-/

namespace RasterShader

variable {lanes : Nat}

/-- The memory of value slots, with registers, masks and events, and the stacks by number. -/
structure StackMachine (lanes : Nat) where
  memory : Machine lanes
  /-- Each stack with its deepest word first. -/
  stack : Int → List (Vector UInt32 lanes)

/-! ## Words of all lanes -/

namespace Words

/-- The words with given places in a list. -/
def choose (components : List Nat) (words : List (Vector UInt32 lanes)) :
    List (Vector UInt32 lanes) :=
  components.map fun c => words.getD c (Vector.replicate lanes 0)

/-- What a function makes, in every lane, of the words of that lane. -/
def mapLanes (produced : Nat) (f : Array UInt32 → Array UInt32)
    (words : List (Vector UInt32 lanes)) : List (Vector UInt32 lanes) :=
  let results := Vector.ofFn fun lane : Fin lanes => f (words.map (·.get lane)).toArray
  (List.range produced).map fun i => results.map (·.getD i 0)

/-- Combines the first `n` words with the `n` words after them. -/
def combine (n : Nat) (f : Vector UInt32 lanes → Vector UInt32 lanes → Vector UInt32 lanes)
    (words : List (Vector UInt32 lanes)) : List (Vector UInt32 lanes) :=
  List.zipWith f (words.take n) (words.drop n)

/-- Combines the first `n` words with two runs of `n` words after them. -/
def combine3 (n : Nat) (f : UInt32 → UInt32 → UInt32 → UInt32)
    (words : List (Vector UInt32 lanes)) : List (Vector UInt32 lanes) :=
  (List.range n).map fun i =>
    let x := words.getD i (Vector.replicate lanes 0)
    let y := words.getD (n + i) (Vector.replicate lanes 0)
    let z := words.getD (2 * n + i) (Vector.replicate lanes 0)
    (x.zip y).zipWith (fun (x, y) z => f x y z) z

@[simp] theorem length_choose (components : List Nat) (words : List (Vector UInt32 lanes)) :
    (choose components words).length = components.length := by
  simp [choose]

@[simp] theorem length_mapLanes (produced : Nat) (f : Array UInt32 → Array UInt32)
    (words : List (Vector UInt32 lanes)) : (mapLanes produced f words).length = produced := by
  simp [mapLanes]

theorem length_combine (f : Vector UInt32 lanes → Vector UInt32 lanes → Vector UInt32 lanes)
    {n : Nat} {words : List (Vector UInt32 lanes)} (h : words.length = 2 * n) :
    (combine n f words).length = n := by
  simp only [combine, List.length_zipWith, List.length_take, List.length_drop]
  omega

@[simp] theorem length_combine3 (n : Nat) (f : UInt32 → UInt32 → UInt32 → UInt32)
    (words : List (Vector UInt32 lanes)) : (combine3 n f words).length = n := by
  simp [combine3]

end Words

theorem length_unpackNybbles (packed : UInt32) (count : Nat) :
    (unpackNybbles packed count).length = min count 8 := by
  simp [unpackNybbles]

namespace Machine

/-- Replaces the words of consecutive slots, in the lanes that execute if that is asked for. -/
def store (m : Machine lanes) (masked : Bool) (target : Nat)
    (words : List (Vector UInt32 lanes)) : Machine lanes :=
  m.overwrite target
    (if masked then List.zipWith m.masked (m.window target words.length) words else words)

/-- Writes words to components of the slots from `target` on, in one lane. -/
def storeComponents (m : Machine lanes) (target : Nat) (components : List Nat)
    (words : List (Vector UInt32 lanes)) (lane : Fin lanes) : Machine lanes :=
  components.zipIdx.foldl (fun m (c, i) =>
    m.setWord (target + c) lane ((words.getD i (Vector.replicate lanes 0)).get lane)) m

/-- Slots that a scattered value spans, at least one. -/
def scatterWidth (components : List Nat) : Nat := max 1 ((components.map (· + 1)).foldl max 0)

theorem lt_scatterWidth {components : List Nat} {c : Nat} (h : c ∈ components) :
    c < scatterWidth components := by
  have fold : ∀ (l : List Nat) (start : Nat), start ≤ l.foldl max start ∧
      ∀ x ∈ l, x ≤ l.foldl max start := by
    intro l
    induction l with
    | nil => simp
    | cons y l ih =>
      intro start
      obtain ⟨h₁, h₂⟩ := ih (max start y)
      simp only [List.foldl_cons, List.mem_cons, forall_eq_or_imp]
      exact ⟨by omega, by omega, h₂⟩
  have := (fold (components.map (· + 1)) 0).2 (c + 1) (List.mem_map_of_mem h)
  simp only [scatterWidth]
  omega

end Machine

namespace StackMachine

/-- Changes the memory. -/
def onMemory (σ : StackMachine lanes) (f : Machine lanes → Machine lanes) : StackMachine lanes :=
  { σ with memory := f σ.memory }

/-- The word a distance below the top; the topmost word has distance 1. -/
def word (σ : StackMachine lanes) (s : Int) (distance : Nat) : Vector UInt32 lanes :=
  (σ.stack s).getD ((σ.stack s).length - distance) (Vector.replicate lanes 0)

/-- The `count` words from a distance below the top on. -/
def peek (σ : StackMachine lanes) (s : Int) (distance count : Nat) : List (Vector UInt32 lanes) :=
  ((σ.stack s).drop ((σ.stack s).length - distance)).take count

/-- Replaces the topmost `n` words. -/
def replace (σ : StackMachine lanes) (s : Int) (n : Nat) (words : List (Vector UInt32 lanes)) :
    StackMachine lanes :=
  { σ with
    stack := Function.update σ.stack s
      ((σ.stack s).take ((σ.stack s).length - n) ++ words) }

/-- Pushes words. -/
def push (σ : StackMachine lanes) (s : Int) (words : List (Vector UInt32 lanes)) :
    StackMachine lanes := σ.replace s 0 words

/-- Pops the topmost `n` words. -/
def pop (σ : StackMachine lanes) (s : Int) (n : Nat) : StackMachine lanes := σ.replace s n []

/-- Replaces the topmost `n` words by what a function makes of them. -/
def transform (σ : StackMachine lanes) (s : Int) (n : Nat)
    (f : List (Vector UInt32 lanes) → List (Vector UInt32 lanes)) : StackMachine lanes :=
  σ.replace s n (f (σ.peek s n n))

/-- Writes a color to a register. -/
def setColor (σ : StackMachine lanes) (register : ColorRegister)
    (color : Rgba (Vector UInt32 lanes)) : StackMachine lanes :=
  σ.onMemory fun m =>
    match register with
    | .src => { m with registers := { m.registers with src := color } }
    | .dst => { m with registers := { m.registers with dst := color } }

end StackMachine

/-! ## What operations do -/

open StackMachine in
/-- What an operation on a stack does.  Host calls do to the color registers what `host` says.  A
`pad` raises the top over words that are not known; here they are zero. -/
def Op.exec (host : HostCall → Registers lanes → Registers lanes) (batch : Batch lanes) (s : Int)
    (σ : StackMachine lanes) : Op → StackMachine lanes
  | .pushConstant count bits => σ.push s (List.replicate count (Vector.replicate lanes bits))
  | .pushSlots space range =>
    σ.push s ((List.range range.count).map fun i =>
      Vector.ofFn fun lane => σ.memory.read batch space (range.index + i) lane)
  | .pushIndirect space fixed offsetStack limit =>
    let start (lane : Fin lanes) :=
      Machine.indirectStart fixed.index ((σ.word offsetStack 1).get lane) fixed.count limit
    σ.push s ((List.range fixed.count).map fun i =>
      Vector.ofFn fun lane => σ.memory.read batch space (start lane + i) lane)
  | .pushClone count distance => σ.push s (σ.peek s distance count)
  | .pushCloneFromStack count other distance => σ.push s (σ.peek other distance count)
  | .pushCloneIndirect count other distance offsetStack =>
    let words := σ.stack other
    let start (lane : Fin lanes) :=
      Machine.indirectStart (words.length - distance) ((σ.word offsetStack 1).get lane) count
        words.length
    σ.push s ((List.range count).map fun i =>
      Vector.ofFn fun lane =>
        (words.getD (start lane + i) (Vector.replicate lanes 0)).get lane)
  | .pushMask mask => σ.push s [σ.memory.mask mask]
  | .pushInput input => σ.push s (σ.memory.input batch input).toList
  | .pad count => σ.push s (List.replicate count (Vector.replicate lanes 0))
  | .popMask mask => (σ.onMemory (·.setMask mask (σ.word s 1))).pop s 1
  | .popAndReenableLoop =>
    (σ.onMemory fun m => { m with loop := m.loop.zipWith (· ||| ·) (σ.word s 1) }).pop s 1
  | .popCoords =>
    (σ.setColor .src { σ.memory.registers.src with r := σ.word s 2, g := σ.word s 1 }).pop s 2
  | .popColor register =>
    (σ.setColor register ⟨σ.word s 4, σ.word s 3, σ.word s 2, σ.word s 1⟩).pop s 4
  | .discard count => σ.pop s count
  | .copyToSlots masked target distance =>
    σ.onMemory (·.store masked target.index (σ.peek s distance target.count))
  | .copyToIndirect fixed offsetStack limit distance =>
    let words := σ.peek s distance fixed.count
    σ.onMemory (·.forActiveLanes fun lane m =>
      let start :=
        Machine.indirectStart fixed.index ((σ.word offsetStack 1).get lane) fixed.count limit
      m.forEach fixed.count fun i m =>
        m.setWord (start + i) lane ((words.getD i (Vector.replicate lanes 0)).get lane))
  | .swizzleToSlots target count packed distance =>
    let components := unpackNybbles packed count
    let words := σ.peek s distance components.length
    σ.onMemory (·.forActiveLanes fun lane m => m.storeComponents target components words lane)
  | .swizzleToIndirect target count packed distance offsetStack limit =>
    let components := unpackNybbles packed count
    let words := σ.peek s distance components.length
    σ.onMemory (·.forActiveLanes fun lane m =>
      let start := Machine.indirectStart target ((σ.word offsetStack 1).get lane)
        (Machine.scatterWidth components) limit
      m.storeComponents start components words lane)
  | .copySlots masked target source count =>
    σ.onMemory (·.apply batch (.copySlots target source count masked))
  | .zeroSlots range => σ.onMemory (·.apply batch (.zeroSlots range.index range.count))
  | .initLaneMasks => σ.onMemory (·.apply batch .initLaneMasks)
  | .mergeCondition inverted =>
    let merge (saved test : UInt32) := saved &&& if inverted then ~~~test else test
    σ.onMemory fun m => { m with condition := (σ.word s 2).zipWith merge (σ.word s 1) }
  | .mergeLoop =>
    (σ.onMemory fun m => { m with loop := m.loop.zipWith (· &&& ·) (σ.word s 1) }).pop s 1
  | .reenableLoop => σ.onMemory fun m => { m with loop := m.loop.zipWith (· ||| ·) (σ.word s 1) }
  | .maskOffLoop => σ.onMemory (·.apply batch .maskOffLoop)
  | .maskOffReturn => σ.onMemory (·.apply batch .maskOffReturn)
  | .continueLoop other =>
    let continued := σ.memory.masked (σ.word other 1) (Vector.replicate lanes Word.allOnes)
    (σ.onMemory (·.apply batch .maskOffLoop)).replace other 1 [continued]
  | .matchCase value =>
    let matched := (σ.word s 2).zipWith (fun x unmatched => x == value && unmatched != 0)
      (σ.word s 1)
    let unmatched := matched.zipWith (fun hit x => if hit then 0 else x) (σ.word s 1)
    (σ.onMemory fun m => { m with
      loop := matched.zipWith (fun hit x => if hit then Word.allOnes else x) m.loop }).replace s 1
        [unmatched]
  | .storeCoords target => σ.onMemory (·.apply batch (.storeCoords target.index))
  | .storeInput input target => σ.onMemory (·.apply batch (.storeInput input target.index))
  | .loadColor register source => σ.onMemory (·.apply batch (.loadColor register source.index))
  | .unary op ty count => σ.transform s count (List.map (Vector.map (op.eval ty)))
  | .binary op ty count =>
    σ.transform s (2 * count) (Words.combine count (Vector.zipWith (op.eval ty)))
  | .binaryImm op ty count bits none =>
    σ.transform s count (List.map (Vector.map fun x => op.eval ty x bits))
  | .binaryImm op ty count bits (some slot) =>
    σ.onMemory (·.apply batch (.binaryImm op ty slot count bits))
  | .ternary op ty count => σ.transform s (3 * count) (Words.combine3 count (op.eval ty))
  | .select count => σ.transform s (2 * count) (Words.combine count σ.memory.masked)
  | .swizzle consumed count packed =>
    σ.transform s consumed (Words.choose (unpackNybbles packed count))
  | .shuffle consumed count low high =>
    σ.transform s consumed
      (Words.choose (unpackNybbles low count ++ unpackNybbles high (count - 8)))
  | .transpose shape =>
    σ.transform s shape.size (Words.mapLanes shape.size (Matrix.transpose shape))
  | .diagonal shape =>
    σ.transform s 1 (Words.mapLanes shape.size fun x => Matrix.diagonal shape (x.getD 0 0))
  | .resize source target =>
    σ.transform s source.size (Words.mapLanes target.size (Matrix.resize source target))
  | .multiply left right =>
    σ.transform s (left.size + right.size)
      (Words.mapLanes (right.columns * left.rows) (Matrix.multiply left right))
  | .inverse size =>
    σ.transform s (size * size) (Words.mapLanes (size * size) (Matrix.invert size))
  | .determinant size =>
    σ.transform s (size * size) (Words.mapLanes 1 fun x => #[Matrix.determinant size x])
  | .dot count => σ.transform s (2 * count) (Words.mapLanes 1 fun x => #[Matrix.dot count x])
  | .refract => σ.transform s 9 (Words.mapLanes 4 Matrix.refract)
  | .invoke call => σ.onMemory fun m => { m with registers := host call m.registers }
  | .trace mark => σ.onMemory (·.apply batch (.trace mark))
  | .storeImmutable .. | .label _ | .branch .. => σ

/-- What keeps an operation from running, whatever is on the stacks. -/
def Op.fault? : Op → Option PipelineError
  | .multiply left right =>
    if left.columns = right.rows then none else some (.shapesDisagree left right)
  | _ => none

/-- An operation on a stack finds the words that it reads: enough on its own stack, and on those
that it names.  The slots that it names are value slots, wherever it may be moved to by an offset,
and a selection has no more components than its words can hold. -/
def Op.Finds (valueSlots : Nat) (depth : Int → Int) (s : Int) : Op → Prop
  | .pushSlots space range => space = .value → range.stop ≤ valueSlots
  | .pushIndirect space fixed offsetStack limit =>
    1 ≤ depth offsetStack ∧ (space = .value → fixed.stop ≤ valueSlots ∧ limit ≤ valueSlots)
  | .pushClone count distance => count ≤ distance ∧ distance ≤ depth s
  | .pushCloneFromStack count stack distance => count ≤ distance ∧ distance ≤ depth stack
  | .pushCloneIndirect count stack distance offsetStack =>
    count ≤ distance ∧ distance ≤ depth stack ∧ 1 ≤ depth offsetStack
  | .popMask _ | .popAndReenableLoop | .mergeLoop | .reenableLoop | .diagonal _ => 1 ≤ depth s
  | .popCoords | .mergeCondition _ | .matchCase _ => 2 ≤ depth s
  | .popColor _ => 4 ≤ depth s
  | .discard count | .unary _ _ count | .binaryImm _ _ count _ none => count ≤ depth s
  | .copyToSlots _ target distance =>
    target.count ≤ distance ∧ distance ≤ depth s ∧ target.stop ≤ valueSlots
  | .copyToIndirect fixed offsetStack limit distance =>
    fixed.count ≤ distance ∧ distance ≤ depth s ∧ 1 ≤ depth offsetStack ∧
      fixed.stop ≤ valueSlots ∧ limit ≤ valueSlots
  | .swizzleToSlots target count packed distance =>
    (unpackNybbles packed count).length ≤ distance ∧ distance ≤ depth s ∧
      target + Machine.scatterWidth (unpackNybbles packed count) ≤ valueSlots
  | .swizzleToIndirect target count packed distance offsetStack limit =>
    (unpackNybbles packed count).length ≤ distance ∧ distance ≤ depth s ∧
      1 ≤ depth offsetStack ∧
      target + Machine.scatterWidth (unpackNybbles packed count) ≤ valueSlots ∧
      limit ≤ valueSlots
  | .copySlots _ target source count =>
    target + count ≤ valueSlots ∧ source + count ≤ valueSlots
  | .zeroSlots range | .trace (.var range) => range.stop ≤ valueSlots
  | .continueLoop stack => 1 ≤ depth stack
  | .storeCoords target => target.index + 2 ≤ valueSlots
  | .storeInput _ target | .loadColor _ target => target.index + 4 ≤ valueSlots
  | .binary _ _ count | .select count | .dot count => 2 * count ≤ depth s
  | .binaryImm _ _ count _ (some slot) => slot + count ≤ valueSlots
  | .ternary _ _ count => 3 * count ≤ depth s
  | .swizzle consumed count _ => consumed ≤ depth s ∧ count ≤ 8
  | .shuffle consumed count _ _ => consumed ≤ depth s ∧ count ≤ 16
  | .transpose shape => shape.size ≤ depth s
  | .resize source _ => source.size ≤ depth s
  | .multiply left right => left.size + right.size ≤ depth s
  | .inverse size | .determinant size => size * size ≤ depth s
  | .refract => 9 ≤ depth s
  | .branch (.noLanesEqual _) _ => 1 ≤ depth s
  | .pushConstant .. | .pushMask _ | .pushInput _ | .pad _ | .storeImmutable .. | .initLaneMasks
  | .maskOffLoop | .maskOffReturn | .label _ | .branch .. | .invoke _ | .trace _ => True

instance (valueSlots : Nat) (depth : Int → Int) (s : Int) (op : Op) :
    Decidable (op.Finds valueSlots depth s) := by
  unfold Op.Finds
  split <;> infer_instance

section

-- Lean derives the equations of these functions here, once for all the proofs that use them.
attribute [local simp] Op.exec Op.Finds Op.fault? Op.stackUsage Machine.apply Stage.fault?

end

namespace StackMachine

variable (host : HostCall → Registers lanes → Registers lanes) (batch : Batch lanes)

/-- How many words there are on each stack. -/
def depth (σ : StackMachine lanes) (s : Int) : Int := (σ.stack s).length

/-- An instruction takes the machine from one state to another. -/
def Steps (i : Instruction) (σ τ : StackMachine lanes) : Prop :=
  match i.op with
  | .pad count => ∃ words, words.length = count ∧ τ = σ.push i.stack words
  | op => τ = op.exec host batch i.stack σ

/-- Instructions without branches take the machine from one state to another, in which they are all
done, or one of them cannot run. -/
inductive Runs : List Instruction → StackMachine lanes → StackMachine lanes →
    Option PipelineError → Prop
  | done (σ : StackMachine lanes) : Runs [] σ σ none
  | fault {i : Instruction} {e : PipelineError} (rest : List Instruction)
      (σ : StackMachine lanes) (h : i.op.fault? = some e) : Runs (i :: rest) σ σ (some e)
  | step {i : Instruction} {rest : List Instruction} {σ σ₁ τ : StackMachine lanes}
      {e : Option PipelineError} (h : i.op.fault? = none) (hi : Steps host batch i σ σ₁)
      (hrest : Runs rest σ₁ τ e) : Runs (i :: rest) σ τ e

/-- Runs instructions without branches and pads, until they are done or one of them cannot run. -/
def run : List Instruction → StackMachine lanes → StackMachine lanes × Option PipelineError
  | [], σ => (σ, none)
  | i :: rest, σ =>
    match i.op.fault? with
    | some e => (σ, some e)
    | none => run rest (i.op.exec host batch i.stack σ)

end StackMachine

end RasterShader
