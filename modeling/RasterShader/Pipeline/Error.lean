import RasterShader.Instruction.Text

/-!
# Errors of the pipeline

What can be wrong with a list of instructions, with its lowering to stages, and with running the
stages.
-/

namespace RasterShader

/-- Errors of a pipeline. -/
inductive PipelineError where
  /-- An instruction works on a stack with a negative number. -/
  | invalidStack (instruction : Nat) (stack : Int)
  | underflow (stack instruction : Nat) (op : Op)
  | unbalanced (stack : Nat) (depth : Int)
  | immutableOutOfRange (slot : Nat)
  | unallocatedLabel (label : Int)
  | unplacedLabel (label : Int)
  /-- A host stage is needed where there is no host. -/
  | noHost (op : Op)
  | rejectedChild (index : Nat) (op : Op)
  | slotsOutOfRange (range : SlotRange)
  | shapesDisagree (left right : Shape)
  | lanesDisagree (data machine : Nat)
  | branchOutOfRange (stage : Nat) (offset : Int)
  | tooManySteps (limit : Nat)
deriving DecidableEq, Repr

namespace PipelineError

/-- A label as an unsigned number of 64 bits. -/
def labelText (label : Int) : String := toString (label % 18446744073709551616)

/-- What is told of an error. -/
def message : PipelineError → String
  | invalidStack i stack => s!"instruction {i} uses invalid stack {stack}"
  | underflow stack i op => s!"stack {stack} underflows at instruction {i} ({op.title})"
  | unbalanced stack depth => s!"stack {stack} is unbalanced at end of program (depth {depth})"
  | immutableOutOfRange slot => s!"immutable slot {slot} is out of range"
  | unallocatedLabel label => s!"label {labelText label} was never allocated"
  | unplacedLabel label => s!"branch to label {labelText label} which was never placed"
  | noHost op => s!"{op.title} requires host callbacks"
  | rejectedChild index op => s!"host rejected child {index} for {op.title}"
  | slotsOutOfRange range => s!"slot range {range.index}..{range.stop} is outside the value arena"
  | shapesDisagree left right =>
    s!"matrix_multiply shapes ({left.columns}, {left.rows}) and " ++
      s!"({right.columns}, {right.rows}) do not agree"
  | lanesDisagree data machine =>
    s!"slot data has {data} lanes but the interpreter runs {machine}"
  | branchOutOfRange stage offset => s!"branch at #{stage} leaves the program (offset {offset})"
  | tooManySteps limit => s!"execution exceeded {limit} stages"

end PipelineError

end RasterShader
