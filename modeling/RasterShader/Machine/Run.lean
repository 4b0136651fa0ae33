import RasterShader.Machine.Step
import RasterShader.Pipeline.Lowering

/-!
# Running a pipeline

`Machine.run` runs stages over a list of pixels, as many at a time as there are lanes, and gives the
source color of each pixel in the end. `Pipeline.evaluate` lowers a pipeline and runs it.
-/

namespace RasterShader

/-- What a run gives. -/
structure RunOutput where
  /-- The source color of each pixel. -/
  colors : List (Rgba UInt32)
  /-- Events of the first batch that recorded any. -/
  trace : List TraceEvent
deriving Repr, Inhabited

/-- The output of a batch after that of others. -/
def RunOutput.append (output batch : RunOutput) : RunOutput :=
  ⟨output.colors ++ batch.colors, if output.trace.isEmpty then batch.trace else output.trace⟩

namespace Machine

variable {lanes : Nat}

/-- The most stages a batch may run. -/
def maxSteps : Nat := 10000000

/-- Runs stages from a place on until the end is reached, an error occurs, or `fuel` stages have
been run. The machine is the one at that point. -/
def runFrom (stages : Array Stage) (batch : Batch lanes) :
    (fuel place : Nat) → Machine lanes → Machine lanes × Option PipelineError
  | fuel, place, m =>
    match stages[place]? with
    | none => (m, none)
    | some stage =>
      match fuel with
      | 0 => (m, some (.tooManySteps maxSteps))
      | fuel + 1 =>
        match stage with
        | .branch condition offset =>
          if m.takes batch condition then
            let target := place + offset
            if target < 0 ∨ (stages.size : Int) < target then
              (m, some (.branchOutOfRange place offset))
            else runFrom stages batch fuel target.toNat m
          else runFrom stages batch fuel (place + 1) m
        | stage =>
          match m.step batch stage with
          | (m, some e) => (m, some e)
          | (m, none) => runFrom stages batch fuel (place + 1) m

/-- The words of a channel for a batch, zero in lanes without a pixel. -/
def channel (lanes : Nat) (pixels : Array Pixel) (f : Pixel → UInt32) : Vector UInt32 lanes :=
  Vector.ofFn fun lane => f (pixels.getD lane .zero)

/-- The machine at the start of a batch. -/
def ofPixels (values : Array (Vector UInt32 lanes)) (pixels : Array Pixel) : Machine lanes where
  values
  registers :=
    let color (f : Pixel → Rgba UInt32) : Rgba (Vector UInt32 lanes) :=
      ⟨channel lanes pixels fun p => (f p).r, channel lanes pixels fun p => (f p).g,
        channel lanes pixels fun p => (f p).b, channel lanes pixels fun p => (f p).a⟩
    ⟨color Pixel.src, color Pixel.dst⟩
  condition := Vector.replicate lanes 0
  loop := Vector.replicate lanes 0
  returns := Vector.replicate lanes 0
  trace := #[]

/-- What stays fixed for a batch. -/
def batchOf (data : SlotData lanes) (pixels : Array Pixel) : Batch lanes where
  active := pixels.size
  immutable := data.immutable
  uniforms := data.uniforms
  deviceX := channel lanes pixels fun p => p.device.1
  deviceY := channel lanes pixels fun p => p.device.2

/-- The source colors of the first `count` lanes. -/
def colors (m : Machine lanes) (count : Nat) : List (Rgba UInt32) :=
  (List.range count).map fun lane => m.registers.src.map (·.toArray.getD lane 0)

/-- Runs stages over one batch of pixels. The memory is the one at the end, also after an error. -/
def runBatch (stages : Array Stage) (data : SlotData lanes) (pixels : Array Pixel) :
    SlotData lanes × Except PipelineError RunOutput :=
  let (m, error) :=
    runFrom stages (batchOf data pixels) maxSteps 0 (ofPixels data.values pixels)
  let data := { data with values := m.values }
  match error with
  | some e => (data, .error e)
  | none => (data, .ok ⟨m.colors pixels.size, m.trace.toList⟩)

/-- Runs stages over pixels, with as many lanes as the memory has. The memory is the one at the end,
also after an error. -/
def run (stages : Array Stage) (data : SlotData lanes) (output : RunOutput) :
    List Pixel → SlotData lanes × Except PipelineError RunOutput
  | [] => (data, .ok output)
  | pixel :: rest =>
    match runBatch stages data (pixel :: rest.take (lanes - 1)).toArray with
    | (data, .error e) => (data, .error e)
    | (data, .ok batch) => run stages data (output.append batch) (rest.drop (lanes - 1))
termination_by pixels => pixels.length

/-- Runs stages over pixels on a machine with a given number of lanes, which has to be that of the
memory. -/
def runOn (laneCount : Nat) (stages : Array Stage) (data : SlotData lanes) (pixels : List Pixel) :
    SlotData lanes × Except PipelineError RunOutput :=
  if lanes = laneCount then run stages data ⟨[], []⟩ pixels
  else (data, .error (.lanesDisagree lanes laneCount))

end Machine

/-- Lowers a pipeline and runs it over pixels. There is always at least one lane. -/
def Pipeline.evaluate (pipeline : Pipeline) (laneCount : Nat) (host : Option Host)
    (uniforms : List UInt32) (pixels : List Pixel) : Except PipelineError RunOutput := do
  let data := pipeline.allocate (max laneCount 1)
  let lowered ← pipeline.lowerOn data host false
  (Machine.run lowered.stages (pipeline.loadOn lowered data uniforms) ⟨[], []⟩ pixels).2

end RasterShader
