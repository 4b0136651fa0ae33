import Mathlib
import RasterShader.Proofs.Codegen.Program
import RasterShader.Proofs.Flow.Rewinds

/-!
# Recording events

Events are recorded beside the run and are not read again, so that a pipeline gives the same colors
without the instructions that record them (`Pipeline.evaluate_untraced`).  This is so although
leaving instructions out moves the stages that branches lead to and the rewinds between them.

A program that is compiled with tracing is more than one with such instructions put in, and may
give other colors (`tracing_changes_color`).
-/

namespace RasterShader

variable {lanes : Nat}

/-! ## Machines that have recorded different events -/

namespace Machine

/-- Two machines differ in the events they have recorded at most. -/
def BesidesTrace (m m' : Machine lanes) : Prop := ∃ trace, m' = { m with trace }

namespace BesidesTrace

variable {m m' : Machine lanes}

theorem refl (m : Machine lanes) : BesidesTrace m m := ⟨m.trace, rfl⟩

theorem executes (h : BesidesTrace m m') (lane : Fin lanes) :
    m.executes lane = m'.executes lane := by
  obtain ⟨trace, rfl⟩ := h
  rfl

theorem setSlot (h : BesidesTrace m m') (slot : Nat) (words : Vector UInt32 lanes) :
    BesidesTrace (m.setSlot slot words) (m'.setSlot slot words) := by
  obtain ⟨trace, rfl⟩ := h
  exact ⟨trace, rfl⟩

theorem fill (h : BesidesTrace m m') (target count : Nat) (f : Nat → Vector UInt32 lanes) :
    BesidesTrace (m.fill target count f) (m'.fill target count f) :=
  forEach_rel count h fun _ _ _ _ h => h.setSlot _ _

theorem scatter (h : BesidesTrace m m') (target source : Nat) (components : List Nat)
    (lane : Fin lanes) :
    BesidesTrace (m.scatter target source components lane)
      (m'.scatter target source components lane) := by
  unfold Machine.scatter
  generalize components.zipIdx = placed
  induction placed generalizing m m' with
  | nil => exact h
  | cons c placed ih =>
    refine ih ?_
    obtain ⟨trace, rfl⟩ := h
    exact ⟨trace, rfl⟩

theorem record (h : BesidesTrace m m') (event : TraceEvent) : BesidesTrace (m.record event) m' := by
  obtain ⟨trace, rfl⟩ := h
  unfold Machine.record
  split <;> exact ⟨trace, rfl⟩

theorem mark (h : BesidesTrace m m') (batch : Batch lanes) (mark : TraceMark) :
    BesidesTrace (m.apply batch (.trace mark)) m' := by
  cases mark with
  | var range =>
    exact forEach_rel (R := fun m₁ _ => BesidesTrace m₁ m') (μ := m) (g := fun _ m => m)
      range.count h fun _ _ _ _ h => h.record _
  | _ => exact h.record _

theorem symm (h : BesidesTrace m m') : BesidesTrace m' m := by
  obtain ⟨trace, rfl⟩ := h
  exact ⟨m.trace, rfl⟩

theorem copy (h : BesidesTrace m m') (target source count : Nat) (masked : Bool) :
    BesidesTrace (m.copy target source count masked) (m'.copy target source count masked) := by
  refine forEach_rel count h fun i _ m₁ _ h => ?_
  obtain ⟨trace, rfl⟩ := h
  exact ⟨trace, rfl⟩

theorem mapLanes (h : BesidesTrace m m') (base consumed produced : Nat)
    (f : Array UInt32 → Array UInt32) :
    BesidesTrace (m.mapLanes base consumed produced f) (m'.mapLanes base consumed produced f) := by
  obtain ⟨trace, rfl⟩ := h
  exact fill ⟨trace, rfl⟩ _ _ _

/-- Every stage works on two such machines alike. -/
theorem apply (h : BesidesTrace m m') (batch : Batch lanes) (stage : Stage) :
    BesidesTrace (m.apply batch stage) (m'.apply batch stage) := by
  cases stage with
  | trace mark => exact ((h.mark batch mark).symm.mark batch mark).symm
  | copySlots | select => exact h.copy _ _ _ _
  | splat | zeroSlots | copyUniform | copyImmutable => exact h.fill _ _ _
  | unary | binary | binaryImm | ternary =>
    refine forEach_rel _ h fun i _ m₁ _ h => ?_
    obtain ⟨trace, rfl⟩ := h
    exact ⟨trace, rfl⟩
  | transpose | diagonal | resize | multiply | inverse | determinant | dot | refract =>
    simp only [Machine.apply]
    exact h.mapLanes _ _ _ _
  | swizzle =>
    obtain ⟨trace, rfl⟩ := h
    exact fill ⟨trace, rfl⟩ _ _ _
  | copyFromIndirect =>
    obtain ⟨trace, rfl⟩ := h
    refine forEach_rel _ ⟨trace, rfl⟩ fun i _ m₁ _ h => ?_
    obtain ⟨trace, rfl⟩ := h
    exact ⟨trace, rfl⟩
  | copyToIndirect =>
    refine forActiveLanes_rel (fun _ _ h => h.executes) h fun lane m₁ _ h => ?_
    obtain ⟨trace, rfl⟩ := h
    refine forEach_rel _ ⟨trace, rfl⟩ fun i _ m₂ _ h => ?_
    obtain ⟨trace, rfl⟩ := h
    exact ⟨trace, rfl⟩
  | swizzleCopy =>
    exact forActiveLanes_rel (fun _ _ h => h.executes) h fun lane _ _ h => h.scatter _ _ _ lane
  | swizzleCopyToIndirect =>
    refine forActiveLanes_rel (fun _ _ h => h.executes) h fun lane m₁ _ h => ?_
    obtain ⟨trace, rfl⟩ := h
    exact scatter ⟨trace, rfl⟩ _ _ _ lane
  | storeInput input target =>
    have hinput : m'.input batch input = m.input batch input := by
      obtain ⟨trace, rfl⟩ := h
      rfl
    simp only [Machine.apply, hinput]
    exact (((h.setSlot _ _).setSlot _ _).setSlot _ _).setSlot _ _
  | loadColor register source =>
    obtain ⟨trace, rfl⟩ := h
    cases register <;> exact ⟨trace, rfl⟩
  | loadMask mask source =>
    obtain ⟨trace, rfl⟩ := h
    cases mask <;> exact ⟨trace, rfl⟩
  | _ =>
    obtain ⟨trace, rfl⟩ := h
    exact ⟨trace, rfl⟩

/-- The same stages fail on both, and the same branches are taken. -/
theorem respects (batch : Batch lanes) : Respects batch BesidesTrace where
  takes := by
    rintro m _ ⟨trace, rfl⟩ condition
    cases condition <;> rfl
  step := by
    intro m m' h stage
    have hsize : m'.values.size = m.values.size := by
      obtain ⟨trace, rfl⟩ := h
      rfl
    rw [step, step, hsize]
    split
    · exact ⟨rfl, h⟩
    · exact ⟨rfl, h.apply batch stage⟩

end BesidesTrace

/-- Two runs have all in common but what they record. -/
def Likeness.besidesTrace (lanes : Nat) : Likeness lanes where
  machines := BesidesTrace
  outputs o o' := o'.colors = o.colors
  refl := .refl
  respects := BesidesTrace.respects
  values := by
    rintro m _ ⟨trace, rfl⟩
    rfl
  output := by
    rintro m _ ⟨trace, rfl⟩ count
    rfl
  append := by
    intro o o' b b' ho hb
    rw [RunOutput.append, RunOutput.append, ho, hb]

theorem idle_trace (batch : Batch lanes) (mark : TraceMark) :
    Idle batch BesidesTrace (.trace mark) :=
  ⟨rfl, fun h => ⟨rfl, h.mark batch mark⟩⟩

end Machine

/-! ## Pipelines that record nothing -/

/-- An instruction that records an event. -/
def Instruction.isTrace (i : Instruction) : Bool :=
  match i.op with
  | .trace _ => true
  | _ => false

/-- The pipeline without the instructions that record events. -/
def Pipeline.untraced (p : Pipeline) : Pipeline := p.without Instruction.isTrace

theorem Pipeline.evaluate_eq_of_lowerOn {p : Pipeline} {laneCount : Nat} {host : Option Host}
    {lowered : Lowered} (h : p.lowerOn (p.allocate (max laneCount 1)) host false = .ok lowered)
    (uniforms : List UInt32) (pixels : List Pixel) :
    p.evaluate laneCount host uniforms pixels =
      (Machine.run lowered.stages (p.loadOn lowered (p.allocate (max laneCount 1)) uniforms)
        ⟨[], []⟩ pixels).2 := by
  simp only [evaluate, h, bind, Except.bind]

/-- Recording events changes nothing but the trace.  For every pipeline, host whose branches do not
leave its own stages, number of lanes, uniforms and pixels, the pipeline without the instructions
that record events gives the same colors, or fails with the same error, if neither of the two runs
meets the limit of stages. -/
theorem Pipeline.evaluate_untraced (p : Pipeline) (laneCount : Nat) {host : Option Host}
    (contained : Host.Contained host) (uniforms : List UInt32) (pixels : List Pixel)
    (finished : ∀ steps, p.evaluate laneCount host uniforms pixels ≠ .error (.tooManySteps steps))
    (finished' : ∀ steps,
      p.untraced.evaluate laneCount host uniforms pixels ≠ .error (.tooManySteps steps)) :
    (p.untraced.evaluate laneCount host uniforms pixels).map (·.colors) =
      (p.evaluate laneCount host uniforms pixels).map (·.colors) := by
  have hdropped (i : Instruction) (hi : i.isTrace = true) : ∃ mark, i.op = .trace mark ∧
      (Stage.trace mark = .stackRewind ∨ ∃ mark', Stage.trace mark = .trace mark') := by
    obtain ⟨op, stack⟩ := i
    cases op with
    | trace mark => exact ⟨mark, rfl, .inr ⟨mark, rfl⟩⟩
    | _ => cases hi
  have hkept : p.untraced.without (fun _ => false) = p.untraced := by simp [without]
  -- both are compared with the stages for tail calls and without events
  have hsheds := p.lowerOn_sheds (p.allocate (max laneCount 1)) host false
    (fun stage => stage = .stackRewind ∨ ∃ mark, stage = .trace mark) (.inl rfl)
    Instruction.isTrace hdropped
  have hsheds' := p.untraced.lowerOn_sheds (p.allocate (max laneCount 1)) host false
    (· = .stackRewind) rfl (fun _ => false) (by simp)
  rw [hkept] at hsheds'
  obtain ⟨e, htraced, htail⟩ | ⟨marks, traced, tail, htraced, htail, sheds⟩ := hsheds <;>
    obtain ⟨e', hplain, htail'⟩ | ⟨marks', plain, tail', hplain, htail', sheds'⟩ := hsheds'
  · obtain rfl : e = e' := Except.error.inj (htail.symm.trans htail')
    rw [show p.evaluate laneCount host uniforms pixels = .error e by
        simp only [evaluate, htraced, bind, Except.bind],
      show p.untraced.evaluate laneCount host uniforms pixels = .error e from
        congrArg (· >>= _) hplain]
  · cases htail.symm.trans htail'
  · cases htail.symm.trans htail'
  · obtain rfl : tail = tail' := Except.ok.inj (htail.symm.trans htail')
    rw [evaluate_eq_of_lowerOn htraced] at finished ⊢
    rw [evaluate_eq_of_lowerOn (p := p.untraced) hplain] at finished' ⊢
    have hdata : p.untraced.loadOn plain (p.untraced.allocate (max laneCount 1)) uniforms =
        p.loadOn traced (p.allocate (max laneCount 1)) uniforms := by
      rw [loadOn, loadOn, ← sheds.immutable, ← sheds'.immutable]
      rfl
    rw [hdata] at finished' ⊢
    have alike := sheds.run contained (.besidesTrace _) (by
      rintro _ (rfl | ⟨mark, rfl⟩) batch
      · exact Machine.idle_stackRewind batch _
      · exact Machine.idle_trace batch mark) rfl finished
    have alike' := sheds'.run contained (.equal _) (by
      rintro _ rfl batch
      exact Machine.idle_stackRewind batch Eq) rfl finished'
    rw [alike'.eq] at alike
    generalize Machine.run plain.stages _ _ pixels = result' at alike ⊢
    generalize Machine.run traced.stages _ _ pixels = result at alike ⊢
    cases alike with
    | error data e => rfl
    | ok data related => exact congrArg Except.ok related

theorem Pipeline.evaluate_untraced_whiteLoop :
    (whiteLoop.evaluate 2 skippingHost [] [.zero]).map (·.trace) = .ok [⟨.line, 7, 0⟩] ∧
      (whiteLoop.untraced.evaluate 2 skippingHost [] [.zero]).map (·.trace) = .ok [] ∧
      (whiteLoop.untraced.evaluate 2 skippingHost [] [.zero]).map (·.colors) =
        (whiteLoop.evaluate 2 skippingHost [] [.zero]).map (·.colors) := by
  have hfinished {result : Except PipelineError RunOutput} {events : List TraceEvent}
      (h : result.map (·.trace) = .ok events) (steps : Nat) :
      result ≠ .error (.tooManySteps steps) := by
    rintro rfl
    cases h
  have htraced : (whiteLoop.evaluate 2 skippingHost [] [.zero]).map (·.trace) =
      .ok [⟨.line, 7, 0⟩] := by decide +kernel
  have hplain : (whiteLoop.untraced.evaluate 2 skippingHost [] [.zero]).map (·.trace) =
      .ok [] := by decide +kernel
  exact ⟨htraced, hplain, whiteLoop.evaluate_untraced 2 contained_skippingHost [] [.zero]
    (hfinished htraced) (hfinished hplain)⟩

/-! ## Programs compiled with tracing -/

/-- A variable that is declared in a branch and used after it. -/
def branchDeclaration : String :=
  "half4 main(float2 p) \x7b if (p.x > p.y) bool x = true; return half4(half(x)); \x7d"

/-- The colors of a shader that is compiled with or without tracing. -/
def shaderColors? (debugTrace : Bool) (source : String) (pixels : List Pixel) :
    Option (List (Rgba UInt32)) := do
  let settings : Settings := { Settings.standard with debugTrace }
  let program ← (Program.readOn .root ⟨.runtimeShader, settings⟩ source).toOption
  program.colors? 1 [] pixels

/-- Without tracing the variable is kept among the immutable words, and is true whether or not the
branch is taken; with tracing it is stored when the branch is taken. -/
theorem tracing_changes_color :
    shaderColors? false branchDeclaration [.zero] = some [.splat Word.one] ∧
      shaderColors? true branchDeclaration [.zero] = some [.splat 0] := by
  decide +kernel

end RasterShader
