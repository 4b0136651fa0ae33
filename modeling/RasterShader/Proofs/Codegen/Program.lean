import Mathlib
import RasterShader.Compiler
import RasterShader.Machine.Run
import RasterShader.Proofs.Code.Running
import RasterShader.Proofs.Codegen.Statement

/-!
# Generated programs

The code of a well-typed program leaves all stacks empty (`moves_writeProgram`), so that it is never
rejected for an unbalanced stack (`Program.generate_balanced`).

Type checking lets two kinds of program through whose values do not have the slots of their types.
A variable that stands for the device coordinates may have any type, and four words are pushed for
it all the same; and types are compared by name, so that a value may be stored to a variable with
other slots.  The code of both is rejected (`mismatched_slots_rejected`).

A variable that is passed to a parameter which is never written lends it its slots.  The parameter
then shows what later arguments of the same call store to the variable
(`lendingCall_sees_store`).

What one value leaves on a stack and another one takes from it may cancel, so that the code is
accepted.  In between, branches find the wrong words on the stack
(`guardedChoice_loses_condition`).
-/

namespace RasterShader

open Gen Builder GenM

variable {W : Widths} {ctx : CodeContext}

/-! ## The parts of a program -/

theorem moves_writeInputs {globals : List Variable}
    (h : ∀ v ∈ globals, v.ty.slotCount = W.slots v.id) : Moves W (writeInputs ctx globals) 0 := by
  refine Affects.bind (affects_modify (fun _ => ⟨rfl, rfl, rfl, rfl⟩) ?_) fun _ _ => ?_
  · exact fun g hg => ⟨hg.values, hg.uniforms, hg.immutableVars, hg.frame⟩
  · refine Affects.bind (Affects.forIn (ε := fun _ _ => 0) fun v hv => ?_) fun _ _ => ?_
    · split
      · refine Affects.bind (affects_uniformSlots ctx (h v hv)) fun _ _ => ?_
        exact Affects.pure rfl fun s => by simp
      · exact Affects.pure rfl fun s => by simp
    · exact Affects.pure trivial fun s => by simp

theorem moves_writeParameters {parameters : List Variable}
    (h : ∀ v ∈ parameters, v.ty.slotCount = W.slots v.id) (colors : Nat) :
    Moves W (writeParameters ctx colors parameters) 0 := by
  induction parameters generalizing colors with
  | nil => exact Moves.pure
  | cons v rest ih =>
    have ih := ih fun u hu => h u (List.mem_cons_of_mem _ hu)
    have hemit (op : Op) (hop : op.stackUsage = 0) (colors : Nat) :
        Moves W (build (·.emit op) >>= fun _ => writeParameters ctx colors rest) 0 :=
      ((moves_build fun _ => adds_emit).of_eq hop).seq (ih colors)
    refine Affects.bind (affects_valueSlots ctx (h v (List.mem_cons_self ..))) fun slots _ => ?_
    refine Affects.of_eq (ε := fun s _ => (0 : Int) • Effect.onTop s) ?_ fun s _ => by simp
    split_ifs
    · exact hemit _ rfl colors
    · exact hemit _ rfl 1
    · exact hemit _ rfl 2
    · exact Moves.throw

theorem moves_writeGlobals {globals : List (Variable × Option Expr)} (hctx : ctx.Balanced W.slots)
    (h : ∀ entry ∈ globals, entry.1.ty.slotCount = W.slots entry.1.id ∧
      ∀ e ∈ entry.2, e.WellTyped ctx.program W.slots ∧ e.ty.slotCount = entry.1.ty.slotCount) :
    Moves W (writeGlobals ctx globals) 0 := by
  refine Affects.bind (Affects.forIn (ε := fun _ _ => 0) ?_) fun _ _ => ?_
  · rintro ⟨v, value⟩ hentry
    obtain ⟨hslots, htyped⟩ := h (v, value) hentry
    dsimp only
    split
    · refine Moves.bind (moves_writeDeclaration hslots fun e he => ?_) ?_
      · obtain ⟨hwell, htype⟩ := htyped e he
        exact (hwell.fits hctx).push_of_slots (by rw [Operand.slots, Expr.operand_ty, htype])
      · exact Affects.pure rfl fun s => by simp
    · exact Affects.pure rfl fun s => by simp
  · exact Affects.pure trivial fun s => by simp

/-! ## Programs -/

/-- Every value in a program has the slots of its type, and every variable as many as its identity
stands for. -/
structure Program.Consistent (program : Program) (slots : Nat → Nat) : Prop where
  functions : program.WellTyped slots
  main : ∀ main ∈ program.main?,
    main.body.WellTyped program slots main.decl.returnType.slotCount ∧
      ∀ v ∈ main.decl.parameters, v.ty.slotCount = slots v.id
  globals : ∀ entry ∈ program.globals, entry.1.ty.slotCount = slots entry.1.id ∧
    ∀ e ∈ entry.2, e.WellTyped program slots ∧ e.ty.slotCount = entry.1.ty.slotCount

/-- The body of the main function leaves all stacks as they were, and so does loading its color. -/
theorem moves_writeMain {main : FunctionDef} {result : Option SlotRange}
    (hctx : ctx.Balanced W.slots)
    (hbody : main.body.WellTyped ctx.program W.slots main.decl.returnType.slotCount)
    (hresult : ∀ range ∈ result, range.count = main.decl.returnType.slotCount) :
    Moves W (do
      writeFunction ctx main result
      match result.or (← get).fragColor with
      | some color => build (·.emit (.loadColor .src color))
      | none => build fun b => (b.pushZeros 4).popColor .src) 0 := by
  refine (moves_writeFunction hctx hbody hresult).bind (Affects.get_bind fun g _ => ?_)
  refine Affects.of_eq (ε := fun s _ => (0 : Int) • Effect.onTop s) ?_ fun s _ => by simp
  split
  · exact (moves_build fun _ => adds_emit).of_eq rfl
  · exact (moves_build fun _ => adds_pushZeros.trans adds_popColor).of_eq rfl

/-- The code of a program leaves all stacks as they were. -/
theorem moves_writeProgram (hctx : ctx.Balanced W.slots) (h : ctx.program.Consistent W.slots) :
    Moves W (writeProgram ctx) 0 := by
  unfold writeProgram
  split
  · exact Moves.throw
  · rename_i main hmain
    obtain ⟨hbody, hparameters⟩ := h.main main hmain
    have hglobals : ∀ v ∈ ctx.program.globals.map (·.1), v.ty.slotCount = W.slots v.id := by
      intro v hv
      obtain ⟨entry, hentry, rfl⟩ := List.mem_map.1 hv
      exact (h.globals entry hentry).1
    dsimp only
    have hmasks : Moves W (build (·.emit .initLaneMasks)) 0 := moves_build fun _ => adds_emit
    refine hmasks.bind ((moves_writeInputs hglobals).bind ?_)
    refine (moves_writeParameters hparameters 0).bind ((moves_writeGlobals hctx h.globals).bind ?_)
    have hmainCode (result : Option SlotRange)
        (hresult : ∀ range ∈ result, range.count = main.decl.returnType.slotCount) :=
      moves_writeMain hctx hbody hresult
    split
    · exact Affects.of_eq (hmainCode none (by simp)) fun s _ => by simp
    · refine Affects.bind (affects_functionIndex ctx main.decl) fun index _ => ?_
      refine Affects.bind (affects_allocate _ _ _ index) fun range hrange => ?_
      exact Affects.of_eq (hmainCode (some range) (by simpa using hrange)) fun s _ => by simp

/-! ## Finishing the code -/

/-- While depths are added up, no stack is found to be unbalanced. -/
theorem StackDepths.after_ne_unbalanced (depths : StackDepths) (index : Nat)
    (instructions : List Instruction) (stack : Nat) (depth : Int) :
    depths.after index instructions ≠ .error (.unbalanced stack depth) := by
  induction instructions generalizing depths index with
  | nil => simp [after]
  | cons i rest ih =>
    cases hstep : depths.step index i with
    | ok mid => simpa only [after, hstep, bind, Except.bind] using ih mid (index + 1)
    | error e =>
      have he : e ≠ .unbalanced stack depth := by
        rintro rfl
        unfold step at hstep
        split at hstep
        · cases hstep
        · dsimp only at hstep
          split at hstep <;> cases hstep
      simpa only [after, hstep, bind, Except.bind, ne_eq, Except.error.injEq] using he

/-- Instructions that leave all stacks empty are not unbalanced. -/
theorem Pipeline.ofInstructions_ne_unbalanced {instructions : List Instruction}
    (h : ∀ s : Nat, stackDepth instructions s = 0)
    (valueSlots uniformSlots immutableSlots labelCount : Nat) (debugTrace : Option DebugTrace)
    (stack : Nat) (depth : Int) :
    ofInstructions instructions valueSlots uniformSlots immutableSlots labelCount debugTrace ≠
      .error (.unbalanced stack depth) := by
  unfold ofInstructions
  cases hafter : StackDepths.empty.after 0 instructions with
  | error e =>
    have he := StackDepths.empty.after_ne_unbalanced 0 instructions stack depth
    simpa only [hafter, bind, Except.bind, ne_eq, Except.error.injEq] using he
  | ok depths =>
    obtain ⟨-, -, -, hsum, -⟩ := StackDepths.after_eq_ok StackDepths.sound_empty hafter
    have hbalanced : depths.balanced = .ok () := by
      rw [StackDepths.balanced_eq_ok_iff]
      intro s
      rw [hsum, h]
      simp [StackDepths.empty]
    simp [hbalanced, bind, Except.bind, pure, Except.pure]

theorem Gen.agrees_start (trace : Bool) : (Gen.start trace).Agrees W := by
  refine ⟨⟨?_, ?_⟩, ⟨?_, ?_⟩, ?_, ?_⟩ <;> simp [Gen.start, SlotTable.empty]

/-- The code of a program whose values have the slots of their types is never rejected for a stack
that is not empty in the end. -/
theorem Program.generate_balanced {program : Program} {slots : Nat → Nat}
    (h : program.Consistent slots) (stack : Nat) (depth : Int) :
    program.generate ≠ .error (.pipeline (.unbalanced stack depth)) := by
  let W : Widths := ⟨slots, 0⟩
  have hcode : Moves W (writeProgram (.ofProgram program)) 0 := by
    apply moves_writeProgram
    · exact CodeContext.balanced_ofDepth h.functions _ _
    · have hsame : (CodeContext.ofProgram program).program = program :=
        CodeContext.ofDepth_program ..
      rwa [hsame]
  unfold generate
  dsimp only
  split
  · simp
  · rename_i g hrun
    obtain ⟨step, -⟩ := hcode _ () g (Gen.agrees_start _) hrun
    have hempty (s : Nat) : stackDepth g.builder.instructions s = 0 := by
      have hdepth := congrFun step.depth s
      simp only [zero_smul, Prod.fst_zero, add_zero] at hdepth
      rw [Builder.instructions, stackDepth_reverse]
      exact hdepth
    split
    · rename_i e hfinish
      rintro ⟨⟩
      exact Pipeline.ofInstructions_ne_unbalanced hempty _ _ _ _ _ _ _ hfinish
    · simp

theorem mem_of_findDefinition? {functions : List FunctionDef} {decl : FunctionDecl}
    {f : FunctionDef} (h : findDefinition? functions decl = some f) : f ∈ functions := by
  unfold findDefinition? at h
  split at h
  · rename_i found hfound
    obtain rfl := Option.some.inj h
    exact List.mem_of_find?_eq_some hfound
  · exact List.mem_of_find?_eq_some h

/-- A fragment program of some elements and a main function. -/
def fragmentProgram (elements : List Element) (body : List Stmt) : Program :=
  let main : FunctionDecl := ⟨0, "main", [], .void, default, none, false, default⟩
  ⟨⟨.fragment, .standard⟩, "", [], elements ++ [.function ⟨main, .block default body true⟩]⟩

/-- The program `bool c; void main() { if (c) c; }` is generated without such an error. -/
theorem Program.generate_balanced_branch :
    let c := booleanLocal 1 "c"
    let s : Stmt := .branch default (valueOf c) (.expression default (valueOf c)) none
    let program := fragmentProgram [.global default c none] [s]
    program.Consistent (fun _ => 1) ∧
      program.generate ≠ .error (.pipeline (.unbalanced 0 1)) := by
  intro c s program
  have hc : (valueOf c).WellTyped program fun _ => 1 :=
    .reference rfl rfl (by decide) (by simp) (by simp)
  have hs : s.WellTyped program (fun _ => 1) 0 := .branch hc rfl (.expression hc) (by simp)
  have hbody : ∀ f ∈ program.functions,
      f.body.WellTyped program (fun _ => 1) f.decl.returnType.slotCount := by
    intro f hf
    obtain rfl := List.mem_singleton.1 hf
    exact .block fun t ht => List.mem_singleton.1 ht ▸ hs
  have consistent : program.Consistent fun _ => 1 := by
    refine ⟨fun f definition hfind => hbody definition ?_, fun main hmain => ?_, ?_⟩
    · unfold findDefinition? at hfind
      split at hfind
      · rename_i found hfound
        obtain rfl := Option.some.inj hfind
        exact mem_of_findDefinition? hfound
      · cases hfind
    · obtain rfl := Option.some.inj hmain
      exact ⟨hbody _ (List.mem_singleton_self _), by simp⟩
    · intro entry hentry
      obtain rfl := List.mem_singleton.1 hentry
      exact ⟨rfl, by simp⟩
  exact ⟨consistent, generate_balanced consistent 0 1⟩

/-! ## Programs that are rejected -/

/-- A scalar that is no uniform. -/
def scalarIn (storage : Storage) (id : Nat) (name : String) : Variable :=
  ⟨id, name, .float, default, storage, default, false⟩

/-- The program `layout(builtin=15) float x; void main() { float y = x; }`. -/
def deviceScalar : Program :=
  let layout : Layout := ⟨[], [(.builtin, 15)]⟩
  let x : Variable := ⟨1, "x", .float, ⟨layout, default, default⟩, .global, default, false⟩
  fragmentProgram [.global default x none]
    [.declare default (scalarIn .local 2 "y") (some (valueOf x))]

/-- The program `uniform B { float a; } b; struct B { float2 x; }; void main() { B s = b; }`. -/
def sharedName : Program :=
  let block : Ty := .struct "B" [⟨"a", .float, default, default⟩] true
  let ty : Ty := .struct "B" [⟨"x", .vector .float 2, default, default⟩] false
  let b : Variable := ⟨1, "b", block, .ofFlags .uniform, .interfaceBlock, default, false⟩
  let s : Variable := ⟨2, "s", ty, default, .local, default, false⟩
  fragmentProgram [.interfaceBlock default b "B" "b", .struct default ty]
    [.declare default s (some (valueOf b))]

/-- The error that the code of a program is rejected with. -/
def Program.rejection? (program : Program) : Option PipelineError :=
  match program.generate with
  | .error (.pipeline e) => some e
  | _ => none

/-- Four words are pushed for the device coordinates, and only one is stored; two words are stored
to a variable whose value has one. -/
theorem mismatched_slots_rejected :
    deviceScalar.rejection? = some (.unbalanced 0 3) ∧
      sharedName.rejection? = some (.underflow 0 3 (.discard 2)) := by
  decide +kernel

/-! ## A variable that changes while its slots are lent -/

/-- The function `float f(float a, float b) { return a; }`. -/
def firstOfTwo : FunctionDef :=
  let a := scalarIn .parameter 1 "a"
  let b := scalarIn .parameter 2 "b"
  ⟨⟨3, "f", [a, b], .float, default, none, false, default⟩,
    .block default [.returns default (some (valueOf a))] true⟩

/-- A uniform scalar. -/
def uniformScalar (id : Nat) (name : String) : Variable :=
  ⟨id, name, .float, .ofFlags .uniform, .global, default, false⟩

/-- The shader `half4 main(float2 p) { float x = u; …; float r = f(…); return half4(r, r, r, r); }`
with uniforms `u` and `v`, and given declarations and arguments. -/
def callingShader (declarations : List Stmt) (arguments : List Expr) : Program :=
  let u := uniformScalar 4 "u"
  let p : Variable := ⟨6, "p", .vector .float 2, default, .parameter, default, false⟩
  let r := scalarIn .local 8 "r"
  let color : Ty := .vector .half 4
  let main : FunctionDecl := ⟨0, "main", [p], color, default, none, false, default⟩
  let body : List Stmt :=
    .declare default (scalarIn .local 7 "x") (some (valueOf u)) :: declarations ++
      [.declare default r (some (.call ⟨default, .float⟩ firstOfTwo.decl arguments)),
        .returns default
          (some (.assemble ⟨default, color⟩ .compound (List.replicate 4 (valueOf r))))]
  ⟨⟨.runtimeShader, .standard⟩, "", [],
    [.global default u none, .global default (uniformScalar 5 "v") none, .function firstOfTwo,
      .function ⟨main, .block default body true⟩]⟩

/-- The call `f(x, x = v)`. -/
def lendingCall : Program :=
  let x := scalarIn .local 7 "x"
  callingShader [] [valueOf x, storeValue .assign x (uniformScalar 5 "v")]

/-- The call `f(s, t)` after `float s = x; float t = (x = v);`. -/
def copyingCall : Program :=
  let x := scalarIn .local 7 "x"
  let s := scalarIn .local 9 "s"
  let t := scalarIn .local 10 "t"
  callingShader
    [.declare default s (some (valueOf x)),
      .declare default t (some (storeValue .assign x (uniformScalar 5 "v")))]
    [valueOf s, valueOf t]

/-- The colors of pixels, where a program can be compiled and run. -/
def Program.colors? (program : Program) (lanes : Nat) (uniforms : List UInt32)
    (pixels : List Pixel) : Option (List (Rgba UInt32)) := do
  let pipeline ← program.generate.toOption
  let output ← (pipeline.evaluate lanes none uniforms pixels).toOption
  return output.colors

/-- The slots of `x` are lent to the first parameter before the second argument stores to them, so
that the call gives `v` where the value of the first argument is `u`. -/
theorem lendingCall_sees_store :
    lendingCall.colors? 1 [1, 5] [.zero] = some [.splat 5] ∧
      copyingCall.colors? 1 [1, 5] [.zero] = some [.splat 1] := by
  decide +kernel

/-! ## A choice that loses the condition mask -/

/-- Reads a fragment program that knows the inputs and outputs of its stage. -/
def fragmentProgram? (source : String) : Option Program :=
  let library := Library.root.extend .fragment "sksl_frag" LibrarySource.fragment
  (Program.readOn library ⟨.fragment, .standard⟩ source).toOption

/-- A choice between blocks without slots in an inner branch, and then the color white.  The word
that the choice leaves on the stack is taken away again by the assignment, since values of the block
`B`, which have one slot, pass for values of the struct, which have two. -/
def guardedChoice : String :=
  "buffer Z \x7b float a[]; \x7d z; uniform B \x7b float a; \x7d b; " ++
    "struct B \x7b float2 x; \x7d; void main() \x7b bool t; B s; " ++
    "if (sk_FragCoord.x == 0.0) \x7b if (t) \x7b t ? z : z; \x7d s = b; " ++
    "sk_FragColor = half4(1); \x7d \x7d"

/-- The stages of a program. -/
def Program.stages? (program : Program) : Option (List Stage) := do
  let pipeline ← program.generate.toOption
  let lowered ← (pipeline.lower none false).toOption
  return lowered.stages.toList

/-- The condition mask after the first stages of a program, with one lane at the origin. -/
def Program.conditionAfter? (program : Program) (count : Nat) : Option UInt32 := do
  let pipeline ← program.generate.toOption
  let lowered ← (pipeline.lower none false).toOption
  let data := pipeline.load lowered 1 []
  let pixels := #[Pixel.zero]
  let after := Machine.runFrom (lowered.stages.take count) (Machine.batchOf data pixels)
    Machine.maxSteps 0 (Machine.ofPixels data.values pixels)
  guard after.2.isNone
  after.1.condition.toList.head?

/-- The program is accepted and runs.  The word that the choice has left is discarded in place of
the test of the inner branch, so that the test, which is off, is taken for the condition mask that
was saved: after the six stages of the branch the lane is off, and white is not stored. -/
theorem guardedChoice_loses_condition :
    ((fragmentProgram? guardedChoice).bind fun program => do
      let branch := ((← program.stages?).drop 9).take 6
      let before ← program.conditionAfter? 9
      let after ← program.conditionAfter? 15
      let colors ← program.colors? 1 [] [.zero]
      return (branch.map Stage.name, before, after, colors)) =
    some (["store_condition_mask", "copy_1_slots_unmasked", "merge_condition_mask",
      "branch_if_no_lanes_active", "copy_1_slots_unmasked", "load_condition_mask"],
      Word.allOnes, 0, [.splat 0]) := by
  decide +kernel

end RasterShader
