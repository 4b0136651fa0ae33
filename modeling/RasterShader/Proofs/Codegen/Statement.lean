import Mathlib
import RasterShader.Machine.Run
import RasterShader.Proofs.Codegen.Expression

/-!
# What statements leave on the stack

The code of a well-typed statement leaves every stack as deep as it was, in the context it was
written in, and gives back the stacks it took (`Stmt.WellTyped.moves`).  Inside loops and switches
jumps lead elsewhere, so that their bodies are written in another context; what is known of the
bodies holds in every context, and the context is put back at the end.

Calls nest as deep as the context of a program allows, and the bodies of called functions are
balanced by induction on that depth (`CodeContext.balanced_ofDepth`).

The last section runs the code of a few statements in which something is not as one would expect: a
choice between values without slots leaves its test on the stack, a parameter that is `const` is
taken for uniform, and a declaration is stored in lanes that have left the loop around it.
-/

namespace RasterShader

open Gen Builder GenM

variable {W : Widths} {ctx : CodeContext}

/-! ## Other contexts -/

/-- A step that was made in another context is a step of the state when the context is put
back. -/
theorem Gen.Step.within {V : Widths} {g g' : Gen} {c : Context} {closed : Nat} {ε : Effect}
    (h : (g.inContext c).Step V closed g' ε) (hg : g.Agrees W) (hslots : W.slots = V.slots) :
    g.Step W closed (g'.inContext g.context) ε := by
  have hback := h.inContext (c := g.context) hslots hg.frame
  rwa [inContext_inContext, inContext_context] at hback

/-- The computation may leave jumps leading elsewhere.  Its effect is `ε`, given the current stack,
once they are put back. -/
def Diverts (W : Widths) (act : GenM Unit) (ε : Int → Effect) : Prop :=
  ∀ g u g', g.Agrees W → act g = .ok (u, g') →
    g'.builder.stack = g.builder.stack ∧ g'.frame = g.frame ∧
      g.Step W 0 (g'.inContext g.context) (ε g.builder.stack)

namespace Diverts

theorem bind {α : Type} {x : GenM α} {f : α → GenM Unit} {ε₁ : Int → α → Effect}
    {ε : Int → Effect} {P : α → Prop} (hx : Affects W 0 x ε₁ P)
    (hf : ∀ a, P a → Diverts W (f a) fun s => ε s - ε₁ s a) : Diverts W (x >>= f) ε := by
  intro g u g' hg h
  obtain ⟨a, g₁, hxa, hfa⟩ := bind_eq_ok.1 h
  obtain ⟨step₁, hP⟩ := hx g a g₁ hg hxa
  obtain ⟨hstack, hframe, step₂⟩ := hf a hP g₁ u g' step₁.agrees hfa
  have hframe₁ : g₁.frame = g.frame := congrArg Context.frame step₁.context
  refine ⟨hstack.trans step₁.stack, hframe.trans hframe₁, ?_⟩
  rw [step₁.context] at step₂
  refine (step₁.trans step₂).of_eq ?_
  rw [step₁.stack]
  exact add_sub_cancel _ _

end Diverts

/-- What is written inside a loop is written with jumps leading to given places, and so is what
follows. -/
theorem diverts_insideLoop {exit : Int} {continueStack : Option Int} {body rest : GenM Unit}
    {ε : Int → Effect} (hbody : Moves W body 0)
    (hrest : Affects W 0 rest (fun s _ => ε s) fun _ => True) :
    Diverts W (insideLoop exit continueStack body >>= fun _ => rest) ε := by
  intro g u g' hg h
  obtain ⟨_, g₁, hinside, hafter⟩ := bind_eq_ok.1 h
  obtain ⟨_, g₀, hset, hinner⟩ := bind_eq_ok.1 hinside
  obtain rfl := modify_eq_ok.1 hset
  let c : Context := { g.context with breakTarget := some exit, continueStack }
  have hc : (g.inContext c).Agrees W := hg.inContext rfl hg.frame
  obtain ⟨step₁, -⟩ := hbody (g.inContext c) _ g₁ hc hinner
  obtain ⟨step₂, -⟩ := hrest g₁ u g' step₁.agrees hafter
  have step := step₁.trans step₂
  refine ⟨step.stack, congrArg Context.frame step.context, (step.within hg rfl).of_eq ?_⟩
  simp only [step₁.stack, zero_smul, zero_add]
  rfl

/-! ## Declarations -/

theorem affects_promoteToImmutable {v : Variable} {value : Expr}
    (hv : v.ty.slotCount = W.slots v.id) :
    Affects W 0 (promoteToImmutable ctx v value) (fun _ _ => 0) fun _ => True := by
  unfold promoteToImmutable
  split
  · exact Affects.pure trivial fun _ => rfl
  rcases value.constantValue? with _ | values
  · exact Affects.pure trivial fun _ => rfl
  dsimp only
  split
  · exact Affects.pure trivial fun _ => rfl
  rename_i hlength
  have hcount : (constantBits v.ty values).length = v.ty.slotCount := by simpa using hlength
  refine Affects.bind (affects_immutableSlots _) fun range hrange => ?_
  refine Affects.bind (affects_modify (fun _ => ⟨rfl, rfl, rfl, rfl⟩) ?_)
    fun _ _ => Affects.pure trivial fun s => by simp
  intro g hg
  refine ⟨hg.values, hg.uniforms, ?_, hg.frame⟩
  intro entry hentry
  rcases List.mem_cons.1 hentry with rfl | hentry
  · exact hrange.trans (hcount.trans hv)
  · exact hg.immutableVars entry hentry

theorem moves_writeSlots {v : Variable} {value : Option Expr}
    (hv : v.ty.slotCount = W.slots v.id)
    (hvalue : ∀ e ∈ value, Moves W (e.operand ctx).push v.ty.slotCount) :
    Moves W (writeSlots ctx v value) 0 := by
  unfold writeSlots
  refine Affects.bind (affects_valueSlots ctx hv) fun range hrange => ?_
  have htrace : Moves W (if ctx.trace = true then build (·.traceVar range) else pure ()) 0 :=
    Moves.of_cond (moves_build fun b => adds_traceVar)
  rcases value with _ | e
  · refine Moves.bind (moves_build fun b => adds_zeroSlots) (Affects.of_eq htrace fun s _ => ?_)
    module
  · refine (hvalue e rfl).bind (Moves.bind (moves_build fun b => adds_popSlotsUnmasked) ?_)
    refine Affects.of_eq htrace fun s _ => ?_
    rw [hrange, hv]
    module

theorem moves_writeDeclaration {v : Variable} {value : Option Expr}
    (hv : v.ty.slotCount = W.slots v.id)
    (hvalue : ∀ e ∈ value, Moves W (e.operand ctx).push v.ty.slotCount) :
    Moves W (writeDeclaration ctx v value) 0 := by
  have hslots := moves_writeSlots hv hvalue
  rcases value with _ | e
  · exact hslots
  · refine Affects.bind (affects_promoteToImmutable hv) fun promoted _ => ?_
    refine Affects.of_eq (ε := fun s _ => (0 : Int) • Effect.onTop s) ?_ fun s _ => by simp
    cases promoted with
    | true => exact Moves.pure
    | false => exact hslots

/-! ## Branches -/

theorem moves_writeMaskedBranch {test ifTrue : GenM Unit} {ifFalse : Option (GenM Unit)}
    (htest : Moves W test 1) (htrue : Moves W ifTrue 0)
    (hfalse : ∀ act ∈ ifFalse, Moves W act 0) :
    Moves W (writeMaskedBranch test ifTrue ifFalse) 0 := by
  refine affects_enable_bind (fun b => adds_pushMask) (htest.bind ?_)
  refine Moves.bind (moves_build fun b => adds_emit) ?_
  refine Affects.bind affects_newLabel fun falseLabel _ => ?_
  refine Moves.bind (moves_build fun b => adds_branch) (htrue.bind ?_)
  -- The mask and the test are discarded together with the construct.
  have hclose : Affects W 1 (build fun b => ((b.discard 1).popMask .condition).disableMaskWrites)
      (fun s _ => (-2 : Int) • Effect.onTop s) fun _ => True :=
    affects_disable fun b => adds_discard.trans adds_popMask
  rcases ifFalse with _ | ifFalse
  · refine Moves.bind (moves_build fun b => adds_label) (hclose.of_eq fun s _ => ?_)
    simp only [Op.stackUsage]
    module
  · refine Affects.bind affects_newLabel fun exitLabel _ => ?_
    refine Moves.bind (moves_build fun b => (adds_label.trans adds_emit).trans adds_branch) ?_
    refine (hfalse ifFalse rfl).bind ?_
    refine Moves.bind (moves_build fun b => adds_label) (hclose.of_eq fun s _ => ?_)
    simp only [Op.stackUsage]
    module

theorem moves_writeUniformBranch {test ifTrue : GenM Unit} {ifFalse : Option (GenM Unit)}
    (htest : Moves W test 1) (htrue : Moves W ifTrue 0)
    (hfalse : ∀ act ∈ ifFalse, Moves W act 0) :
    Moves W (writeUniformBranch test ifTrue ifFalse) 0 := by
  refine htest.bind (Affects.bind affects_newLabel fun falseLabel _ => ?_)
  refine Moves.bind (moves_build fun b => adds_branch) (htrue.bind ?_)
  have hclose : Moves W (build (·.discard 1)) (-1) := moves_build fun b => adds_discard
  rcases ifFalse with _ | ifFalse
  · refine Moves.bind (moves_build fun b => adds_label) (Affects.of_eq hclose fun s _ => ?_)
    module
  · refine Affects.bind affects_newLabel fun exitLabel _ => ?_
    refine Moves.bind (moves_build fun b => adds_jump.trans adds_label) ?_
    refine (hfalse ifFalse rfl).bind ?_
    refine Moves.bind (moves_build fun b => adds_label) (Affects.of_eq hclose fun s _ => ?_)
    module

/-! ## Loops -/

/-- What a stack for the lanes that continue holds: one word, and the stack itself. -/
def continueEffect : Option Int → Effect
  | none => 0
  | some t => Effect.onTop t + Effect.taken t

theorem affects_createContinueStack (jumps : Jumps) :
    Affects W 0 (createContinueStack jumps) (fun _ t => continueEffect t) fun _ => True := by
  unfold createContinueStack
  split
  · exact Affects.pure trivial fun _ => rfl
  · refine Affects.bind affects_createStack fun t _ => ?_
    refine Affects.bind (affects_onStack (moves_build fun b => adds_pushZeros)) fun _ _ => ?_
    refine Affects.pure trivial fun s => ?_
    simp [continueEffect]

theorem moves_reenableContinued (continueStack : Option Int) :
    Moves W (reenableContinued continueStack) 0 := by
  cases continueStack with
  | none => exact Moves.pure
  | some t =>
    refine (affects_onStack (moves_build fun b => adds_emit.trans adds_pushZeros)).of_eq ?_
    intro s _
    simp [Op.stackUsage]

theorem affects_releaseContinueStack (continueStack : Option Int) :
    Affects W 0 (releaseContinueStack continueStack) (fun _ _ => -continueEffect continueStack)
      fun _ => True := by
  cases continueStack with
  | none => exact Affects.pure trivial fun _ => neg_zero
  | some t =>
    refine Affects.bind (affects_onStack (moves_build fun b => adds_discard)) fun _ _ => ?_
    refine (affects_recycleStack t).of_eq fun s _ => ?_
    simp only [continueEffect]
    module

/-- A loop gives back the stack for the lanes that continue, and puts back where jumps lead to. -/
theorem moves_writeLoop (jumps : Jumps) {loop : Option Int → GenM Unit}
    (hloop : ∀ continueStack, Diverts W (loop continueStack) fun _ => 0) :
    Moves W (writeLoop jumps loop) 0 := by
  refine affects_enable_bind (f := id) (fun b => Adds.refl b) ?_
  intro g u g' hg hrun
  obtain ⟨_, saved, hget, hrest⟩ := bind_eq_ok.1 hrun
  obtain ⟨rfl, rfl⟩ := get_eq_ok.1 hget
  obtain ⟨continueStack, g₁, hcreate, hrest₁⟩ := bind_eq_ok.1 hrest
  obtain ⟨_, g₂, hinner, hrest₂⟩ := bind_eq_ok.1 hrest₁
  obtain ⟨_, g₃, hrelease, hrest₃⟩ := bind_eq_ok.1 hrest₂
  obtain ⟨_, g₄, hback, hdisable⟩ := bind_eq_ok.1 hrest₃
  obtain rfl := modify_eq_ok.1 hback
  obtain ⟨create, -⟩ := affects_createContinueStack jumps saved continueStack g₁ hg hcreate
  obtain ⟨hstack, hframe, inner⟩ := hloop continueStack g₁ _ g₂ create.agrees hinner
  have hagrees : g₂.Agrees W :=
    ⟨inner.agrees.values, inner.agrees.uniforms, inner.agrees.immutableVars,
      hframe ▸ create.agrees.frame⟩
  obtain ⟨release, -⟩ := affects_releaseContinueStack continueStack g₂ _ g₃ hagrees hrelease
  -- The three steps, in the context of the whole loop.
  have hcontext : g₃.inContext g₁.context =
      { g₃ with breakTarget := saved.breakTarget, continueStack := saved.continueStack } := by
    have hstack₃ : g₃.builder.stack = g₁.builder.stack := release.stack.trans hstack
    have hframe₃ : g₃.frame = g₁.frame := (congrArg Context.frame release.context).trans hframe
    have htargets := create.context
    simp only [Gen.context, Context.mk.injEq] at htargets
    simp only [Gen.inContext, Gen.context, ← hstack₃, ← hframe₃, htargets.2.1, htargets.2.2.1]
  have step := create.trans (inner.trans (release.inContext (c := g₁.context) rfl
    create.agrees.frame))
  rw [hcontext] at step
  obtain ⟨disable, -⟩ := affects_disable (f := id) (W := W) (n := 0) (fun b => Adds.refl b) _ u g'
    step.agrees hdisable
  refine ⟨(step.trans disable).of_eq ?_, trivial⟩
  simp

theorem moves_repeatWhileActive {test : Option (GenM Unit)} (htest : ∀ act ∈ test, Moves W act 1)
    (body exit : Int) : Moves W (repeatWhileActive test body exit) (-1) := by
  have hexit : Moves W (build fun b => ((b.branch .anyLanesActive body).label exit).popMask .loop)
      (-1) :=
    moves_build fun b => (adds_branch.trans adds_label).trans adds_popMask
  rcases test with _ | test
  · exact hexit
  · refine (htest test rfl).bind (Moves.bind (moves_build fun b => adds_emit) ?_)
    refine Affects.of_eq hexit fun s _ => ?_
    simp only [Op.stackUsage]
    module

theorem moves_writeFor (jumps : Jumps) {initializer next body : GenM Unit}
    {test : Option (GenM Unit)} (hinitializer : Moves W initializer 0)
    (htest : ∀ act ∈ test, Moves W act 1) (hnext : Moves W next 0) (hbody : Moves W body 0) :
    Moves W (writeFor jumps initializer test next body) 0 := by
  refine moves_writeLoop jumps fun continueStack => ?_
  refine Diverts.bind hinitializer fun _ _ => ?_
  refine Diverts.bind (moves_build fun b => adds_pushMask) fun _ _ => ?_
  refine Diverts.bind affects_newLabel fun bodyLabel _ => ?_
  refine Diverts.bind affects_newLabel fun testLabel _ => ?_
  refine Diverts.bind affects_newLabel fun exitLabel _ => ?_
  refine Diverts.bind (moves_build fun b => adds_jump.trans adds_label) fun _ _ => ?_
  refine diverts_insideLoop hbody ?_
  refine (moves_reenableContinued continueStack).bind (hnext.bind ?_)
  refine Moves.bind (moves_build fun b => adds_label) ?_
  refine Affects.of_eq (moves_repeatWhileActive htest bodyLabel exitLabel) fun s _ => ?_
  module

theorem moves_writeDo (jumps : Jumps) {body test : GenM Unit} (hbody : Moves W body 0)
    (htest : Moves W test 1) : Moves W (writeDo jumps body test) 0 := by
  refine moves_writeLoop jumps fun continueStack => ?_
  refine Diverts.bind (moves_build fun b => adds_pushMask) fun _ _ => ?_
  refine Diverts.bind affects_newLabel fun bodyLabel _ => ?_
  refine Diverts.bind affects_newLabel fun exitLabel _ => ?_
  refine Diverts.bind (moves_build fun b => adds_label) fun _ _ => ?_
  refine diverts_insideLoop hbody ?_
  refine (moves_reenableContinued continueStack).bind ?_
  refine Affects.of_eq (moves_repeatWhileActive ?_ bodyLabel exitLabel) fun s _ => ?_
  · rintro _ ⟨⟩
    exact htest
  · module

theorem moves_writeCounted (count : Nat) {initializer next body : GenM Unit}
    {test : Option (GenM Unit)} (hinitializer : Moves W initializer 0)
    (htest : ∀ act ∈ test, Moves W act 1) (hnext : Moves W next 0) (hbody : Moves W body 0) :
    Moves W (writeCounted count initializer test next body) 0 := by
  refine hinitializer.bind ?_
  by_cases hcount : count = 0
  · rw [if_pos hcount]
    exact Affects.pure trivial fun s => by simp
  rw [if_neg hcount]
  refine Affects.bind affects_newLabel fun bodyLabel _ => ?_
  refine Affects.bind affects_newLabel fun exitLabel _ => ?_
  refine Moves.bind (moves_build fun b => adds_branch.trans adds_label) (hbody.bind ?_)
  have hexit : Moves W (build (·.label exitLabel)) 0 := moves_build fun b => adds_label
  by_cases hmore : 1 < count
  · rw [if_pos hmore]
    rcases test with _ | test
    · exact Affects.throw_bind
    · refine hnext.bind ((htest test rfl).bind ?_)
      refine Moves.bind (moves_build fun b => adds_branch.trans adds_discard) ?_
      refine Affects.of_eq hexit fun s _ => ?_
      module
  · rw [if_neg hmore]
    refine Affects.of_eq hexit fun s _ => ?_
    module

/-! ## Switches and jumps -/

/-- What is written with breaks leading elsewhere, and what follows when they have been put back. -/
theorem affects_redirected {β : Type} {closed : Nat} {target : Option Int} {body : GenM PUnit}
    {exit : GenM Unit} {rest : GenM β} {ε : Int → β → Effect} {Q : β → Prop}
    (hbody : Affects W 0 body (fun _ _ => 0) fun _ => True) (hexit : Moves W exit 0)
    (hrest : Affects W closed rest ε Q) :
    Affects W closed (do
      let saved ← get
      modify fun g => { g with breakTarget := target }
      body
      exit
      modify fun g => { g with breakTarget := saved.breakTarget }
      rest) ε Q := by
  intro g b g' hg hrun
  obtain ⟨_, saved, hget, hrest₀⟩ := bind_eq_ok.1 hrun
  obtain ⟨rfl, rfl⟩ := get_eq_ok.1 hget
  obtain ⟨_, g₁, hset, hrest₁⟩ := bind_eq_ok.1 hrest₀
  obtain rfl := modify_eq_ok.1 hset
  obtain ⟨_, g₂, hinner, hrest₂⟩ := bind_eq_ok.1 hrest₁
  obtain ⟨_, g₃, hlast, hrest₃⟩ := bind_eq_ok.1 hrest₂
  obtain ⟨_, g₄, hback, hafter⟩ := bind_eq_ok.1 hrest₃
  obtain rfl := modify_eq_ok.1 hback
  let c : Context := { saved.context with breakTarget := target }
  have hc : (saved.inContext c).Agrees W := hg.inContext rfl hg.frame
  obtain ⟨inner, -⟩ := hbody (saved.inContext c) _ g₂ hc hinner
  obtain ⟨last, -⟩ := hexit g₂ _ g₃ inner.agrees hlast
  have step := (inner.trans last).within hg rfl
  have hcontext : g₃.inContext saved.context = { g₃ with breakTarget := saved.breakTarget } := by
    have hsame := (inner.trans last).context
    simp only [Gen.context, Gen.inContext, Context.mk.injEq, c] at hsame
    simp only [Gen.inContext, Gen.context, ← hsame.1, ← hsame.2.2.1, ← hsame.2.2.2]
  rw [hcontext] at step
  obtain ⟨after, hQ⟩ := hrest _ b g' step.agrees hafter
  refine ⟨(step.trans after).of_eq ?_, hQ⟩
  have hstack : g₃.builder.stack = saved.builder.stack := step.stack
  simp [hstack]

theorem moves_writeSwitch (continues : Bool) {value : GenM Unit}
    {cases : List (Option Int × GenM Unit)} (hvalue : Moves W value 1)
    (hcases : ∀ entry ∈ cases, Moves W entry.2 0) :
    Moves W (writeSwitch continues value cases) 0 := by
  refine affects_enable_bind (fun b => adds_pushMask) ?_
  refine Affects.bind affects_createStack fun stack _ => ?_
  refine Affects.bind (affects_onStack (hvalue.seq (moves_build fun b => adds_pushMask)))
    fun _ _ => ?_
  refine Moves.bind (moves_build fun b => adds_emit) ?_
  refine Affects.bind affects_newLabel fun exitLabel _ => ?_
  refine affects_redirected ?_ (moves_build fun b => adds_label) ?_
  · refine (Affects.forIn (ε := fun _ _ => 0) ?_).of_eq fun s _ => by simp
    rintro ⟨label, body⟩ hentry
    refine Affects.bind (affects_onStack (n := 0) (moves_build fun b => ?_)) fun _ _ => ?_
    · cases label with
      | some v => exact adds_emit
      | none => exact adds_emit
    · refine (hcases _ hentry).bind (Affects.pure rfl fun s => ?_)
      simp
  refine Affects.bind (affects_onStack (moves_build fun b => adds_discard)) fun _ _ => ?_
  refine Affects.bind (affects_recycleStack stack) fun _ _ => ?_
  refine Moves.bind (moves_build fun b => adds_popMask) ?_
  refine Affects.get_bind fun g _ => ?_
  have hclose : Affects W 1 (build Builder.disableMaskWrites) (fun _ _ => 0) fun _ => True :=
    (affects_disable (f := id) fun b => Adds.refl b).of_eq fun s _ => by simp
  -- The lanes that continued are read from their stack and taken out of the loop mask.
  have hrepair (t : Int) : Moves W (build fun b =>
      (((b.pushCloneFromStack 1 t 1).pushConstant Word.allOnes 1).binary .bitwiseXor .int 1).emit
        .mergeLoop) 0 := by
    refine Moves.of_eq (moves_build fun b =>
      ((adds_pushCloneFromStack.trans adds_pushConstant).trans adds_binary).trans adds_emit) ?_
    simp [Op.stackUsage]
  rcases g.continueStack with _ | continueStack
  · refine hclose.of_eq fun s _ => ?_
    simp only [Op.stackUsage]
    module
  · refine Moves.bind_of_cond (hrepair continueStack) (hclose.of_eq fun s _ => ?_)
    simp only [Op.stackUsage]
    module

theorem moves_writeBreak : Moves W writeBreak 0 := by
  refine Affects.get_bind fun g _ => ?_
  rcases g.breakTarget with _ | target
  · exact Moves.throw
  · exact moves_build fun b => adds_branch.trans adds_emit

theorem moves_writeContinue : Moves W writeContinue 0 := by
  refine Affects.get_bind fun g _ => ?_
  rcases g.continueStack with _ | stack
  · exact Moves.throw
  · exact moves_build fun b => adds_emit

theorem moves_writeReturn {value : Option (GenM Unit)}
    (hvalue : ∀ push ∈ value, Moves W push W.result) : Moves W (writeReturn value) 0 := by
  refine Affects.get_bind fun g hg => ?_
  rcases hframe : g.frame with _ | frame
  · exact Moves.throw
  have hmask : Moves W (if frame.usesReturnMask = true then build (·.emit .maskOffReturn)
      else pure ()) 0 :=
    Moves.of_cond (moves_build fun _ => adds_emit)
  rcases value with _ | push
  · exact hmask
  rcases hresult : frame.result with _ | range
  · simp only [hresult]
    exact Affects.throw_bind
  · have hcount : range.count = W.result := hg.frame frame hframe range hresult
    simp only [hresult]
    refine (hvalue push rfl).bind (Moves.bind (moves_build fun b => adds_popSlots) ?_)
    refine Affects.of_eq hmask fun s _ => ?_
    rw [hcount]
    module

/-! ## Statements -/

theorem moves_traceScope (delta : Int) : Moves W (traceScope ctx delta) 0 :=
  Moves.of_cond (moves_build fun _ => adds_emit)

theorem moves_traced {act : GenM Unit} (span : Span) (h : Moves W act 0) :
    Moves W (do traceLine ctx span; act) 0 :=
  Moves.seq (Moves.of_cond (moves_build fun _ => adds_emit)) h

/-- The value of an expression that is evaluated for its effects is discarded. -/
theorem Expr.WellTyped.moves_writeDiscarded {e : Expr} (hctx : ctx.Balanced W.slots)
    (h : e.WellTyped ctx.program W.slots) : Moves W (e.writeDiscarded ctx) 0 := by
  have hpush : Moves W (e.operand ctx).push e.ty.slotCount :=
    (h.fits hctx).push_of_slots (by rw [Operand.slots, operand_ty])
  unfold Expr.writeDiscarded
  cases e with
  | postfixed head op x =>
    cases h with
    | postfixed typed type =>
      refine (Operand.moves_prefixed ctx op (typed.fits hctx)).bind ?_
      refine Affects.of_eq (moves_build fun b => adds_discard) fun s _ => ?_
      rw [Operand.slots, operand_ty, type]
      simp only [Expr.ty, Expr.head]
      module
  | _ =>
    refine hpush.bind (Affects.of_eq (moves_build fun b => adds_discard) fun s _ => ?_)
    module

namespace Stmt

theorem moves_writeAll {statements : List Stmt}
    (h : ∀ s ∈ statements, Moves W (s.write ctx) 0) : Moves W (writeAll ctx statements) 0 := by
  induction statements with
  | nil =>
    rw [writeAll]
    exact Moves.pure
  | cons s rest ih =>
    rw [writeAll]
    exact (h s (List.mem_cons_self ..)).seq (ih fun t ht => h t (List.mem_cons_of_mem _ ht))

theorem moves_writeOption {statement : Option Stmt}
    (h : ∀ s ∈ statement, Moves W (s.write ctx) 0) :
    ∀ act ∈ writeOption ctx statement, Moves W act 0 := by
  cases statement with
  | none => simp [writeOption]
  | some s =>
    intro act hact
    obtain rfl : _ = act := by simpa [writeOption] using hact
    exact h s rfl

theorem moves_writeCases {cases : List (CaseOf Stmt)}
    (h : ∀ c ∈ cases, ∀ s ∈ c.statements, Moves W (s.write ctx) 0) :
    ∀ entry ∈ writeCases ctx cases, Moves W entry.2 0 := by
  induction cases with
  | nil => simp [writeCases]
  | cons c rest ih =>
    intro entry hentry
    rw [writeCases] at hentry
    rcases List.mem_cons.1 hentry with rfl | hentry
    · exact moves_writeAll (h c (List.mem_cons_self ..))
    · exact ih (fun d hd => h d (List.mem_cons_of_mem _ hd)) entry hentry

/-- A well-typed statement leaves all stacks as deep as they were. -/
theorem WellTyped.moves {s : Stmt} (hctx : ctx.Balanced W.slots)
    (h : s.WellTyped ctx.program W.slots W.result) : Moves W (s.write ctx) 0 := by
  have hpush {e : Expr} (he : e.WellTyped ctx.program W.slots) {n : Nat}
      (hn : e.ty.slotCount = n) : Moves W (e.operand ctx).push n :=
    (he.fits hctx).push_of_slots (by rw [Operand.slots, Expr.operand_ty, hn])
  induction h with
  | @block span statements opensScope typed ih =>
    rw [write]
    refine Moves.bind_of_cond (moves_traceScope 1) ?_
    refine (moves_writeAll ih).bind ?_
    refine Affects.of_eq (Moves.of_cond (moves_traceScope (-1))) fun s _ => ?_
    module
  | @expression span e typed =>
    rw [write]
    exact moves_traced span (typed.moves_writeDiscarded hctx)
  | @declare span v value identity typed type =>
    rw [write]
    refine moves_traced span (moves_writeDeclaration identity fun e he => ?_)
    exact hpush (typed e he) (type e he)
  | @branch span test ifTrue ifFalse test_typed test_slot true_typed false_typed iht ihf =>
    rw [write]
    refine moves_traced span ?_
    dsimp only
    split
    · exact moves_writeUniformBranch (hpush test_typed test_slot) iht (moves_writeOption ihf)
    · exact moves_writeMaskedBranch (hpush test_typed test_slot) iht (moves_writeOption ihf)
  | @loop span initializer test next body trips initializer_typed test_typed test_slot next_typed
      body_typed ihi ihb =>
    rw [write]
    have hinitializer : Moves W ((writeOption ctx initializer).getD (pure ())) 0 := by
      rcases hwrite : writeOption ctx initializer with _ | act
      · exact Moves.pure
      · exact moves_writeOption ihi act hwrite
    have htest : ∀ act ∈ test.map fun e => (e.operand ctx).push, Moves W act 1 := by
      intro act hact
      obtain ⟨e, he, rfl⟩ := Option.mem_map.1 hact
      exact hpush (test_typed e he) (test_slot e he)
    have hnext : Moves W ((next.map fun e => e.writeDiscarded ctx).getD (pure ())) 0 := by
      rcases next with _ | e
      · exact Moves.pure
      · exact (next_typed e rfl).moves_writeDiscarded hctx
    refine moves_traced span (Moves.seq (n := 0) (moves_traceScope 1) ?_)
    dsimp only
    split
    · exact (moves_writeCounted _ hinitializer htest hnext ihb).seq (moves_traceScope (-1))
    · exact (moves_writeFor _ hinitializer htest hnext ihb).seq (moves_traceScope (-1))
  | @doWhile span body test body_typed test_typed test_slot ih =>
    rw [write]
    exact moves_traced span (moves_writeDo _ ih (hpush test_typed test_slot))
  | @switch span value cases value_typed value_slot cases_typed ih =>
    rw [write]
    refine moves_traced span
      (moves_writeSwitch _ (hpush value_typed value_slot) (moves_writeCases ih))
  | @breaks span =>
    rw [write]
    exact moves_traced span moves_writeBreak
  | @continues span =>
    rw [write]
    exact moves_traced span moves_writeContinue
  | @discards span =>
    rw [write]
    exact moves_traced span Moves.throw
  | @returns span value typed type =>
    rw [write]
    refine moves_traced span (moves_writeReturn ?_)
    intro push hmem
    obtain ⟨e, he, rfl⟩ := Option.mem_map.1 hmem
    exact hpush (typed e he) (type e he)
  | nop =>
    rw [write]
    exact Moves.pure

end Stmt

/-! ## Functions -/

/-- The code of the body of a function, with its marks in a trace. -/
def bodyCode (ctx : CodeContext) (f : FunctionDef) : GenM Unit := do
  let index ← functionIndex ctx f.decl
  index.forM fun index => build (·.emit (.trace (.enter index)))
  f.body.write ctx
  index.forM fun index => build (·.emit (.trace (.exit index)))

/-- The code of a function within its frame: a function that may return before its end keeps a mask
around its body. -/
def frameCode (ctx : CodeContext) (f : FunctionDef) : GenM Unit :=
  if f.body.hasEarlyReturn then do
    build fun b => b.enableMaskWrites.pushMask .returns
    bodyCode ctx f
    build fun b => (b.popMask .returns).disableMaskWrites
  else bodyCode ctx f

theorem writeFunction_eq (f : FunctionDef) (result : Option SlotRange) :
    writeFunction ctx f result = (do
      let saved ← get
      modify fun g =>
        { g with
          frame := some ⟨result, f.body.hasEarlyReturn⟩, breakTarget := none, continueStack := none }
      frameCode ctx f
      modify fun g =>
        { g with
          frame := saved.frame
          breakTarget := saved.breakTarget
          continueStack := saved.continueStack }) := by
  unfold writeFunction frameCode bodyCode
  by_cases hreturns : f.body.hasEarlyReturn = true
  · simp only [hreturns, if_true, bind_assoc]
  · simp only [hreturns, Bool.false_eq_true, if_false, bind_assoc]

/-- What is written in the frame of another function, with no jumps leading out of it. -/
theorem moves_inFrame {V : Widths} {frame : Frame} {act : GenM Unit} (hslots : V.slots = W.slots)
    (hresult : ∀ range ∈ frame.result, range.count = V.result) (h : Moves V act 0) :
    Moves W (do
      let saved ← get
      modify fun g => { g with frame := some frame, breakTarget := none, continueStack := none }
      act
      modify fun g =>
        { g with
          frame := saved.frame
          breakTarget := saved.breakTarget
          continueStack := saved.continueStack }) 0 := by
  intro g u g' hg hrun
  obtain ⟨_, saved, hget, hrest₀⟩ := bind_eq_ok.1 hrun
  obtain ⟨rfl, rfl⟩ := get_eq_ok.1 hget
  obtain ⟨_, g₁, hset, hrest₁⟩ := bind_eq_ok.1 hrest₀
  obtain rfl := modify_eq_ok.1 hset
  obtain ⟨_, g₂, hinner, hback⟩ := bind_eq_ok.1 hrest₁
  obtain rfl := modify_eq_ok.1 hback
  let c : Context := ⟨saved.builder.stack, none, none, some frame⟩
  have hframe : ∀ f ∈ c.frame, ∀ range ∈ f.result, range.count = V.result := by
    rintro _ ⟨⟩
    exact hresult
  obtain ⟨inner, -⟩ := h (saved.inContext c) _ g₂ (hg.inContext hslots hframe) hinner
  have step := inner.within hg hslots.symm
  have hcontext : g₂.inContext saved.context =
      { g₂ with
        frame := saved.frame
        breakTarget := saved.breakTarget
        continueStack := saved.continueStack } := by
    have hstack : g₂.builder.stack = saved.builder.stack := inner.stack
    simp only [Gen.inContext, Gen.context, ← hstack]
  rw [hcontext] at step
  exact ⟨step, trivial⟩

theorem moves_bodyCode {f : FunctionDef} (hctx : ctx.Balanced W.slots)
    (hbody : f.body.WellTyped ctx.program W.slots W.result) : Moves W (bodyCode ctx f) 0 := by
  refine Affects.bind (affects_functionIndex ctx f.decl) fun index _ => ?_
  have hmark (op : Nat → Op) (hop : ∀ i, (op i).stackUsage = 0) :
      Moves W (index.forM fun i => build (·.emit (op i))) 0 := by
    cases index with
    | none => exact Moves.pure
    | some i => exact (moves_build fun _ => adds_emit).of_eq (hop i)
  refine (hmark _ fun _ => rfl).bind ((hbody.moves hctx).bind ?_)
  refine Affects.of_eq (hmark _ fun _ => rfl) fun s _ => ?_
  module

/-- The body of a function leaves all stacks as they were, wherever it is written. -/
theorem moves_writeFunction {f : FunctionDef} {result : Option SlotRange}
    (hctx : ctx.Balanced W.slots)
    (hbody : f.body.WellTyped ctx.program W.slots f.decl.returnType.slotCount)
    (hresult : ∀ range ∈ result, range.count = f.decl.returnType.slotCount) :
    Moves W (writeFunction ctx f result) 0 := by
  rw [writeFunction_eq]
  let V : Widths := ⟨W.slots, f.decl.returnType.slotCount⟩
  have hcode : Moves V (bodyCode ctx f) 0 := moves_bodyCode (W := V) hctx hbody
  refine moves_inFrame (V := V) rfl hresult ?_
  unfold frameCode
  split
  · refine affects_enable_bind (fun b => adds_pushMask) (hcode.bind ?_)
    refine (affects_disable fun b => adds_popMask).of_eq fun s _ => ?_
    module
  · exact hcode

/-- However deep calls may nest, the bodies of the functions of a well-typed program are
balanced. -/
theorem CodeContext.balanced_ofDepth {program : Program} {slots : Nat → Nat}
    (hprogram : program.WellTyped slots) (usage : Usage) (depth : Nat) :
    (CodeContext.ofDepth program usage depth).Balanced slots := by
  induction depth with
  | zero => exact fun W f definition result _ _ _ => Moves.throw
  | succ depth ih =>
    rintro W f definition result rfl hfind hresult
    rw [ofDepth_program] at hfind
    refine moves_writeFunction ih ?_ hresult
    rw [ofDepth_program]
    exact hprogram f definition hfind

/-! ## Balance of generated code -/

/-- From one state to another, `words` words have been left on the current stack and nothing on any
other.  Jumps lead to where they did, as many constructs are open in which lanes may be inactive,
and the stacks that were created are free. -/
structure Gen.Balanced (g g' : Gen) (words : Nat) : Prop where
  current : g'.builder.depth g.builder.stack = g.builder.depth g.builder.stack + words
  others : ∀ t ≠ g.builder.stack, g'.builder.depth t = g.builder.depth t
  context : g'.context = g.context
  maskDepth : g'.builder.maskDepth = g.builder.maskDepth
  free : ∀ t, g'.freeStacks.count t =
    g.freeStacks.count t + if g.lastStack < t ∧ t ≤ g'.lastStack then 1 else 0

theorem Moves.balanced {act : GenM Unit} {n : Nat} {g g' : Gen} (h : Moves W act n)
    (hg : g.Agrees W) (hrun : act g = .ok ((), g')) : g.Balanced g' n := by
  obtain ⟨step, -⟩ := h g () g' hg hrun
  have hdepth (t : Int) : g'.builder.depth t =
      g.builder.depth t + if g.builder.stack = t then (n : Int) else 0 := by
    have hstep := congrFun step.depth t
    rwa [Prod.smul_fst, Effect.fst_onTop, Pi.add_apply, smul_word_apply] at hstep
  refine ⟨?_, fun t ht => ?_, step.context, step.maskDepth, step.count_freeStacks ?_⟩
  · rw [hdepth, if_pos rfl]
  · rw [hdepth, if_neg (Ne.symm ht), add_zero]
  · rw [Prod.smul_snd, Effect.snd_onTop, smul_zero]

/-- Whatever code is generated for the expressions and statements of a well-typed program, in
whatever state, is balanced: an expression leaves its slots, a statement leaves nothing. -/
theorem generated_code_balanced {program : Program} {slots : Nat → Nat} {result : Nat} {g : Gen}
    (hprogram : program.WellTyped slots) (hg : g.Agrees ⟨slots, result⟩) (usage : Usage)
    (depth : Nat) :
    (∀ (e : Expr) g', e.WellTyped program slots →
      (e.operand (.ofDepth program usage depth)).push g = .ok ((), g') →
      g.Balanced g' e.ty.slotCount) ∧
    ∀ (s : Stmt) g', s.WellTyped program slots result →
      s.write (.ofDepth program usage depth) g = .ok ((), g') → g.Balanced g' 0 := by
  have hctx := CodeContext.balanced_ofDepth hprogram usage depth
  have hsame := CodeContext.ofDepth_program program usage depth
  constructor
  · intro e g' he hrun
    rw [← hsame] at he
    refine Moves.balanced (W := ⟨slots, result⟩) ?_ hg hrun
    exact (he.fits hctx).push_of_slots (by rw [Operand.slots, Expr.operand_ty])
  · intro s g' hs hrun
    rw [← hsame] at hs
    exact Moves.balanced (W := ⟨slots, result⟩) (hs.moves hctx) hg hrun

/-- The value of a variable. -/
def valueOf (v : Variable) : Expr := .reference ⟨default, v.ty⟩ v none .read

/-- A local boolean. -/
def booleanLocal (id : Nat) (name : String) : Variable :=
  ⟨id, name, .bool, default, .local, default, false⟩

/-- The value of `c` is pushed, and `if (c) c;` leaves nothing. -/
theorem generated_code_balanced_branch :
    let program : Program := ⟨⟨.fragment, .standard⟩, "", [], []⟩
    let ctx : CodeContext := .ofDepth program default 0
    let e := valueOf (booleanLocal 1 "c")
    let s : Stmt := .branch default e (.expression default e) none
    (∃ g', (e.operand ctx).push (.start false) = .ok ((), g') ∧ (Gen.start false).Balanced g' 1) ∧
      ∃ g', s.write ctx (.start false) = .ok ((), g') ∧ (Gen.start false).Balanced g' 0 := by
  intro program ctx e s
  have hprogram : program.WellTyped fun _ => 1 := fun f definition hfind => by cases hfind
  have hg : (Gen.start false).Agrees ⟨fun _ => 1, 0⟩ := by
    refine ⟨⟨?_, ?_⟩, ⟨?_, ?_⟩, ?_, ?_⟩ <;> simp [Gen.start, SlotTable.empty]
  have he : e.WellTyped program fun _ => 1 :=
    .reference rfl rfl (by decide) (by simp) (by simp)
  have hs : s.WellTyped program (fun _ => 1) 0 := .branch he rfl (.expression he) (by simp)
  obtain ⟨g₁, hpush⟩ : ∃ g', (e.operand ctx).push (.start false) = .ok ((), g') := ⟨_, rfl⟩
  obtain ⟨g₂, hwrite⟩ : ∃ g', s.write ctx (.start false) = .ok ((), g') := ⟨_, rfl⟩
  obtain ⟨hexpr, hstmt⟩ := generated_code_balanced hprogram hg default 0
  exact ⟨⟨g₁, hpush, hexpr e g₁ he hpush⟩, g₂, hwrite, hstmt s g₂ hs hwrite⟩

/-- A choice between values of no slots that are both computed leaves its test on the stack. -/
theorem choice_without_slots {program : Program} {slots : Nat → Nat} {result : Nat} {g g' : Gen}
    (hprogram : program.WellTyped slots) (hg : g.Agrees ⟨slots, result⟩) (usage : Usage)
    (depth : Nat) {head : Expr.Head} {test ifTrue ifFalse : Expr}
    (htest : test.WellTyped program slots) (htrue : ifTrue.WellTyped program slots)
    (hfalse : ifFalse.WellTyped program slots) (htestSlot : test.ty.slotCount = 1)
    (hhead : head.ty.slotCount = 0) (htrueSlots : ifTrue.ty.slotCount = 0)
    (hfalseSlots : ifFalse.ty.slotCount = 0) (hselects : Operand.selects test ifTrue ifFalse = true)
    (hrun : ((Expr.ternary head test ifTrue ifFalse).operand (.ofDepth program usage depth)).push g =
      .ok ((), g')) : g.Balanced g' 1 := by
  have hctx := CodeContext.balanced_ofDepth hprogram usage depth
  have hsame := CodeContext.ofDepth_program program usage depth
  rw [← hsame] at htest htrue hfalse
  have hslots (e : Expr) : (e.operand (.ofDepth program usage depth)).slots = e.ty.slotCount := by
    rw [Operand.slots, Expr.operand_ty]
  refine Moves.balanced (W := ⟨slots, result⟩) ?_ hg hrun
  rw [Expr.operand, Operand.ofValue, hhead]
  refine (Operand.moves_ternary test ifTrue ifFalse (htest.fits hctx) (htrue.fits hctx)
    (hfalse.fits hctx) ((hslots _).trans htestSlot) ((hslots _).trans htrueSlots)
    ((hslots _).trans hfalseSlots)).of_eq ?_
  rw [if_pos hselects]
  rfl

/-! ### A choice between blocks without slots -/

/-- A block whose only member is an array without a size. -/
def unsizedBlock : Ty := .struct "B" [⟨"a", .array .float none, default, default⟩] true

/-- The expression `t ? b : b` for a block `b` that has no slots. -/
def unsizedChoice : Expr :=
  let b := valueOf ⟨3, "b", unsizedBlock, default, .interfaceBlock, default, false⟩
  .ternary ⟨default, unsizedBlock⟩ (valueOf (booleanLocal 2 "t")) b b

/-- The code of a statement at the start of a program. -/
def builderOf (s : Stmt) : Option Builder := do
  let ctx : CodeContext := .ofDepth ⟨⟨.fragment, .standard⟩, "", [], []⟩ default 0
  let (_, g) ← (s.write ctx (.start false)).toOption
  return g.builder

/-- The instructions of such code. -/
def instructionsOf (s : Stmt) : Option (List Instruction) := (builderOf s).map (·.instructions)

/-- A statement that consists of the choice leaves a word on the stack. -/
theorem unsizedChoice_leaves_test :
    unsizedChoice.ty.slotCount = 0 ∧
      (instructionsOf (.expression default unsizedChoice)).map (stackDepth · 0) = some 1 := by
  decide +kernel

/-! ### Lanes that disagree -/

/-- The machine after a statement that all lanes of a full batch start, with given value slots, if
its code is accepted. -/
def machineAfter {lanes : Nat} (s : Stmt) (values : List (Vector UInt32 lanes)) :
    Option (Machine lanes) := do
  let p ← (Pipeline.ofBuilder (← builderOf s) values.length 0 0 none).toOption
  let lowered ← (p.lower none false).toOption
  let off : Vector UInt32 lanes := Vector.replicate lanes 0
  let on : Vector UInt32 lanes := Vector.replicate lanes Word.allOnes
  let m : Machine lanes :=
    ⟨values.toArray ++ Array.replicate p.stackSlots off, ⟨.splat off, .splat off⟩, on, on, on, #[]⟩
  match Machine.runFrom lowered.stages ⟨lanes, #[], #[], off, off⟩ Machine.maxSteps 0 m with
  | (m, none) => return m
  | (_, some _) => none

/-- The words of a value slot after a statement. -/
def slotAfter {lanes : Nat} (s : Stmt) (values : List (Vector UInt32 lanes)) (slot : Nat) :
    Option (List UInt32) :=
  (machineAfter s values).map fun m => (m.slot slot).toList

/-- Stores the value of one variable to another, or adds it. -/
def storeValue (op : Operator) (target source : Variable) : Expr :=
  .binary ⟨default, target.ty⟩ (.reference ⟨default, target.ty⟩ target none .write) op
    (valueOf source)

/-- A parameter that is `const`, and may still differ between lanes. -/
def constantParameter : Variable :=
  ⟨1, "p", .bool, .ofFlags .const, .parameter, default, false⟩

/-- The statement `if (p) x = y;` for such a parameter. -/
def constantBranch : Stmt :=
  .branch default (valueOf constantParameter)
    (.expression default (storeValue .assign (booleanLocal 2 "x") (booleanLocal 3 "y"))) none

/-- The parameter is taken for uniform, so that a lane in which it is off stores `y` when there is
another lane in which it is on. -/
theorem constantParameter_taken_for_uniform :
    (valueOf constantParameter).isDynamicallyUniform = true ∧
      slotAfter constantBranch [#v[0, Word.allOnes], #v[0, 0], #v[7, 7]] 1 = some [7, 7] := by
  decide +kernel

/-- What the lane stores depends on the lane beside it. -/
theorem constantBranch_depends_on_neighbour :
    slotAfter constantBranch [#v[0], #v[0], #v[7]] 1 = some [0] ∧
      slotAfter constantBranch [#v[0, 0], #v[0, 0], #v[7, 7]] 1 = some [0, 0] ∧
      slotAfter constantBranch [#v[0, Word.allOnes], #v[0, 0], #v[7, 7]] 1 = some [7, 7] := by
  decide +kernel

/-- A local integer. -/
def integerLocal (id : Nat) (name : String) : Variable :=
  ⟨id, name, .int, default, .local, default, false⟩

/-- The statement `do int x = k; while ((k += n) < p);`, after which `x` is still in scope. -/
def declaringLoop : Stmt :=
  let k := integerLocal 2 "k"
  .doWhile default (.declare default (integerLocal 1 "x") (some (valueOf k)))
    (.binary ⟨default, .bool⟩ (storeValue .plusEq k (integerLocal 3 "n")) .lt
      (valueOf (integerLocal 4 "p")))

/-- Declarations are stored in all lanes: a lane that has left the loop still gets what `x` is
declared with in the next iteration of another lane. -/
theorem declaringLoop_overwrites_lane :
    slotAfter declaringLoop [#v[0], #v[0], #v[1], #v[1]] 0 = some [0] ∧
      slotAfter declaringLoop [#v[0], #v[0], #v[1], #v[3]] 0 = some [2] ∧
      slotAfter declaringLoop [#v[0, 0], #v[0, 0], #v[1, 1], #v[1, 3]] 0 = some [1, 2] := by
  decide +kernel

end RasterShader
