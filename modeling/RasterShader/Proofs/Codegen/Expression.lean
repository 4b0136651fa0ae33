import Mathlib
import RasterShader.Codegen.Program
import RasterShader.Proofs.Codegen.Typed

/-!
# What expressions leave on the stack

The code of a well-typed expression leaves a word for each slot of its type on the current stack,
and nothing on any other (`Expr.WellTyped.fits`).  Calls are written out in place: their arguments
are pushed, popped to the slots of parameters, and what was passed by place is released after the
values have been stored back.

One kind of expression is left out.  A choice both sides of which are computed repeats its test for
every slot but the first, which is there already; if there are no slots at all, the test remains on
the stack (`Operand.moves_ternary`).
-/

namespace RasterShader

open Gen Builder

/-! ## Calls -/

/-- Bodies of functions leave all stacks as they find them. -/
def CodeContext.Balanced (ctx : CodeContext) (slots : Nat → Nat) : Prop :=
  ∀ (W : Widths) f definition result, W.slots = slots →
    ctx.program.findDefinition? f = some definition →
    (∀ range ∈ result, range.count = definition.decl.returnType.slotCount) →
    Moves W (ctx.writeBody definition result) 0

namespace Passing

/-- What the arguments that have been evaluated leave: words to pop, and places to release. -/
def effect (p : Passing) (s : Int) : Effect :=
  ((p.copies.map fun range => (range.count : Int)).sum) • Effect.onTop s +
    (p.outs.map fun out => out.2.held).sum

/-- Parameters borrow as many slots as they have. -/
def Agrees (slots : Nat → Nat) (p : Passing) : Prop :=
  ∀ entry ∈ p.lent, entry.2.count = slots entry.1

end Passing

/-- An argument fills a parameter. -/
structure Fills (W : Widths) (p : Variable) (argument : Expr) (x : Operand) : Prop where
  operand : x.Fits W
  slots : x.slots = W.slots p.id
  parameter : p.ty.slotCount = W.slots p.id
  reference : ∀ h v init ref, argument = .reference h v init ref → W.slots v.id = W.slots p.id

variable {W : Widths} {ctx : CodeContext}

theorem affects_lendable {parameter : Variable} {argument : Expr} {x : Operand}
    (h : Fills W parameter argument x) :
    Affects W 0 (lendable? ctx parameter argument) (fun _ _ => 0)
      fun lent => ∀ range ∈ lent, range.count = W.slots parameter.id := by
  unfold lendable?
  by_cases hwritten : 0 < (ctx.usage.uses parameter).writes
  · rw [if_pos hwritten]
    exact Affects.pure (by simp) fun _ => rfl
  rw [if_neg hwritten]
  cases argument with
  | reference head v init ref =>
    refine Affects.get_bind fun g hg => Affects.pure ?_ fun _ => rfl
    intro range hrange
    have hget : g.values.get? v = some range := by
      split at hrange
      · cases hrange
      · exact hrange
    rw [hg.values.count_of_get? hget]
    exact h.reference head v init ref rfl
  | _ => exact Affects.pure (by simp) fun _ => rfl

theorem affects_passArgument {passing : Passing} (hpassing : passing.Agrees W.slots)
    {parameter : Variable} {argument : Expr} {x : Operand} (h : Fills W parameter argument x) :
    Affects W 0 (passArgument ctx passing parameter argument x)
      (fun s p => p.effect s - passing.effect s) (·.Agrees W.slots) := by
  unfold passArgument
  by_cases hout : parameter.modifiers.isOut = true
  · simp only [hout, if_true]
    refine Affects.bind h.operand.place fun place hplace => ?_
    refine Affects.bind (affects_valueSlots ctx h.parameter) fun range hrange => ?_
    by_cases hin : parameter.modifiers.flags.contains .input = true
    · simp only [hin, if_true]
      refine (moves_pushPlace hplace.1).bind (Affects.pure hpassing fun s => ?_)
      rw [hplace.2, h.slots]
      simp only [Passing.effect, List.map_append, List.sum_append, List.map_cons, List.map_nil,
        List.sum_cons, List.sum_nil, hrange]
      module
    · simp only [hin, Bool.false_eq_true, if_false]
      refine Affects.pure hpassing fun s => ?_
      simp only [Passing.effect, List.map_append, List.sum_append, List.map_cons, List.map_nil,
        List.sum_cons, List.sum_nil]
      module
  · simp only [hout, Bool.false_eq_true, if_false]
    refine Affects.bind (affects_lendable h) fun lent hlent => ?_
    cases lent with
    | some range =>
      refine Affects.pure ?_ fun s => by simp [Passing.effect]
      intro entry hentry
      rcases List.mem_append.1 hentry with hentry | hentry
      · exact hpassing entry hentry
      · obtain rfl := List.mem_singleton.1 hentry
        exact hlent range rfl
    | none =>
      refine h.operand.push.bind ?_
      refine Affects.bind (affects_valueSlots ctx h.parameter) fun range hrange => ?_
      refine Affects.pure hpassing fun s => ?_
      rw [h.slots]
      simp only [Passing.effect, List.map_append, List.sum_append, List.map_cons, List.map_nil,
        List.sum_cons, List.sum_nil, hrange]
      module

theorem affects_passArguments {entries : List (Variable × Expr × Operand)} {passing : Passing}
    (hpassing : passing.Agrees W.slots)
    (h : ∀ entry ∈ entries, Fills W entry.1 entry.2.1 entry.2.2) :
    Affects W 0
      (entries.foldlM (fun passing (entry : Variable × Expr × Operand) =>
        passArgument ctx passing entry.1 entry.2.1 entry.2.2) passing)
      (fun s p => p.effect s - passing.effect s) (·.Agrees W.slots) := by
  induction entries generalizing passing with
  | nil => exact Affects.pure hpassing fun s => sub_self _
  | cons entry rest ih =>
    rw [List.foldlM_cons]
    refine Affects.bind (affects_passArgument hpassing (h entry (List.mem_cons_self ..)))
      fun next hnext => ?_
    refine (ih hnext fun e he => h e (List.mem_cons_of_mem _ he)).of_eq fun s p => ?_
    abel

theorem sum_popped (ranges : List SlotRange) (x : Effect) :
    (ranges.reverse.map fun range => (-(range.count : Int)) • x).sum =
      -((ranges.map fun range => (range.count : Int)).sum • x) := by
  rw [List.map_reverse, List.sum_reverse]
  induction ranges with
  | nil => simp
  | cons range rest ih =>
    rw [List.map_cons, List.sum_cons, List.map_cons, List.sum_cons, ih]
    module

/-- A call leaves its result, wherever the arguments came from. -/
theorem moves_pushCall {f : FunctionDecl} {arguments : List (Expr × Operand)} {n : Nat}
    (hctx : ctx.Balanced W.slots)
    (hfills : ∀ definition, ctx.program.findDefinition? f = some definition →
      definition.decl.returnType.slotCount = n ∧
        ∀ entry ∈ definition.decl.parameters.zip arguments, Fills W entry.1 entry.2.1 entry.2.2) :
    Moves W (pushCall ctx f arguments) n := by
  unfold pushCall
  rcases hfind : ctx.program.findDefinition? f with _ | definition
  · exact Moves.throw
  obtain ⟨hn, hentries⟩ := hfills definition hfind
  refine Affects.bind (affects_passArguments
    (show Passing.Agrees W.slots ⟨[], [], []⟩ by simp [Passing.Agrees]) hentries)
    fun passing hpassing => ?_
  refine Affects.bind (Affects.forIn (ε := fun s range => (-(range.count : Int)) • Effect.onTop s)
    ?_) fun _ _ => ?_
  · intro range _
    exact (moves_build fun b => adds_popSlots).bind (Affects.pure rfl fun s => sub_self _)
  refine Affects.bind (Affects.forIn (ε := fun _ _ => 0) ?_) fun _ _ => ?_
  · intro entry hentry
    refine Affects.bind (affects_modify (fun _ => ⟨rfl, rfl, rfl, rfl⟩) ?_)
      fun _ _ => Affects.pure rfl fun s => by simp
    intro g hg
    exact ⟨hg.values.lend (hpassing entry hentry), hg.uniforms, hg.immutableVars, hg.frame⟩
  -- The words of the arguments have been popped; their places are released after the body.
  extract_lets rest
  have hrest (result : Option SlotRange) (hresult : (result.map (·.count)).getD 0 = n)
      (hrange : ∀ range ∈ result, range.count = definition.decl.returnType.slotCount) :
      Affects W 0 (rest result)
        (fun s _ => (n : Int) • Effect.onTop s - (passing.outs.map fun out => out.2.held).sum)
        fun _ => True := by
    refine Affects.bind affects_newLabel fun skip _ => ?_
    refine Affects.get_bind fun g _ => ?_
    refine Moves.bind_of_cond (moves_build fun b => adds_branch) ?_
    refine (hctx W f definition result rfl hfind hrange).bind ?_
    refine Moves.bind_of_cond (moves_build fun b => adds_label) ?_
    refine Affects.bind (Affects.forIn (ε := fun _ _ => 0) ?_) fun _ _ => ?_
    · intro entry _
      refine Affects.bind (affects_modify (fun _ => ⟨rfl, rfl, rfl, rfl⟩) ?_)
        fun _ _ => Affects.pure rfl fun s => by simp
      exact fun g hg => ⟨hg.values.giveBack entry.1, hg.uniforms, hg.immutableVars, hg.frame⟩
    refine Affects.bind (Affects.forIn (ε := fun _ out => -out.2.held) ?_) fun _ _ => ?_
    · intro out _
      refine Moves.bind (moves_build fun b => adds_pushSlots) ((moves_storePlace ctx _).bind ?_)
      refine Moves.bind (moves_build fun b => adds_discard) ?_
      refine Affects.bind (affects_releasePlace _) fun _ _ => Affects.pure rfl fun s => ?_
      module
    have hsum : (passing.outs.map fun out => -out.2.held).sum =
        -(passing.outs.map fun out => out.2.held).sum := by
      rw [List.sum_neg, List.map_map]
      rfl
    simp only [hsum, List.map_const', List.sum_replicate, smul_zero]
    rcases result with _ | range
    · refine Affects.pure trivial fun s => ?_
      rw [← hresult]
      simp
    · refine Affects.of_eq (moves_build fun b => adds_pushSlots) fun s _ => ?_
      have hcount : range.count = n := hresult
      rw [hcount]
      module
  have hpopped (s : Int) : (n : Int) • Effect.onTop s -
      (passing.effect s - Passing.effect ⟨[], [], []⟩ s) -
      (passing.copies.reverse.map fun range => (-(range.count : Int)) • Effect.onTop s).sum -
      (passing.lent.map fun _ => (0 : Effect)).sum =
      (n : Int) • Effect.onTop s - (passing.outs.map fun out => out.2.held).sum := by
    rw [sum_popped]
    simp only [Passing.effect, List.map_nil, List.sum_nil, List.map_const', List.sum_replicate]
    module
  simp only [hpopped]
  by_cases hvoid : definition.decl.returnType.isVoid = true
  · rw [if_pos hvoid]
    refine hrest none ?_ (by simp)
    rw [← hn]
    cases hty : definition.decl.returnType with
    | void => rfl
    | _ => simp [hty, Ty.isVoid] at hvoid
  · rw [if_neg hvoid]
    refine Affects.bind (affects_functionIndex ctx _) fun index _ => ?_
    refine Affects.bind (affects_allocate _ _ _ _) fun range hrange => ?_
    refine (hrest (some range) (hrange.trans hn) ?_).of_eq fun s _ => by simp
    rintro _ ⟨⟩
    exact hrange

/-- A child effect takes its arguments and leaves a color. -/
theorem moves_pushChildCall {child : Variable} {arguments : List Operand}
    (harguments : ∀ x ∈ arguments, x.Fits W)
    (hslots : ∀ kind, child.ty.effectKind? = some kind →
      arguments.map Operand.slots = (Typing.childParameters kind).map Ty.slotCount) :
    Moves W (pushChildCall child arguments) 4 := by
  unfold pushChildCall
  refine Affects.get_bind fun g _ => ?_
  rcases g.children.lookup child.id with _ | index
  · exact Moves.throw
  -- What is pushed for the call has been popped when the color is pushed.
  have color : Moves W (build (·.pushInput (.color .src))) 4 := moves_build fun b => adds_pushInput
  have one (x : Operand) (hx : x ∈ arguments) {n : Nat} (hn : x.slots = n)
      {f : Builder → Builder} (hf : ∀ b : Builder, b.Adds (f b) (-n)) :
      Affects W 0 (x.push >>= fun _ => build f >>= fun _ => build (·.pushInput (.color .src)))
        (fun s _ => (4 : Int) • Effect.onTop s) fun _ => True := by
    refine (((harguments x hx).push_of_slots hn).seq ((moves_build hf).seq color)).of_eq ?_
    ring
  rcases hkind : child.ty.effectKind? with _ | kind
  · exact Affects.throw_bind
  have hlist := hslots kind hkind
  cases kind with
  | shader =>
    rcases arguments with _ | ⟨x, _ | ⟨y, rest⟩⟩
    · simp [Typing.childParameters] at hlist
    · simp only [Typing.childParameters, List.map_cons, List.map_nil, List.cons.injEq] at hlist
      simpa only [bind_assoc] using one x (by simp) hlist.1 (fun b =>
        (adds_emit.trans adds_emit).of_eq (by simp [Op.stackUsage]; rfl))
    · simp [Typing.childParameters] at hlist
  | colorFilter =>
    rcases arguments with _ | ⟨x, _ | ⟨y, rest⟩⟩
    · simp [Typing.childParameters] at hlist
    · simp only [Typing.childParameters, List.map_cons, List.map_nil, List.cons.injEq] at hlist
      simpa only [bind_assoc] using one x (by simp) hlist.1 (fun b =>
        (adds_popColor.trans adds_emit).of_eq (by simp [Op.stackUsage]; rfl))
    · simp [Typing.childParameters] at hlist
  | blender =>
    rcases arguments with _ | ⟨x, _ | ⟨y, _ | ⟨z, rest⟩⟩⟩
    · simp [Typing.childParameters] at hlist
    · simp [Typing.childParameters] at hlist
    · simp only [Typing.childParameters, List.map_cons, List.map_nil, List.cons.injEq] at hlist
      refine (((harguments x (by simp)).push_of_slots hlist.1).seq
        (((harguments y (by simp)).push_of_slots hlist.2.1).seq
          ((moves_build fun b => (adds_popColor.trans adds_popColor).trans adds_emit).seq
            color))).of_eq ?_
      simp [Op.stackUsage]
      rfl
    · simp [Typing.childParameters] at hlist

/-! ## Expressions -/

namespace Expr

@[simp] theorem operand_ty (ctx : CodeContext) (e : Expr) : (e.operand ctx).ty = e.ty := by
  cases e with
  | swizzle h base components =>
    rw [operand]
    split <;> rfl
  | _ =>
    rw [operand]
    rfl

theorem operandsOf_eq_map (ctx : CodeContext) (es : List Expr) :
    operandsOf ctx es = es.map (operand ctx) := by
  induction es with
  | nil => rw [operandsOf]; rfl
  | cons e rest ih => rw [operandsOf, ih, List.map_cons]

end Expr

theorem fits_constructor {e : Expr} {push : GenM Unit} (h : Moves W push e.ty.slotCount)
    (hvalue : ∀ values, e.constantValue? = some values → values.length = e.ty.slotCount) :
    (constructor ctx e push).Fits W := by
  refine Operand.fits_ofValue ?_
  split
  · rename_i values hvalues
    refine (Operand.moves_pushWords _).of_eq ?_
    rw [length_constantBits (hvalue values ?_)]
    split at hvalues
    · exact hvalues
    · cases hvalues
  · exact h

theorem moves_forM_push {xs : List Operand} (h : ∀ x ∈ xs, x.Fits W) :
    Moves W (xs.forM fun x => x.push) (xs.map Operand.slots).sum := by
  induction xs with
  | nil => exact Moves.pure
  | cons x rest ih =>
    refine ((h x (by simp)).push.seq (ih fun y hy => h y (by simp [hy]))).of_eq ?_
    simp

/-- The element of a place that is chosen by a constant, kept within the bounds, is in the place. -/
theorem constantOffset_add_le {base count stride i : Nat} (h : base = count * stride)
    (hcount : 0 < count) : min i (base / max stride 1 - 1) * stride + stride ≤ base := by
  rcases Nat.eq_zero_or_pos stride with rfl | hstride
  · simp
  rw [max_eq_left (by omega : 1 ≤ stride), h, Nat.mul_div_cancel _ hstride]
  calc min i (count - 1) * stride + stride ≤ (count - 1) * stride + stride := by
        gcongr
        exact Nat.min_le_right ..
    _ = count * stride := by
      rw [← Nat.succ_mul, Nat.succ_eq_add_one, Nat.sub_add_cancel hcount]

theorem finds_indexPlace {base : Operand} {index : Expr} {pushIndex : GenM Unit}
    {count stride : Nat} (hbase : base.Fits W) (hindex : Moves W pushIndex 1)
    (helements : base.slots = count * stride) :
    Finds W (indexPlace base index pushIndex stride) stride := by
  refine Affects.bind hbase.place fun p hp => ?_
  rcases index.constantInt? with _ | i
  · exact affects_elementPlace stride hindex
  · refine Affects.pure ⟨Place.sound_slice hp.1, ?_⟩ fun s => ?_
    · refine Place.slotCount_slice hp.1 fun htwo => ?_
      rw [hp.2] at htwo ⊢
      refine constantOffset_add_le helements (Nat.pos_of_ne_zero fun hcount => ?_)
      rw [helements, hcount] at htwo
      omega
    · rw [Place.held_of_offsetStacks Place.offsetStacks_slice, sub_self]

/-- Arguments that a function accepts fill its parameters. -/
theorem fills_of_accepts {parameters : List Variable} {arguments : List Expr}
    (hparameters : ∀ v ∈ parameters, v.ty.slotCount = W.slots v.id)
    (harguments : arguments.map (·.ty.slotCount) = parameters.map (·.ty.slotCount))
    (htyped : ∀ e ∈ arguments, e.WellTyped ctx.program W.slots)
    (hfits : ∀ e ∈ arguments, (e.operand ctx).Fits W) {entry : Variable × Expr × Operand}
    (hentry : entry ∈ parameters.zip (arguments.zip (arguments.map (Expr.operand ctx)))) :
    Fills W entry.1 entry.2.1 entry.2.2 := by
  obtain ⟨i, hi, rfl⟩ := List.getElem_of_mem hentry
  simp only [List.length_zip, List.length_map, lt_min_iff] at hi
  obtain ⟨hp, ha, -⟩ := hi
  have hslots : arguments[i].ty.slotCount = parameters[i].ty.slotCount := by
    have hi : i < (arguments.map (·.ty.slotCount)).length := by simpa using ha
    simpa only [List.getElem_map] using List.getElem_of_eq harguments hi
  have hparameter := hparameters _ (List.getElem_mem hp)
  have hargument := htyped _ (List.getElem_mem ha)
  simp only [List.getElem_zip, List.getElem_map]
  refine ⟨hfits _ (List.getElem_mem ha), ?_, hparameter, ?_⟩
  · rw [Operand.slots, Expr.operand_ty, hslots, hparameter]
  · intro h v init ref href
    rw [href] at hslots hargument
    cases hargument with
    | reference type identity => rw [← identity, ← type, ← hparameter]; exact hslots

/-- Well-typed expressions leave the slots of their type on the current stack. -/
theorem Expr.WellTyped.fits {e : Expr} (hctx : ctx.Balanced W.slots)
    (h : e.WellTyped ctx.program W.slots) : (e.operand ctx).Fits W := by
  induction h with
  | literal slot =>
    rw [operand]
    refine Operand.fits_ofValue ((moves_build fun b => adds_pushConstant).of_eq ?_)
    rw [slot]
  | reference type identity coords _ _ _ =>
    rw [operand]
    exact Operand.fits_ofVariable ctx type identity coords
  | @binary h left right op left_typed right_typed fits ihl ihr =>
    rw [operand]
    refine Operand.fits_ofValue (Operand.moves_binary ctx left right
      ihl ihr ?_ ?_)
    · rw [operand_ty, operand_ty]
      exact fits
    · rw [Operand.slots, operand_ty]
      exact Ty.length_slotKinds _
  | @prefixed h op x typed type ih =>
    rw [operand]
    refine Operand.fits_ofValue ((Operand.moves_prefixed ctx op
      ih).of_eq ?_)
    rw [Operand.slots, operand_ty, type]
  | @postfixed h op x typed type ih =>
    rw [operand]
    refine Operand.fits_ofValue ((Operand.moves_postfixed ctx op
      ih).of_eq ?_)
    rw [Operand.slots, operand_ty, type]
  | @field h base i f typed member type ih =>
    rw [operand]
    refine Operand.fits_ofPlace ?_
    refine Affects.bind ih.place fun p hp => ?_
    rw [Operand.slots, operand_ty] at hp
    refine Affects.pure ⟨Place.sound_slice hp.1, ?_⟩ fun s => ?_
    · refine Place.slotCount_slice hp.1 fun _ => ?_
      rw [hp.2, ← type]
      exact Ty.fieldSlotOffset_add_le member
    · rw [Place.held_of_offsetStacks Place.offsetStacks_slice, sub_self]
  | @index h base i count typed index_typed index_slot elements ihb ihi =>
    rw [operand]
    have helements : (base.operand ctx).slots = count * h.ty.slotCount := by
      rw [Operand.slots, operand_ty, elements]
    refine Operand.fits_ofPlace (finds_indexPlace ihb (ihi.push_of_slots ?_) helements)
    rw [Operand.slots, operand_ty, index_slot]
  | @swizzle h base components typed inside type ih =>
    have hplace : Finds W (do return (← (base.operand ctx).place).swizzle components)
        h.ty.slotCount := by
      refine Affects.bind ih.place fun p hp => ?_
      rw [Operand.slots, operand_ty] at hp
      refine Affects.pure ⟨Place.sound_swizzle hp.1 fun c hc => ?_, ?_⟩ fun s => ?_
      · rw [hp.2]
        exact inside c hc
      · rw [Place.slotCount_swizzle, type]
      · rw [Place.held_of_offsetStacks Place.offsetStacks_swizzle, sub_self]
    rw [operand]
    split
    · exact Operand.fits_ofPlace hplace
    · refine ⟨(ih.push.seq (moves_build fun b => adds_swizzle inside)).of_eq ?_, hplace⟩
      simp only [Operand.slots, operand_ty, type]
      ring
  | @ternary h test ifTrue ifFalse test_typed true_typed false_typed test_slot true_slots
      false_slots selected ih iht ihf =>
    rw [operand]
    refine Operand.fits_ofValue ((Operand.moves_ternary test ifTrue ifFalse
      ih iht
      ihf ?_ ?_ ?_).of_eq ?_)
    · rw [Operand.slots, operand_ty, test_slot]
    · rw [Operand.slots, operand_ty, true_slots]
    · rw [Operand.slots, operand_ty, false_slots]
    · split
      · rename_i hselects
        rw [max_eq_left (selected hselects)]
      · rfl
  | @intrinsic h f intrinsic arguments known typed fits ih =>
    rw [operand]
    refine Operand.fits_ofValue ?_
    simp only [known, operandsOf_eq_map]
    refine Intrinsic.moves_push ?_ ?_
    · intro x hx
      obtain ⟨e, he, rfl⟩ := List.mem_map.1 hx
      exact ih e he
    · simp only [List.map_map, Function.comp_def, operand_ty]
      exact fits
  | @call h f arguments unknown typed accepts ih =>
    rw [operand]
    refine Operand.fits_ofValue ?_
    simp only [unknown, operandsOf_eq_map]
    refine moves_pushCall hctx fun definition hdefinition => ?_
    obtain ⟨hparameters, harguments, hresult⟩ := accepts definition hdefinition
    exact ⟨hresult, fun entry hentry => fills_of_accepts hparameters harguments typed
      ih hentry⟩
  | @childCall h child arguments typed parameters color ih =>
    rw [operand]
    refine Operand.fits_ofValue ?_
    rw [operandsOf_eq_map, color]
    refine moves_pushChildCall ?_ fun kind hkind => ?_
    · intro x hx
      obtain ⟨e, he, rfl⟩ := List.mem_map.1 hx
      exact ih e he
    · rw [← parameters kind hkind, List.map_map]
      simp [Function.comp_def, Operand.slots]
  | @convert h conversion x typed fits ih =>
    rw [operand]
    refine fits_constructor (Operand.moves_convert ih ?_) fun values =>
      (WellTyped.convert typed fits).length_constantValue
    rw [operand_ty]
    exact fits
  | @assemble h assembly parts typed sum ih =>
    rw [operand]
    refine fits_constructor ?_ fun values => (WellTyped.assemble typed sum).length_constantValue
    rw [operandsOf_eq_map]
    refine (moves_forM_push ?_).of_eq ?_
    · intro x hx
      obtain ⟨e, he, rfl⟩ := List.mem_map.1 hx
      exact ih e he
    · rw [List.map_map]
      refine congrArg Nat.cast (Eq.trans ?_ sum)
      simp [Function.comp_def, Operand.slots]

end RasterShader
