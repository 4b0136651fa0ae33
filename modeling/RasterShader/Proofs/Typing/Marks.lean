import Mathlib
import RasterShader.Proofs.Typing.References
import RasterShader.Proofs.Typing.Reports
import RasterShader.Typing.Declare

/-!
# Checks keep references marked

Whatever a check of expressions or statements is given, its outcome is marked if that is.  The
checks of assignments, increments and arguments for `out` parameters mark an operand as their
position asks for; where an expression is converted, folded, selected from or left out, nothing in
it is written from the outside.
-/

namespace RasterShader

namespace Constant

variable {span : Span} {left right operand e : Expr} {op : Operator} {result : Ty}

/-- A binary operation that is carried out refers to nothing. -/
theorem foldBinary_marked (h : foldBinary span left op right result = .ok (some e)) :
    e.Marked .read := by
  obtain ⟨-, -, ⟨value, rfl⟩ | ⟨-, values, rfl⟩⟩ := foldBinary_eq_some h
  · exact .literal _ _
  · exact Expr.marked_ofConstant _ _ _

/-- A prefix operation that is carried out refers to nothing. -/
theorem foldPrefix?_marked (h : foldPrefix? span op operand = some e) : e.Marked .read := by
  obtain ⟨-, values, rfl⟩ := foldPrefix?_eq_some h
  exact Expr.marked_ofConstant _ _ _

end Constant

namespace Typing

open RasterShader.Expr

variable {dialect : Dialect} {span : Span}

/-! ## Names, elements, fields and swizzles -/

theorem identifier_marked (span : Span) (name : String) (symbol : Option Symbol) :
    (identifier span name symbol).Always (Marked .read) := by
  unfold identifier
  split
  · exact .pure (marked_ofVariable _ _ _)
  · split
    · exact .pure (.field _ _ (marked_ofVariable _ _ _))
    · exact .pure (.poison _)
  all_goals exact .refuse (.poison _)

theorem element_marked {base i : Expr} (hbase : base.Marked .read) (hi : i.Marked .read)
    (place : Span) : (element base i place).Always (Marked .read) := by
  unfold element
  dsimp only
  split
  · exact .pure (.poison _)
  split
  · split
    · exact .pure (.poison _)
    · exact .refuse (.poison _)
  split
  on_goal 1 => refine .bind (.pure hi) fun i hi => ?_
  on_goal 2 => refine .bind (hi.coerce .int) fun i hi => ?_
  -- Whether the index is converted or not, the same is made of it.
  all_goals
    split
    · exact .pure (.poison _)
    split
    · split
      · exact .refuse (.poison _)
      · exact .pure (.index _ hbase hi)
    · exact .pure (.index _ hbase hi)

theorem select?_marked {span : Span} {components : List Nat} {base e : Expr}
    (hbase : base.Marked .read) (h : select? span components base = some e) : e.Marked .read := by
  fun_induction select? span components base with
  | case1 components head inner innerComponents ih =>
    obtain ⟨t, -, h⟩ := Option.bind_eq_some_iff.1 h
    split_ifs at h
    · exact Option.some.inj h ▸ hbase
    · cases hbase with
      | swizzle _ _ hinner => exact ih hinner h
  | case2 components base =>
    obtain ⟨t, -, h⟩ := Option.bind_eq_some_iff.1 h
    split_ifs at h
    · exact Option.some.inj h ▸ hbase
    · exact Option.some.inj h ▸ .swizzle _ (fun h => absurd rfl h) hbase

/-- What a selection gives, or a failure in its place. -/
theorem select?_getD_marked {components : List Nat} {base : Expr} (hbase : base.Marked .read) :
    ((select? span components base).getD (.poison span)).Marked .read := by
  cases h : select? span components base with
  | none => exact .poison _
  | some e => exact select?_marked hbase h

theorem maskConstants_marked (span : Span) (scalar : Ty) (entries : List MaskEntry) :
    ∀ e ∈ maskConstants span scalar entries, e.Marked .read := by
  intro e he
  obtain ⟨entry, -, hentry⟩ := List.mem_filterMap.1 he
  cases entry with
  | component => cases hentry
  | zero | one => exact Option.some.inj hentry ▸ .literal _ _

theorem selectWithConstants?_marked {base e : Expr} {entries : List MaskEntry}
    (hbase : base.Marked .read) (h : selectWithConstants? dialect span base entries = some e) :
    e.Marked .read := by
  have hparts (taken : List Expr) (htaken : ∀ e ∈ taken, e.Marked .read) :=
    List.forall_mem_append.2 ⟨htaken, maskConstants_marked span base.ty.component entries⟩
  have hfinish (c : Bool) (folded : Expr) (hfolded : folded.Marked .read)
      (h : (if c then some (.binary ⟨span, folded.ty⟩ base .comma folded) else some folded) =
        some e) : e.Marked .read := by
    split_ifs at h
    · exact Option.some.inj h ▸ .binary _ hbase hfolded
    · exact Option.some.inj h ▸ hfolded
  have harranged (compound : Expr) (hcompound : compound.Marked .read) :=
    (@select?_getD_marked span (maskOrder 0 (entries.filterMap MaskEntry.component?).length entries)
      compound hcompound).folded span dialect.settings.optimize
  unfold selectWithConstants? at h
  dsimp only at h
  split at h
  on_goal 1 =>
    obtain ⟨taken, htaken, h⟩ := Option.bind_eq_some_iff.1 h
    obtain rfl := Option.some.inj htaken
    have hparts := hparts [] (List.forall_mem_nil _)
  on_goal 2 =>
    obtain ⟨taken, htaken, h⟩ := Option.bind_eq_some_iff.1 h
    obtain ⟨e, he, rfl⟩ := Option.map_eq_some_iff.1 htaken
    have hparts := hparts [e] (List.forall_mem_singleton.2 (select?_marked hbase he))
  -- A single part is left as it is, others are put together.
  all_goals
    obtain ⟨ty, -, h⟩ := Option.bind_eq_some_iff.1 h
    refine hfinish _ _ (harranged _ ?_ _) h
    split
    · rename_i part heq
      exact hparts part (heq ▸ List.mem_singleton_self _)
    · exact .assemble _ _ hparts

theorem swizzle_marked {base : Expr} (hbase : base.Marked .read) (mask : String) (span : Span) :
    (swizzle dialect base mask span).Always (Marked .read) := by
  unfold swizzle
  split
  · exact .refuse (.poison _)
  split
  · exact .refuse (.poison _)
  dsimp only
  split_ifs
  · exact .refuse (.poison _)
  · exact .pure (select?_getD_marked hbase)
  · refine .pure ?_
    cases h : selectWithConstants? dialect span base _ with
    | none => exact .poison _
    | some e => exact selectWithConstants?_marked hbase h

theorem member_marked {base : Expr} (hbase : base.Marked .read) (name : String) (place : Span) :
    (member dialect base name place).Always (Marked .read) := by
  unfold member
  dsimp only
  split
  · exact .pure hbase
  split
  · split
    · split
      · exact .pure (.field _ _ hbase)
      · exact .refuse (.poison _)
    · exact .refuse (.poison _)
  · split
    · exact swizzle_marked hbase _ _
    · exact .refuse (.poison _)

/-! ## Operations -/

theorem shortCircuit?_marked {left right e : Expr} {op : Operator}
    (hleft : left.Marked op.leftUse) (hright : right.Marked .read)
    (h : shortCircuit? left op right = some e) : e.Marked .read := by
  unfold shortCircuit? at h
  split at h <;> cases h <;> assumption

theorem combine_marked {left right : Expr} {op : Operator} (hleft : left.Marked op.leftUse)
    (hright : right.Marked .read) (result : Ty) :
    (combine dialect span left op right result).Always (Marked .read) := by
  unfold combine
  split
  · rename_i e hcircuit
    split_ifs at hcircuit
    exact .pure (shortCircuit?_marked hleft hright hcircuit)
  · split
    · exact .refuse (.poison _)
    · rename_i folded hfolded
      split
      · rename_i e he
        split_ifs at he
        obtain rfl := he
        exact .pure (Constant.foldBinary_marked hfolded)
      · exact .pure (.binary _ hleft hright)

/-- Only the left operand of an assignment is not read. -/
theorem leftUse_of_not_isAssignment {op : Operator} (h : op.isAssignment = false) :
    op.leftUse = .read := by
  cases op <;> first | rfl | cases h

theorem operation_marked {left right : Expr} {op : Operator} (hleft : left.Marked op.leftUse)
    (hright : right.Marked .read) :
    (operation dialect span left op right).Always (Marked .read) := by
  unfold operation
  dsimp only
  have hright := hright.adaptLiteral left.ty
  generalize right.adaptLiteral left.ty = right at hright ⊢
  have hleft :
      (if op.isAssignment then left else left.adaptLiteral right.ty).Marked op.leftUse := by
    split
    · exact hleft
    · rename_i hread
      rw [leftUse_of_not_isAssignment (by simpa using hread)] at hleft ⊢
      exact hleft.adaptLiteral _
  generalize (if op.isAssignment then left else left.adaptLiteral right.ty) = left at hleft ⊢
  split
  · exact .refuse (.poison _)
  rename_i types htypes
  have hcombine (left right : Expr) (hleft : left.Marked op.leftUse) (hright : right.Marked .read) :
      Checked.Always (if (left.isPoison || right.isPoison) = true then pure (.poison span)
        else combine dialect span left op right types.result) (Marked .read) := by
    split
    · exact .pure (.poison _)
    · exact combine_marked hleft hright _
  split_ifs with hmismatch hassigned
  · exact .refuse (.poison _)
  · refine .bind (.pure hleft) fun left hleft => ?_
    exact .bind (hright.coerce _) fun right hright => hcombine left right hleft hright
  · rw [leftUse_of_not_isAssignment (by simpa using hassigned)] at hleft hcombine
    refine .bind (hleft.coerce _) fun left hleft => ?_
    exact .bind (hright.coerce _) fun right hright => hcombine left right hleft hright

theorem binary_marked {left right : Expr} (hleft : left.Marked .read) (op : Operator)
    (hright : right.Marked .read) : (binary dialect left op right).Always (Marked .read) := by
  unfold binary
  dsimp only
  split
  · exact .pure (.poison _)
  split
  · rename_i hassigned
    have huse : op.leftUse = if op == .assign then .write else .readWrite := by
      rw [Operator.leftUse, if_pos hassigned]
    refine .bind (hleft.markAssigned _) fun marked hmarked => ?_
    cases marked with
    | none => exact .pure (.poison _)
    | some left => exact operation_marked (huse ▸ hmarked left rfl) hright
  · rename_i hread
    refine operation_marked ?_ hright
    rwa [leftUse_of_not_isAssignment (by simpa using hread)]

theorem prefixOperation_marked {operand : Expr} (h : operand.Marked .read) (place : Span)
    (op : Operator) : (prefixOperation dialect place op operand).Always (Marked .read) := by
  unfold prefixOperation
  dsimp only
  split
  · exact .pure h
  split
  · exact .refuse (.poison _)
  split
  case h_1 => exact .pure h
  case h_2 | h_3 =>
    refine .bind (h.markAssigned _) fun marked hmarked => ?_
    cases marked with
    | none => exact .pure (.poison _)
    | some operand => exact .pure (.prefixed _ (hmarked operand rfl))
  case h_4 _ _ hincrement hdecrement =>
    split
    · rename_i e he
      split_ifs at he
      exact .pure (Constant.foldPrefix?_marked he)
    · have hread : op.operandUse = .read := by
        unfold Operator.operandUse
        split
        · exact (hincrement rfl).elim
        · exact (hdecrement rfl).elim
        · rfl
      exact .pure (.prefixed _ (hread ▸ h))

theorem postfixOperation_marked {operand : Expr} (h : operand.Marked .read) {op : Operator}
    (hop : op.operandUse = .readWrite) (place : Span) :
    (postfixOperation operand op place).Always (Marked .read) := by
  unfold postfixOperation
  dsimp only
  split
  · exact .pure h
  split
  · exact .refuse (.poison _)
  refine .bind (h.markAssigned _) fun marked hmarked => ?_
  cases marked with
  | none => exact .pure (.poison _)
  | some operand => exact .pure (.postfixed _ (hop ▸ hmarked operand rfl))

theorem ternary_marked {test ifTrue ifFalse : Expr} (htest : test.Marked .read)
    (htrue : ifTrue.Marked .read) (hfalse : ifFalse.Marked .read) (place : Span) :
    (ternary dialect test ifTrue ifFalse place).Always (Marked .read) := by
  unfold ternary
  dsimp only
  refine .bind (htest.coerce _) fun test htest => ?_
  split
  · exact .pure (.poison _)
  have hfalse := hfalse.adaptLiteral ifTrue.ty
  generalize ifFalse.adaptLiteral ifTrue.ty = ifFalse at hfalse ⊢
  have htrue := htrue.adaptLiteral ifFalse.ty
  generalize ifTrue.adaptLiteral ifFalse.ty = ifTrue at htrue ⊢
  split
  · exact .refuse (.poison _)
  split
  · exact .refuse (.poison _)
  split
  · exact .refuse (.poison _)
  refine .bind (htrue.coerce _) fun ifTrue htrue => ?_
  refine .bind (hfalse.coerce _) fun ifFalse hfalse => ?_
  split
  · exact .pure htrue
  · exact .pure hfalse
  · exact .pure (.ternary _ htest htrue hfalse)

/-! ## Constructors -/

variable {ty : Ty} {arguments : List Expr}

theorem foldConstructor_marked {e : Expr} (h : e.Marked .read) :
    (foldConstructor dialect e).Marked .read := h.folded e.span _ e.ty

theorem constructArray_marked (h : ∀ e ∈ arguments, e.Marked .read) (span : Span) (ty : Ty) :
    (constructArray dialect span ty arguments).Always (Marked .read) := by
  unfold constructArray
  split
  · exact .refuse (.poison _)
  split
  · exact .refuse (.poison _)
  refine .bind (marked_coerceAll h) fun parts hparts => ?_
  split
  · exact .pure (.poison _)
  · exact .pure (foldConstructor_marked (.assemble _ _ hparts))

theorem constructStruct_marked (h : ∀ e ∈ arguments, e.Marked .read) (span : Span) (ty : Ty) :
    (constructStruct dialect span ty arguments).Always (Marked .read) := by
  unfold constructStruct
  dsimp only
  split
  · exact .refuse (.poison _)
  refine .bind (marked_coerceAll h) fun parts hparts => ?_
  split
  · exact .pure (.poison _)
  · exact .pure (foldConstructor_marked (.assemble _ _ hparts))

theorem constructSingle?_marked {argument e : Expr} (h : argument.Marked .read)
    (he : constructSingle? dialect span ty argument = some e) : e.Marked .read := by
  have hcast : ((argument.castUnlessSame ty).withSpan span).Marked .read :=
    (h.castUnlessSame ty).withSpan span
  have hconvert (conversion : Conversion) (t : Ty) :
      (foldConstructor dialect
        (.convert ⟨span, ty⟩ conversion (argument.castUnlessSame t))).Marked .read :=
    foldConstructor_marked (.convert _ _ (h.castUnlessSame t))
  unfold constructSingle? at he
  dsimp only at he
  split_ifs at he
  · exact Option.some.inj he ▸ hcast
  · exact Option.some.inj he ▸ hconvert _ _
  · exact Option.some.inj he ▸ hconvert _ _
  · exact Option.some.inj he ▸ hcast
  · obtain ⟨t, -, he⟩ := Option.bind_eq_some_iff.1 he
    exact Option.some.inj he ▸ hconvert _ _

theorem compoundParts_marked {parts : List Expr} (h : ∀ e ∈ parts, e.Marked .read) (ty : Ty) :
    (compoundParts ty parts).Always fun converted =>
      ∀ es ∈ converted, ∀ e ∈ es, e.Marked .read := by
  induction parts with
  | nil => exact .pure (forall_mem_some (List.forall_mem_nil _))
  | cons part rest ih =>
    rw [List.forall_mem_cons] at h
    unfold compoundParts
    split
    · exact .refuse forall_mem_none
    split
    · exact .pure forall_mem_none
    · rename_i target htarget
      refine .bind (ih h.2) fun others hothers => .pure fun es hes => ?_
      obtain ⟨rest, hrest, rfl⟩ := Option.map_eq_some_iff.1 hes
      exact List.forall_mem_cons.2 ⟨h.1.castUnlessSame target, hothers rest hrest⟩

theorem constructCompound_marked (h : ∀ e ∈ arguments, e.Marked .read) (span : Span) (ty : Ty) :
    (constructCompound dialect span ty arguments).Always (Marked .read) := by
  refine .bind (compoundParts_marked h ty) fun converted hconverted => ?_
  cases converted with
  | none => exact .pure (.poison _)
  | some parts =>
    dsimp only
    split
    · exact .refuse (.poison _)
    · exact .pure (foldConstructor_marked (.assemble _ _ (hconverted parts rfl)))

theorem construct_marked (h : ∀ e ∈ arguments, e.Marked .read) (span : Span) (ty : Ty) :
    (construct dialect span ty arguments).Always (Marked .read) := by
  unfold construct
  split
  · exact .pure (.poison _)
  split
  · exact constructArray_marked h span ty
  split
  · exact constructStruct_marked h span ty
  split
  · split
    · exact .refuse (.poison _)
    · rename_i argument _
      split
      · rename_i e he
        exact .pure (constructSingle?_marked (h argument (List.mem_singleton_self _)) he)
      · exact constructCompound_marked h span ty
    · exact constructCompound_marked h span ty
  · exact .refuse (.poison _)

/-! ## Calls -/

theorem passArgument_marked {argument : Expr} (h : argument.Marked .read) (parameter : Variable)
    (ty : Ty) :
    (passArgument parameter ty argument).Always fun passed =>
      ∀ e ∈ passed, e.Marked parameter.argumentUse := by
  unfold passArgument Variable.argumentUse
  split
  · split
    · exact .refuse forall_mem_none
    · exact h.markAssigned .pointer
  · refine .bind (h.coerce ty) fun converted hconverted => ?_
    split
    · exact .pure forall_mem_none
    · exact .pure (forall_mem_some hconverted)

/-- The arguments that are passed are those for the parameters, one after the other. -/
theorem passArguments_marked {triples : List ((Variable × Ty) × Expr)}
    (h : ∀ t ∈ triples, t.2.Marked .read) :
    (passArguments triples).Always fun passed => ∀ es ∈ passed,
      List.Forall₂ (fun (parameter : Variable) e => e.Marked parameter.argumentUse)
        (triples.map (·.1.1)) es := by
  induction triples with
  | nil => exact .pure (forall_mem_some .nil)
  | cons first rest ih =>
    obtain ⟨⟨parameter, ty⟩, argument⟩ := first
    rw [List.forall_mem_cons] at h
    refine .bind (passArgument_marked h.1 parameter ty) fun passed hpassed => ?_
    cases passed with
    | none => exact .pure forall_mem_none
    | some e =>
      refine .bind (ih h.2) fun others hothers => .pure fun es hes => ?_
      obtain ⟨others, hrest, rfl⟩ := Option.map_eq_some_iff.1 hes
      exact .cons (hpassed e rfl) (hothers others hrest)

/-- Every parameter that is paired with an argument has a type. -/
theorem length_resolveParameters {pairs : List (Variable × Expr)} {chosen place : Option Nat}
    {tys : List Ty} (h : resolveParameters chosen pairs = some (tys, place)) :
    tys.length = pairs.length := by
  induction pairs generalizing chosen place tys with
  | nil =>
    cases h
    rfl
  | cons first rest ih =>
    obtain ⟨parameter, argument⟩ := first
    unfold resolveParameters at h
    split at h
    · obtain ⟨i, -, h⟩ := Option.bind_eq_some_iff.1 h
      obtain ⟨t, -, h⟩ := Option.bind_eq_some_iff.1 h
      obtain ⟨⟨others, _⟩, hothers, h⟩ := Option.bind_eq_some_iff.1 h
      cases h
      exact congrArg (· + 1) (ih hothers)
    · obtain ⟨⟨others, _⟩, hothers, h⟩ := Option.bind_eq_some_iff.1 h
      cases h
      exact congrArg (· + 1) (ih hothers)

theorem length_resolveSignature? {f : FunctionDecl} {signature : Signature}
    (h : resolveSignature? f arguments = some signature) :
    signature.parameters.length = (f.parameters.zip arguments).length := by
  unfold resolveSignature? at h
  obtain ⟨⟨tys, chosen⟩, htys, h⟩ := Option.bind_eq_some_iff.1 h
  rw [← length_resolveParameters htys]
  dsimp only at h
  split at h
  · obtain ⟨i, -, h⟩ := Option.bind_eq_some_iff.1 h
    obtain ⟨t, -, h⟩ := Option.bind_eq_some_iff.1 h
    obtain rfl := Option.some.inj h
    rfl
  · obtain rfl := Option.some.inj h
    rfl

theorem callFunction_marked (h : ∀ e ∈ arguments, e.Marked .read) (span : Span)
    (f : FunctionDecl) : (callFunction span f arguments).Always (Marked .read) := by
  unfold callFunction
  split
  · exact .refuse (.poison _)
  rename_i hlength
  split
  · exact .refuse (.poison _)
  split
  · exact .refuse (.poison _)
  rename_i signature hsignature
  have hparameters : ((f.parameters.zip signature.parameters).zip arguments).map (·.1.1) =
      f.parameters := by
    have hcount := length_resolveSignature? hsignature
    rw [List.length_zip] at hcount
    have hlength : f.parameters.length = arguments.length := by simpa using hlength
    calc ((f.parameters.zip signature.parameters).zip arguments).map (·.1.1)
      _ = (((f.parameters.zip signature.parameters).zip arguments).map Prod.fst).map Prod.fst :=
        List.map_map.symm
      _ = (f.parameters.zip signature.parameters).map Prod.fst := by
        rw [List.map_fst_zip (by rw [List.length_zip]; omega)]
      _ = f.parameters := List.map_fst_zip (by omega)
  refine .bind (passArguments_marked fun t ht => h _ (List.of_mem_zip ht).2)
    fun passed hpassed => ?_
  cases passed with
  | none => exact .pure (.poison _)
  | some es =>
    obtain ⟨hcount, hmarked⟩ := List.forall₂_iff_zip.1 (hparameters ▸ hpassed es rfl)
    exact .pure (.call _ hcount fun _ => hmarked)

theorem call_marked (h : ∀ e ∈ arguments, e.Marked .read) (span : Span)
    (overloads : List FunctionDecl) : (call span overloads arguments).Always (Marked .read) := by
  unfold call
  split
  · exact .pure (.poison _)
  split
  · exact callFunction_marked h span _
  · split
    · exact callFunction_marked h span _
    · exact .refuse (.poison _)

theorem callChild_marked (h : ∀ e ∈ arguments, e.Marked .read) (span : Span) (kind : EffectKind)
    (child : Expr) : (callChild span kind child arguments).Always (Marked .read) := by
  unfold callChild
  dsimp only
  split
  · split
    · exact .refuse (.poison _)
    · refine .bind (marked_coerceAll h) fun converted hconverted => ?_
      split
      · exact .pure (.poison _)
      · exact .pure (.childCall _ _ hconverted)
  · exact .refuse (.poison _)

theorem callMethod_marked (h : ∀ e ∈ arguments, e.Marked .read) (span : Span) (base : Expr)
    (name : String) : (callMethod span base name arguments).Always (Marked .read) := by
  unfold callMethod
  dsimp only
  split
  · exact .pure (.poison _)
  split
  · exact callChild_marked h span _ _
  · split
    · exact .pure (.literal _ _)
    · exact .refuse (.poison _)
  · exact .refuse (.poison _)

/-! ## Statements -/

theorem expressionStatement_marked {e : Expr} (h : e.Marked .read) :
    (expressionStatement e).Marked := by
  unfold expressionStatement
  split
  · exact .nop _
  · exact .expression _ h

theorem branch_marked {test : Expr} {ifTrue : Stmt} {ifFalse : Option Stmt}
    (htest : test.Marked .read) (htrue : ifTrue.Marked) (hfalse : ∀ s ∈ ifFalse, s.Marked)
    (span : Span) : (branch dialect span test ifTrue ifFalse).Always Stmt.Marked := by
  unfold branch
  refine .bind (htest.coerce _) fun test htest => ?_
  split
  · exact .pure (.nop _)
  split
  · refine .pure ?_
    split
    · exact htrue
    · cases ifFalse with
      | none => exact .nop _
      | some s => exact hfalse s rfl
  · exact .pure (.branch _ htest htrue hfalse)

theorem optionalTest_marked {test : Option Expr} (h : ∀ e ∈ test, e.Marked .read) :
    (optionalTest test).Always fun checked => ∀ test ∈ checked, ∀ e ∈ test, e.Marked .read := by
  cases test with
  | none => exact .pure (forall_mem_some forall_mem_none)
  | some test =>
    refine .bind ((h test rfl).coerce _) fun test htest => .pure fun checked hchecked => ?_
    split at hchecked
    · cases hchecked
    · exact Option.some.inj hchecked ▸ forall_mem_some htest

theorem forLoop_marked {initializer : Option Stmt} {test next : Option Expr} {body : Stmt}
    (hinitializer : ∀ s ∈ initializer, s.Marked) (htest : ∀ e ∈ test, e.Marked .read)
    (hnext : ∀ e ∈ next, e.Marked .read) (hbody : body.Marked) (span : Span) :
    (forLoop dialect span initializer test next body).Always Stmt.Marked := by
  unfold forLoop
  refine .bind (optionalTest_marked htest) fun checked hchecked => ?_
  cases checked with
  | none => exact .pure (.nop _)
  | some test =>
    have hloop (trips : Option TripInfo) :
        (Stmt.loop span initializer test next body trips).Marked :=
      .loop _ _ hinitializer (hchecked test rfl) hnext hbody
    dsimp only
    split
    · exact .pure (.nop _)
    split
    · exact .pure (hloop _)
    · split
      · exact .refuse (.nop _)
      · exact .pure (hloop _)

theorem whileLoop_marked {test : Expr} {body : Stmt} (htest : test.Marked .read)
    (hbody : body.Marked) (span : Span) :
    (whileLoop dialect span test body).Always Stmt.Marked := by
  unfold whileLoop
  split
  · exact .refuse (.nop _)
  refine .bind (htest.coerce _) fun test htest => .pure ?_
  split
  · exact .nop _
  · exact .loop _ _ forall_mem_none (forall_mem_some htest) forall_mem_none hbody

theorem doLoop_marked {body : Stmt} {test : Expr} (hbody : body.Marked)
    (htest : test.Marked .read) (span : Span) :
    (doLoop dialect span body test).Always Stmt.Marked := by
  unfold doLoop
  split
  · exact .refuse (.nop _)
  refine .bind (htest.coerce _) fun test htest => .pure ?_
  split
  · exact .nop _
  · exact .doWhile _ hbody htest

/-- The value of a case and its statements are marked. -/
structure RawCase.Marked (c : RawCase) : Prop where
  value : ∀ e ∈ c.value, e.Marked .read
  statements : ∀ s ∈ c.statements, s.Marked

theorem switchCases_marked {cases : List RawCase} (h : ∀ c ∈ cases, c.Marked) (ty : Ty)
    (seen : List Int) :
    (switchCases ty seen cases).Always fun cases => ∀ c ∈ cases, ∀ s ∈ c.statements, s.Marked := by
  induction cases generalizing seen with
  | nil => exact .pure (List.forall_mem_nil _)
  | cons first rest ih =>
    obtain ⟨value, span, statements⟩ := first
    rw [List.forall_mem_cons] at h
    have hcase (n : Option Int) (others : List SwitchCase)
        (hothers : ∀ c ∈ others, ∀ s ∈ c.statements, s.Marked) :
        ∀ c ∈ (⟨span, n, statements⟩ : SwitchCase) :: others, ∀ s ∈ c.statements, s.Marked :=
      List.forall_mem_cons.2 ⟨h.1.statements, hothers⟩
    cases value with
    | none => exact .bind (ih h.2 seen) fun others hothers => .pure (hcase none others hothers)
    | some value =>
      refine .bind ((h.1.value value rfl).coerce ty) fun value hvalue => ?_
      split
      · exact ih h.2 seen
      split
      · exact .bind (p := fun _ => True) trivial fun _ _ => ih h.2 seen
      · rename_i n _
        have hkept : Checked.Always
            (do return (⟨span, some n, statements⟩ : SwitchCase) ::
              (← switchCases ty (n :: seen) rest))
            fun cases => ∀ c ∈ cases, ∀ s ∈ c.statements, s.Marked :=
          .bind (ih h.2 (n :: seen)) fun others hothers => .pure (hcase (some n) others hothers)
        dsimp only
        split
        · exact .bind (p := fun _ => True) trivial fun _ _ => hkept
        · exact hkept

theorem switch_marked {value : Expr} {cases : List RawCase} (hvalue : value.Marked .read)
    (hcases : ∀ c ∈ cases, c.Marked) (span : Span) :
    (switch dialect span value cases).Always Stmt.Marked := by
  have hswitch {value : Expr} (hvalue : value.Marked .read) :
      Checked.Always (if value.isPoison then pure (.nop span)
        else do return .switch span value (← switchCases value.ty [] cases)) Stmt.Marked := by
    split
    · exact .pure (.nop _)
    · exact .bind (switchCases_marked hcases _ _) fun checked hchecked =>
        .pure (.switch _ hvalue hchecked)
  unfold switch
  split
  · exact .refuse (.nop _)
  split
  · exact .pure (.nop _)
  dsimp only
  split
  · exact .bind (.pure hvalue) fun value hvalue => hswitch hvalue
  · exact .bind (hvalue.coerce .int) fun value hvalue => hswitch hvalue

theorem returnStatement_marked {value : Option Expr} (h : ∀ e ∈ value, e.Marked .read)
    (span : Span) (function : Option FunctionDecl) :
    (returnStatement span function value).Always Stmt.Marked := by
  have hreturns {e : Expr} (h : e.Marked .read) : (Stmt.returns span (some e)).Marked :=
    .returns _ (forall_mem_some h)
  unfold returnStatement
  split
  · exact .refuse (.nop _)
  · rename_i f value
    have hvalue := h value rfl
    split
    · exact .pure (hreturns hvalue)
    split
    · exact .refuse (.nop _)
    · exact .bind (hvalue.coerce _) fun e he => .pure (hreturns he)
  · split
    · exact .pure (.returns _ forall_mem_none)
    · exact .refuse (.nop _)

theorem jump_marked {s : Stmt} (h : s.Marked) (permitted : Bool) (span : Span) (issue : Issue) :
    (jump permitted span issue s).Always Stmt.Marked := by
  unfold jump
  split
  · exact .pure h
  · exact .refuse (.nop _)

/-! ## Declarations -/

theorem initializer_marked {value : Option Expr} (h : ∀ e ∈ value, e.Marked .read) (span : Span)
    (modifiers : Modifiers) (ty : Ty) (storage : Storage) :
    (initializer span modifiers ty value storage).Always fun checked =>
      ∀ value ∈ checked, ∀ e ∈ value, e.Marked .read := by
  unfold initializer
  split
  · split
    · exact .refuse forall_mem_none
    · exact .pure (forall_mem_some forall_mem_none)
  · rename_i value
    split
    · exact .refuse forall_mem_none
    split
    · exact .refuse forall_mem_none
    refine .bind ((h value rfl).coerce ty) fun value hvalue => ?_
    split
    · exact .pure forall_mem_none
    split
    · exact .refuse forall_mem_none
    · exact .pure (forall_mem_some (forall_mem_some hvalue))

end Typing

end RasterShader
