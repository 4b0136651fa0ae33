import Mathlib
import RasterShader.Proofs.Typing.Formed

/-!
# Formed operations

The operand types that an operation calls for are proper if those of its operands are, and what an
operation computes can be stored (`OperandTypes.ofOperation_proper`).  Folding then gives formed
expressions, and so does every operation that is not reported.
-/

namespace RasterShader

/-! ## Operand types -/

/-- The operation neither assigns nor decides anything: it computes a value of its operands'
type. -/
def Operator.computes (op : Operator) : Bool :=
  !(op.isAssignment || op == .comma || op.isEquality || op.isLogical || op.isRelational)

theorem Operator.removeAssignment_of_computes {op : Operator} (h : op.computes = true) :
    op.removeAssignment = op := by
  cases op with
  | plusEq | minusEq | starEq | slashEq | percentEq | shlEq | shrEq | bitwiseAndEq | bitwiseOrEq
  | bitwiseXorEq => cases h
  | _ => rfl

namespace OperandTypes

variable {left right : Ty} {types : OperandTypes}

/-- Expressions may have the types of the operation. -/
structure Proper (types : OperandTypes) : Prop where
  left : types.left.isProper = true
  right : types.right.isProper = true
  result : types.result.isProper = true

theorem commonScalar_scalar {a b : Scalar} {c : Ty}
    (h : commonScalar (.scalar a) (.scalar b) = some c) : ∃ s, c = .scalar s := by
  unfold commonScalar at h
  grind

theorem scalar_of_isScalar {ty : Ty} (h : ty.isScalar = true) : ∃ s, ty = .scalar s := by
  cases ty <;> simp_all [Ty.isScalar]

theorem isShaped_of_isCompound {ty : Ty} (h : isCompound ty = true) : ty.isShaped = true := by
  cases ty <;> simp_all [isCompound, Ty.isVector, Ty.isMatrix, Ty.isShaped]

/-- A vector or matrix over the common scalar of two types. -/
theorem proper_of_commonScalar {a b c t : Ty} {columns rows : Nat} (ha : ∃ s, a = .scalar s)
    (hb : ∃ s, b = .scalar s) (hc : commonScalar a b = some c)
    (ht : c.toCompound? columns rows = some t) :
    c.isProper = true ∧ t.isProper = true ∧ t.isShaped = true := by
  obtain ⟨a, rfl⟩ := ha
  obtain ⟨b, rfl⟩ := hb
  obtain ⟨s, rfl⟩ := commonScalar_scalar hc
  have hscalar : (Ty.scalar s).isShaped = true := rfl
  obtain ⟨hstored, hshaped⟩ := Ty.isStored_of_toCompound? hscalar ht
  exact ⟨rfl, Ty.isProper_of_isStored hstored, hshaped⟩

theorem componentwise_proper (hleft : left.isProper = true) (hright : right.isProper = true)
    (hshaped : left.isShaped = true) (h : componentwise left right = some types) :
    types.Proper ∧ types.result.isShaped = true := by
  unfold componentwise at h
  split_ifs at h with hsame hscalar hscalar hshape
  · obtain rfl := Option.some.inj h
    exact ⟨⟨hleft, hright, hleft⟩, hshaped⟩
  · obtain ⟨hl, hr⟩ := Bool.and_eq_true_iff.1 hscalar
    obtain ⟨c, hc, h⟩ := Option.bind_eq_some_iff.1 h
    obtain ⟨t, ht, h⟩ := Option.bind_eq_some_iff.1 h
    obtain rfl := Option.some.inj h
    obtain ⟨hc', ht', hshaped'⟩ := proper_of_commonScalar (scalar_of_isScalar hl)
      (Ty.isShaped_component (isShaped_of_isCompound hr)) hc ht
    exact ⟨⟨hc', ht', ht'⟩, hshaped'⟩
  · obtain ⟨hr, hl⟩ := Bool.and_eq_true_iff.1 hscalar
    obtain ⟨c, hc, h⟩ := Option.bind_eq_some_iff.1 h
    obtain ⟨t, ht, h⟩ := Option.bind_eq_some_iff.1 h
    obtain rfl := Option.some.inj h
    obtain ⟨hc', ht', hshaped'⟩ := proper_of_commonScalar
      (Ty.isShaped_component (isShaped_of_isCompound hl)) (scalar_of_isScalar hr) hc ht
    exact ⟨⟨ht', hc', ht'⟩, hshaped'⟩
  · obtain ⟨c, hc, h⟩ := Option.bind_eq_some_iff.1 h
    obtain ⟨t, ht, h⟩ := Option.bind_eq_some_iff.1 h
    obtain rfl := Option.some.inj h
    have hr : right.isShaped = true := by
      simp only [Ty.sameShape, Bool.and_eq_true] at hshape
      exact hshape.1.1.1.2
    obtain ⟨-, ht', hshaped'⟩ := proper_of_commonScalar (Ty.isShaped_component hshaped)
      (Ty.isShaped_component hr) hc ht
    exact ⟨⟨ht', ht', ht'⟩, hshaped'⟩

theorem product_proper (hleft : left.isProper = true) (hright : right.isProper = true)
    (hl : left.isShaped = true) (hr : right.isShaped = true) (h : product left right = some types) :
    types.Proper ∧ types.result.isShaped = true := by
  have hscalars := And.intro (Ty.isShaped_component hl) (Ty.isShaped_component hr)
  unfold product at h
  obtain ⟨c, hc, h⟩ := Option.bind_eq_some_iff.1 h
  obtain ⟨l, hl', h⟩ := Option.bind_eq_some_iff.1 h
  obtain ⟨r, hr', h⟩ := Option.bind_eq_some_iff.1 h
  have hl'' := proper_of_commonScalar hscalars.1 hscalars.2 hc hl'
  have hr'' := proper_of_commonScalar hscalars.1 hscalars.2 hc hr'
  have hresult {columns rows : Nat}
      (h : (c.toCompound? columns rows >>= fun t => some (⟨l, r, t⟩ : OperandTypes)) = some types) :
      types.Proper ∧ types.result.isShaped = true := by
    obtain ⟨t, ht, h⟩ := Option.bind_eq_some_iff.1 h
    obtain rfl := Option.some.inj h
    have ht' := proper_of_commonScalar hscalars.1 hscalars.2 hc ht
    exact ⟨⟨hl''.2.1, hr''.2.1, ht'.2.1⟩, ht'.2.2⟩
  split_ifs at h
  · exact hresult h
  · exact hresult h
  · exact hresult h
  · exact componentwise_proper hleft hright hl h

theorem equality_proper (hleft : left.isProper = true) (hright : right.isProper = true)
    (h : equality left right = some types) : types.Proper := by
  unfold equality at h
  split_ifs at h with hsupports hsame hshape
  · obtain rfl := Option.some.inj h
    exact ⟨hleft, hright, rfl⟩
  · obtain ⟨c, hc, h⟩ := Option.bind_eq_some_iff.1 h
    obtain ⟨t, ht, h⟩ := Option.bind_eq_some_iff.1 h
    obtain rfl := Option.some.inj h
    have hshape : left.sameShape right = true := by simpa using hshape
    simp only [Ty.sameShape, Bool.and_eq_true] at hshape
    obtain ⟨-, ht', -⟩ := proper_of_commonScalar (Ty.isShaped_component hshape.1.1.1.1)
      (Ty.isShaped_component hshape.1.1.1.2) hc ht
    exact ⟨ht', ht', rfl⟩

/-- Both scalars convert to the common one. -/
theorem coercionCost_commonScalar {a b c : Ty} (h : commonScalar a b = some c) :
    (a.coercionCost c).isSome = true ∧ (b.coercionCost c).isSome = true := by
  have hself (t : Ty) : (t.coercionCost t).isSome = true := by simp [Ty.coercionCost, Ty.same]
  unfold commonScalar at h
  split at h
  · rename_i hsame
    obtain rfl := Option.some.inj h
    have hsame' : b.same a = true := by
      rw [Ty.same, beq_iff_eq] at hsame ⊢
      exact hsame.symm
    exact ⟨hself a, by simp [Ty.coercionCost, hsame']⟩
  · split at h
    · rename_i hab hba
      split_ifs at h
      all_goals
        obtain rfl := Option.some.inj h
        simp [hself, hab, hba]
    · rename_i hab _
      obtain rfl := Option.some.inj h
      simp [hself, hab]
    · rename_i hba
      obtain rfl := Option.some.inj h
      simp [hself, hba]
    · cases h

/-- Conversions of scalars, vectors and matrices of one shape are those of their components. -/
theorem coercionCost_of_component {a b : Ty} {s t : Scalar} (ha : a.component = .scalar s)
    (hb : b.component = .scalar t) (hshape : a.sameShape b = true)
    (h : ((Ty.scalar s).coercionCost (.scalar t)).isSome = true) :
    (a.coercionCost b).isSome = true := by
  have hakind : a.numberKind = s.kind := by
    cases a <;> simp_all [Ty.component, Ty.numberKind, Ty.sameShape, Ty.isShaped]
  have hbkind : b.numberKind = t.kind := by
    cases b <;> simp_all [Ty.component, Ty.numberKind, Ty.sameShape, Ty.isShaped]
  have hgeneric : ∀ g, b ≠ .generic g := by
    rintro g rfl
    cases hb
  have hplain : (a.plainCoercionCost b).isSome = true := by
    unfold Ty.plainCoercionCost
    split
    · rfl
    · rw [if_neg (by simp [hshape]), hakind, hbkind]
      revert h
      cases s <;> cases t <;> decide
  unfold Ty.coercionCost
  split
  · rfl
  · cases b with
    | generic g => exact absurd rfl (hgeneric g)
    | _ => exact hplain

/-- A vector or matrix with the columns and rows of a type has its shape. -/
theorem sameShape_toCompound? {ty t : Ty} {s : Scalar} (hshaped : ty.isShaped = true)
    (hrows : ty.hasRows = true) (h : (Ty.scalar s).toCompound? ty.columns ty.rows = some t) :
    ty.sameShape t = true ∧ t.component = .scalar s := by
  cases ty with
  | scalar =>
    obtain rfl := Option.some.inj h
    exact ⟨rfl, rfl⟩
  | vector s' columns =>
    rw [Ty.toCompound?, if_neg (by simp [Ty.rows])] at h
    split_ifs at h with hone
    · obtain rfl := Option.some.inj h
      exact ⟨by simp_all [Ty.sameShape, Ty.isShaped, Ty.columns, Ty.rows, Ty.isMatrix,
        Ty.component], rfl⟩
    · simp only [Ty.vector?, Ty.component] at h
      split_ifs at h
      obtain rfl := Option.some.inj h
      exact ⟨by simp [Ty.sameShape, Ty.isShaped, Ty.columns, Ty.rows, Ty.isMatrix], rfl⟩
  | matrix s' columns rows =>
    rw [Ty.toCompound?, if_pos (by simpa [Ty.hasRows, Ty.rows] using hrows)] at h
    simp only [Ty.matrix?, Ty.component] at h
    split_ifs at h
    obtain rfl := Option.some.inj h
    exact ⟨by simp [Ty.sameShape, Ty.isShaped, Ty.columns, Ty.rows, Ty.isMatrix], rfl⟩
  | _ => cases hshaped

/-- The operands of a comparison for equality have the types that it calls for, or convert to
them. -/
theorem equality_converts (hrows : left.hasRows = true) (h : equality left right = some types) :
    left.same types.left = true ∧ right.same types.right = true ∨
      types.right = types.left ∧ types.left.isShaped = true ∧
        (left.coercionCost types.left).isSome = true ∧
        (right.coercionCost types.left).isSome = true := by
  unfold equality at h
  split_ifs at h with hsupports hsame hshape
  · obtain rfl := Option.some.inj h
    exact .inl ⟨beq_self_eq_true _, beq_self_eq_true _⟩
  · obtain ⟨c, hc, h⟩ := Option.bind_eq_some_iff.1 h
    obtain ⟨t, ht, h⟩ := Option.bind_eq_some_iff.1 h
    obtain rfl := Option.some.inj h
    have hshape : left.sameShape right = true := by simpa using hshape
    have hshaped : left.isShaped = true ∧ right.isShaped = true := by
      simp only [Ty.sameShape, Bool.and_eq_true] at hshape
      exact hshape.1.1.1
    obtain ⟨a, ha⟩ := Ty.isShaped_component hshaped.1
    obtain ⟨b, hb⟩ := Ty.isShaped_component hshaped.2
    rw [ha, hb] at hc
    obtain ⟨s, rfl⟩ := commonScalar_scalar hc
    obtain ⟨hleft, ht'⟩ := sameShape_toCompound? hshaped.1 hrows ht
    have hright : right.sameShape t = true := by
      simp only [Ty.sameShape, Bool.and_eq_true, beq_iff_eq] at hshape hleft ⊢
      exact ⟨⟨⟨⟨hshape.1.1.1.2, hleft.1.1.1.2⟩, hshape.1.1.2 ▸ hleft.1.1.2⟩,
        hshape.1.2 ▸ hleft.1.2⟩, hshape.2 ▸ hleft.2⟩
    have htshaped : t.isShaped = true := by
      simp only [Ty.sameShape, Bool.and_eq_true] at hleft
      exact hleft.1.1.1.2
    obtain ⟨hac, hbc⟩ := coercionCost_commonScalar hc
    exact .inr ⟨rfl, htshaped, coercionCost_of_component ha ht' hleft hac,
      coercionCost_of_component hb ht' hright hbc⟩

theorem ordering_proper (h : ordering left right = some types) : types.Proper := by
  unfold ordering at h
  split_ifs at h with hscalars
  obtain ⟨c, hc, h⟩ := Option.bind_eq_some_iff.1 h
  obtain rfl := Option.some.inj h
  simp only [Bool.or_eq_true, Bool.not_eq_true', not_or, Bool.not_eq_false] at hscalars
  obtain ⟨a, rfl⟩ := scalar_of_isScalar hscalars.1.1.1
  obtain ⟨b, rfl⟩ := scalar_of_isScalar hscalars.1.1.2
  obtain ⟨s, rfl⟩ := commonScalar_scalar hc
  exact ⟨rfl, rfl, rfl⟩

/-- The types that an operation calls for, given operands whose types are proper, are proper, and
what it computes can be stored. -/
theorem ofOperation_proper {op : Operator} (hleft : left.isProper = true)
    (hright : right.isProper = true) (h : ofOperation op left right = some types) :
    types.Proper ∧ (op.computes = true → types.result.isStored = true) := by
  have hstored (hproper : types.Proper ∧ types.result.isShaped = true) :
      types.Proper ∧ (op.computes = true → types.result.isStored = true) :=
    ⟨hproper.1, fun _ => Ty.isStored_of_isShaped hproper.1.result hproper.2⟩
  cases op with
  | assign =>
    simp only [ofOperation] at h
    split_ifs at h
    obtain rfl := Option.some.inj h
    exact ⟨⟨hleft, hleft, hleft⟩, nofun⟩
  | comma =>
    obtain rfl := Option.some.inj h
    exact ⟨⟨hleft, hright, hright⟩, nofun⟩
  | eqEq | neq => exact ⟨equality_proper hleft hright h, nofun⟩
  | logicalAnd | logicalOr | logicalXor =>
    simp only [ofOperation] at h
    split_ifs at h
    obtain rfl := Option.some.inj h
    exact ⟨⟨rfl, rfl, rfl⟩, nofun⟩
  | lt | gt | ltEq | gtEq => exact ⟨ordering_proper h, nofun⟩
  | plus | minus | star | slash =>
    simp only [ofOperation] at h
    split_ifs at h with hnumbers hproduct
    all_goals
      simp only [Bool.or_eq_true, Bool.not_eq_true', not_or, Bool.not_eq_false] at hnumbers
      have hl := Ty.isShaped_of_isNumber hnumbers.1
      have hr := Ty.isShaped_of_isNumber hnumbers.2
    · exact hstored (product_proper hleft hright hl hr h)
    · exact hstored (componentwise_proper hleft hright hl h)
  | percent | bitwiseAnd | bitwiseOr | bitwiseXor | shl | shr =>
    simp only [ofOperation] at h
    split_ifs at h with hintegers
    simp only [Bool.or_eq_true, Bool.not_eq_true', not_or, Bool.not_eq_false] at hintegers
    have hl : left.isShaped = true :=
      Ty.isShaped_of_isNumber (by simp [Ty.isNumber, hintegers.1.1.1])
    exact hstored (componentwise_proper hleft hright hl h)
  | _ => cases h

end OperandTypes

/-! ## Folding -/

namespace Constant

variable {span : Span} {left right operand e : Expr} {op : Operator} {result : Ty}

/-- A binary operation is carried out on constants, and gives a boolean or a constant of the type
that is computed. -/
theorem foldBinary_eq_some (h : foldBinary span left op right result = .ok (some e)) :
    op.isAssignment = false ∧
      (left.constantValue?.isSome = true ∧ right.constantValue?.isSome = true) ∧
      ((∃ value, e = .boolean span value) ∨
        op.computes = true ∧ ∃ values, e = .ofConstant span values result) := by
  have hboolean {value : Bool} (h : Except.ok (some (.boolean span value)) =
      (Except.ok (some e) : Except FoldError (Option Expr))) : ∃ value, e = .boolean span value :=
    ⟨value, (Option.some.inj (Except.ok.inj h)).symm⟩
  unfold foldBinary at h
  dsimp only at h
  split at h
  · cases h
  rename_i hfoldable
  split at h
  · rename_i a b hleft hright
    refine ⟨by simp_all, ⟨by rw [hleft]; rfl, by rw [hright]; rfl⟩, ?_⟩
    split_ifs at h with hequality hlength hlogical hrelational hcount
    · cases h
    · exact .inl (hboolean h)
    · exact .inl (hboolean h)
    · cases h
    · exact .inl (hboolean h)
    · refine .inr ⟨by simp_all [Operator.computes], ?_⟩
      cases hfold : foldComponents op result.numberKind (pairUp a b) with
      | error error =>
        rw [hfold] at h
        cases h
      | ok values =>
        rw [hfold] at h
        obtain ⟨vs, -, rfl⟩ := Option.map_eq_some_iff.1 (Except.ok.inj h)
        exact ⟨vs, rfl⟩
  · cases h

/-- A prefix operation is carried out on a constant, and gives one of the same type. -/
theorem foldPrefix?_eq_some (h : foldPrefix? span op operand = some e) :
    operand.constantValue?.isSome = true ∧ ∃ values, e = .ofConstant span values operand.ty := by
  unfold foldPrefix? at h
  split at h
  · cases h
  · obtain ⟨values, hvalues, h⟩ := Option.bind_eq_some_iff.1 h
    obtain ⟨folded, -, h⟩ := Option.bind_eq_some_iff.1 h
    exact ⟨Option.isSome_of_eq_some hvalues, folded, (Option.some.inj h).symm⟩

/-- A binary operation that is carried out gives a formed expression. -/
theorem foldBinary_formed (h : foldBinary span left op right result = .ok (some e))
    (hresult : op.computes = true → result.isStored = true) : e.Formed := by
  obtain ⟨-, -, ⟨value, rfl⟩ | ⟨hcomputes, values, rfl⟩⟩ := foldBinary_eq_some h
  · exact Expr.formed_literal.2 rfl
  · exact Expr.formed_ofConstant _ _ _ (hresult hcomputes)

/-- A prefix operation that is carried out gives a formed expression. -/
theorem foldPrefix?_formed (h : foldPrefix? span op operand = some e)
    (hty : operand.ty.isStored = true) : e.Formed := by
  obtain ⟨-, values, rfl⟩ := foldPrefix?_eq_some h
  exact Expr.formed_ofConstant _ _ _ hty

end Constant

namespace Typing

theorem foldConstructor_formed {dialect : Dialect} {e : Expr} (h : e.Formed)
    (hty : e.ty.isStored = true) : (foldConstructor dialect e).Formed := by
  unfold foldConstructor
  split
  · exact Expr.formed_ofConstant _ _ _ hty
  · exact h

/-! ## Operations -/

variable {dialect : Dialect} {span : Span}

theorem shortCircuit?_formed {left right e : Expr} {op : Operator} (hleft : left.Formed)
    (hright : right.Formed) (h : shortCircuit? left op right = some e) : e.Formed := by
  unfold shortCircuit? at h
  split at h <;> cases h <;> assumption

theorem combine_formed {left right : Expr} {op : Operator} {result : Ty} (hleft : left.Formed)
    (hright : right.Formed) (hresult : result.isProper = true)
    (hstored : op.computes = true → result.isStored = true) :
    (combine dialect span left op right result).Ensures Expr.Formed := by
  unfold combine
  split
  · rename_i e hcircuit
    split_ifs at hcircuit
    exact .pure (shortCircuit?_formed hleft hright hcircuit)
  · split
    · exact .refuse
    · rename_i folded hfolded
      split
      · rename_i e he
        split_ifs at he
        obtain rfl := he
        exact .pure (Constant.foldBinary_formed hfolded hstored)
      · exact .pure (Expr.formed_binary.2 ⟨hresult, hleft, hright⟩)

theorem operation_formed {left right : Expr} {op : Operator} (hleft : left.Formed)
    (hright : right.Formed) : (operation dialect span left op right).Ensures Expr.Formed := by
  unfold operation
  dsimp only
  have hright := hright.adaptLiteral left.ty
  generalize right.adaptLiteral left.ty = right at hright ⊢
  have hleft : (if op.isAssignment then left else left.adaptLiteral right.ty).Formed := by
    split
    · exact hleft
    · exact hleft.adaptLiteral _
  generalize (if op.isAssignment then left else left.adaptLiteral right.ty) = left at hleft ⊢
  split
  · exact .refuse
  rename_i types htypes
  obtain ⟨hproper, hstored⟩ := OperandTypes.ofOperation_proper hleft.isProper hright.isProper htypes
  have hcombine (left right : Expr) (hleft : left.Formed) (hright : right.Formed) :
      (if (left.isPoison || right.isPoison) = true then pure (.poison span)
        else combine dialect span left op right types.result).Ensures Expr.Formed := by
    rw [if_neg (by simp [hleft.isPoison, hright.isPoison])]
    refine combine_formed hleft hright hproper.result fun hcomputes => hstored ?_
    rwa [Operator.removeAssignment_of_computes hcomputes]
  split_ifs
  · exact .refuse
  · refine .bind (.pure hleft) fun left hleft => ?_
    exact .bind (hright.coerce hproper.right) fun right hright => hcombine left right hleft hright
  · refine .bind (hleft.coerce hproper.left) fun left hleft => ?_
    exact .bind (hright.coerce hproper.right) fun right hright => hcombine left right hleft hright

theorem binary_formed {left right : Expr} {op : Operator} (hleft : left.Formed)
    (hright : right.Formed) : (binary dialect left op right).Ensures Expr.Formed := by
  unfold binary
  dsimp only
  rw [if_neg (by simp [hleft.isPoison, hright.isPoison])]
  split
  · refine .bind (hleft.markAssigned _) ?_
    rintro _ rfl
    exact operation_formed (hleft.withRefKind _) hright
  · exact operation_formed hleft hright

theorem prefixApplies_isStored {op : Operator} {ty : Ty} (hty : ty.isProper = true)
    (h : prefixApplies op ty = true) : ty.isStored = true := by
  apply Ty.isStored_of_isShaped hty
  apply Ty.isShaped_of_numberKind
  intro hkind
  cases op <;>
    simp [prefixApplies, Ty.isNumber, Ty.isFloat, Ty.isInteger, Ty.isSigned, Ty.isUnsigned,
      Ty.isBoolean, hkind] at h

theorem prefixOperation_formed {place : Span} {op : Operator} {operand : Expr}
    (h : operand.Formed) : (prefixOperation dialect place op operand).Ensures Expr.Formed := by
  unfold prefixOperation
  dsimp only
  rw [if_neg (by simp [h.isPoison])]
  split
  · exact .refuse
  · rename_i happlies
    have hstored := prefixApplies_isStored h.isProper (by simpa using happlies)
    split
    case h_1 => exact .pure h
    case h_2 | h_3 =>
      refine .bind (h.markAssigned _) ?_
      rintro _ rfl
      exact .pure (Expr.formed_prefixed.2 ⟨h.isProper, h.withRefKind _⟩)
    case h_4 =>
      split
      · rename_i e he
        split_ifs at he
        exact .pure (Constant.foldPrefix?_formed he hstored)
      · exact .pure (Expr.formed_prefixed.2 ⟨h.isProper, h⟩)

theorem postfixOperation_formed {operand : Expr} {op : Operator} {place : Span}
    (h : operand.Formed) : (postfixOperation operand op place).Ensures Expr.Formed := by
  unfold postfixOperation
  dsimp only
  rw [if_neg (by simp [h.isPoison])]
  split
  · exact .refuse
  · refine .bind (h.markAssigned _) ?_
    rintro _ rfl
    exact .pure (Expr.formed_postfixed.2 ⟨h.isProper, h.withRefKind _⟩)

theorem ternary_formed {test ifTrue ifFalse : Expr} {place : Span} (htest : test.Formed)
    (htrue : ifTrue.Formed) (hfalse : ifFalse.Formed) :
    (ternary dialect test ifTrue ifFalse place).Ensures Expr.Formed := by
  unfold ternary
  dsimp only
  refine .bind (htest.coerce rfl) fun test htest => ?_
  rw [if_neg (by simp [htest.isPoison, htrue.isPoison, hfalse.isPoison])]
  have hfalse := hfalse.adaptLiteral ifTrue.ty
  generalize ifFalse.adaptLiteral ifTrue.ty = ifFalse at hfalse ⊢
  have htrue := htrue.adaptLiteral ifFalse.ty
  generalize ifTrue.adaptLiteral ifFalse.ty = ifTrue at htrue ⊢
  split
  · exact .refuse
  · rename_i types htypes
    have hproper := OperandTypes.equality_proper htrue.isProper hfalse.isProper htypes
    split
    · exact .refuse
    split
    · exact .refuse
    refine .bind (htrue.coerce hproper.left) fun ifTrue htrue => ?_
    refine .bind (hfalse.coerce hproper.right) fun ifFalse hfalse => ?_
    split
    · exact .pure htrue
    · exact .pure hfalse
    · exact .pure (Expr.formed_ternary.2 ⟨hproper.left, ⟨htest, htrue⟩, hfalse⟩)

end Typing

end RasterShader
