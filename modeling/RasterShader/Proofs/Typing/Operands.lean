import Mathlib
import RasterShader.Proofs.Constant.Kinds
import RasterShader.Proofs.Typing.Operation

/-!
# Operands of integers and booleans

What type checking establishes of the operands of an operation on scalars and vectors of integers or
booleans: they are of the kind of the result, and have as many components, or a single one that goes
with every component of the other side (`OperandTypes.ofOperation_agree`).
-/

namespace RasterShader

/-! ## Scalars and vectors -/

namespace Ty

/-- Scalars and vectors. -/
def isLinear (ty : Ty) : Bool := ty.isScalar || ty.isVector

/-- The scalars and vectors that values can have. -/
def linears : List Ty :=
  [Scalar.float, .half, .int, .uint, .short, .ushort, .bool].flatMap Scalar.family

theorem mem_linears {ty : Ty} (proper : ty.isProper = true) (linear : ty.isLinear = true) :
    ty ∈ linears := by
  have hfamily : ∀ s : Scalar, ∀ t ∈ s.family, t ∈ linears := fun s t ht =>
    List.mem_flatMap.2 ⟨s, by cases s <;> decide, ht⟩
  cases ty with
  | scalar s => exact hfamily s _ List.mem_cons_self
  | vector s columns =>
    have hcolumns : 2 ≤ columns ∧ columns ≤ 4 := by
      simpa [isProper, isStored, isVoid, isEffect] using proper
    obtain rfl | rfl | rfl : columns = 2 ∨ columns = 3 ∨ columns = 4 := by omega
    all_goals exact hfamily s _ (by simp [Scalar.family])
  | _ => cases linear

/-- Scalars and vectors of one name have one layout. -/
theorem layout_of_same {a b : Ty} (ha : a.isProper = true) (ha' : a.isLinear = true)
    (hb : b.isProper = true) (hb' : b.isLinear = true) (same : a.same b = true) :
    a.numberKind = b.numberKind ∧ a.slotCount = b.slotCount := by
  have hall : ∀ a ∈ linears, ∀ b ∈ linears, a.same b = true →
      a.numberKind = b.numberKind ∧ a.slotCount = b.slotCount := by decide +kernel
  exact hall a (mem_linears ha ha') b (mem_linears hb hb') same

theorem slotCount_pos {ty : Ty} (proper : ty.isProper = true) (linear : ty.isLinear = true) :
    0 < ty.slotCount := by
  have hall : ∀ a ∈ linears, 0 < a.slotCount := by decide +kernel
  exact hall ty (mem_linears proper linear)

theorem isShaped_of_isLinear {ty : Ty} (linear : ty.isLinear = true) : ty.isShaped = true := by
  cases ty <;> first | rfl | cases linear

theorem kind_of_isLinear {ty : Ty} (linear : ty.isLinear = true) (notFloat : ty.numberKind ≠ .float) :
    ty.numberKind.IsInteger ∨ ty.numberKind = .boolean := by
  cases ty with
  | scalar s | vector s =>
    have hkind : ∀ s : Scalar, s.kind ≠ .float → s.kind.IsInteger ∨ s.kind = .boolean := by
      intro s
      cases s <;> simp [Scalar.kind, NumberKind.IsInteger]
    exact hkind s notFloat
  | _ => cases linear

theorem numberKind_component {ty : Ty} (shaped : ty.isShaped = true) :
    ty.component.numberKind = ty.numberKind := by
  cases ty <;> first | rfl | cases shaped

theorem numberKind_toCompound? {s : Scalar} {columns rows : Nat} {ty : Ty}
    (h : (scalar s).toCompound? columns rows = some ty) : ty.numberKind = s.kind := by
  simp only [toCompound?, component, matrix?, vector?] at h
  split_ifs at h <;> obtain rfl := Option.some.inj h <;> rfl

/-- A compound with several rows is a matrix. -/
theorem isLinear_toCompound? {s : Scalar} {columns rows : Nat} {ty : Ty}
    (h : (scalar s).toCompound? columns rows = some ty) (linear : ty.isLinear = true) : rows ≤ 1 := by
  simp only [toCompound?, component, matrix?] at h
  split_ifs at h with hrows
  · obtain rfl := Option.some.inj h
    cases linear
  all_goals omega

end Ty

/-! ## Operand types -/

namespace OperandTypes

variable {left right : Ty} {types : OperandTypes} {op : Operator}

theorem commonScalar_eq {a b c : Ty} (h : commonScalar a b = some c) : c = a ∨ c = b := by
  unfold commonScalar at h
  grind

/-- The operands of an operation that is carried out component by component. -/
structure Shares (types : OperandTypes) : Prop where
  result : types.result.isLinear = true
  left_kind : types.left.numberKind = types.result.numberKind
  right_kind : types.right.numberKind = types.result.numberKind
  pos : 0 < types.result.slotCount
  left_slots : types.left.slotCount = types.result.slotCount ∨ types.left.slotCount = 1
  right_slots : types.right.slotCount = types.result.slotCount ∨ types.right.slotCount = 1
  either : types.left.slotCount = types.result.slotCount ∨
    types.right.slotCount = types.result.slotCount

/-- The common scalar of two components, and a compound of it, are of the kind of one of them. -/
theorem kind_of_commonScalar {c t : Ty} {columns rows : Nat} (hl : left.isShaped = true)
    (hr : right.isShaped = true) (hc : commonScalar left.component right.component = some c)
    (ht : c.toCompound? columns rows = some t) :
    c.slotCount = 1 ∧ c.numberKind = t.numberKind ∧
      (t.numberKind = left.numberKind ∨ t.numberKind = right.numberKind) := by
  obtain ⟨a, ha⟩ := Ty.isShaped_component hl
  obtain ⟨b, hb⟩ := Ty.isShaped_component hr
  have hkind := commonScalar_eq hc
  rw [ha, hb] at hc
  obtain ⟨s, rfl⟩ := commonScalar_scalar hc
  have htkind : t.numberKind = (Ty.scalar s).numberKind := Ty.numberKind_toCompound? ht
  refine ⟨rfl, htkind.symm, ?_⟩
  rw [htkind]
  obtain h | h := hkind
  · exact .inl (h ▸ Ty.numberKind_component hl)
  · exact .inr (h ▸ Ty.numberKind_component hr)

theorem componentwise_shares (hl : left.isProper = true) (hr : right.isProper = true)
    (hl' : left.isShaped = true) (hr' : right.isShaped = true)
    (hleft : types.left.isLinear = true) (hright : types.right.isLinear = true)
    (h : componentwise left right = some types) :
    types.Shares ∧ (types.result.numberKind = left.numberKind ∨
      types.result.numberKind = right.numberKind) := by
  have hproper := (componentwise_proper hl hr hl' h).1.result
  have hcomponent {ty : Ty} (scalar : ty.isScalar = true) : ty = ty.component := by
    cases ty <;> first | rfl | cases scalar
  unfold componentwise at h
  split_ifs at h with hsame hscalar hscalar hshape
  · obtain rfl := Option.some.inj h
    obtain ⟨hkind, hslots⟩ := Ty.layout_of_same hl hleft hr hright hsame
    exact ⟨⟨hleft, rfl, hkind.symm, Ty.slotCount_pos hproper hleft, .inl rfl, .inl hslots.symm,
      .inl rfl⟩, .inl rfl⟩
  · obtain ⟨c, hc, h⟩ := Option.bind_eq_some_iff.1 h
    obtain ⟨t, ht, h⟩ := Option.bind_eq_some_iff.1 h
    obtain rfl := Option.some.inj h
    rw [hcomponent (Bool.and_eq_true_iff.1 hscalar).1] at hc
    obtain ⟨hone, hkind, hfrom⟩ := kind_of_commonScalar hl' hr' hc ht
    exact ⟨⟨hright, hkind, rfl, Ty.slotCount_pos hproper hright, .inr hone, .inl rfl, .inr rfl⟩,
      hfrom⟩
  · obtain ⟨c, hc, h⟩ := Option.bind_eq_some_iff.1 h
    obtain ⟨t, ht, h⟩ := Option.bind_eq_some_iff.1 h
    obtain rfl := Option.some.inj h
    rw [hcomponent (Bool.and_eq_true_iff.1 hscalar).1] at hc
    obtain ⟨hone, hkind, hfrom⟩ := kind_of_commonScalar hl' hr' hc ht
    exact ⟨⟨hleft, rfl, hkind, Ty.slotCount_pos hproper hleft, .inl rfl, .inr hone, .inl rfl⟩,
      hfrom⟩
  · obtain ⟨c, hc, h⟩ := Option.bind_eq_some_iff.1 h
    obtain ⟨t, ht, h⟩ := Option.bind_eq_some_iff.1 h
    obtain rfl := Option.some.inj h
    obtain ⟨hone, hkind, hfrom⟩ := kind_of_commonScalar hl' hr' hc ht
    exact ⟨⟨hleft, rfl, rfl, Ty.slotCount_pos hproper hleft, .inl rfl, .inl rfl, .inl rfl⟩, hfrom⟩

/-- A product whose operands are scalars and vectors is carried out component by component. -/
theorem product_eq_componentwise (hl : left.isProper = true) (hr : right.isProper = true)
    (hl' : left.isShaped = true) (hr' : right.isShaped = true)
    (hleft : types.left.isLinear = true) (hright : types.right.isLinear = true)
    (h : product left right = some types) : componentwise left right = some types := by
  have hrows {ty : Ty} (proper : ty.isProper = true) (matrix : ty.isMatrix = true) : 2 ≤ ty.rows := by
    cases ty with
    | matrix s columns rows =>
      have hstored := Ty.isStored_of_isShaped proper rfl
      simp only [Ty.isStored, Bool.and_eq_true, decide_eq_true_eq] at hstored
      exact hstored.1.2
    | _ => cases matrix
  unfold product at h
  obtain ⟨c, hc, h⟩ := Option.bind_eq_some_iff.1 h
  obtain ⟨l, hl'', h⟩ := Option.bind_eq_some_iff.1 h
  obtain ⟨r, hr'', h⟩ := Option.bind_eq_some_iff.1 h
  obtain ⟨a, ha⟩ := Ty.isShaped_component hl'
  obtain ⟨b, hb⟩ := Ty.isShaped_component hr'
  rw [ha, hb] at hc
  obtain ⟨s, rfl⟩ := commonScalar_scalar hc
  have hleftRows (h : l.isLinear = true) := Ty.isLinear_toCompound? hl'' h
  have hrightRows (h : r.isLinear = true) := Ty.isLinear_toCompound? hr'' h
  split_ifs at h with hboth _ hmatrix _ hvector
  · obtain ⟨t, -, h⟩ := Option.bind_eq_some_iff.1 h
    obtain rfl := Option.some.inj h
    have := hrows hl (Bool.and_eq_true_iff.1 hboth).1
    have := hleftRows hleft
    omega
  · obtain ⟨t, -, h⟩ := Option.bind_eq_some_iff.1 h
    obtain rfl := Option.some.inj h
    have := hrows hl (Bool.and_eq_true_iff.1 hmatrix).1
    have := hleftRows hleft
    omega
  · obtain ⟨t, -, h⟩ := Option.bind_eq_some_iff.1 h
    obtain rfl := Option.some.inj h
    have := hrows hr (Bool.and_eq_true_iff.1 hvector).2
    have := hrightRows hright
    omega
  · exact h

end OperandTypes

/-- What the operands of an operation on scalars and vectors of integers or booleans have in common,
with each other and with the result. -/
def OperandTypes.Agree (types : OperandTypes) (op : Operator) : Prop :=
  match op with
  | .eqEq | .neq =>
    types.left.numberKind = types.right.numberKind ∧
      types.left.slotCount = types.right.slotCount ∧ 0 < types.left.slotCount
  | .logicalAnd | .logicalOr | .logicalXor => types.left = .bool ∧ types.right = .bool
  | .lt | .gt | .ltEq | .gtEq =>
    types.left.isScalar = true ∧ types.right.isScalar = true ∧
      types.left.numberKind.IsInteger ∧ types.right.numberKind = types.left.numberKind
  | _ => types.Shares ∧ types.result.numberKind.IsInteger

namespace OperandTypes

variable {left right : Ty} {types : OperandTypes} {op : Operator}

theorem isInteger_of_isNumber {ty : Ty} (number : ty.isNumber = true)
    (notFloat : ty.numberKind ≠ .float) : ty.numberKind.IsInteger := by
  unfold NumberKind.IsInteger
  simpa [Ty.isNumber, Ty.isFloat, Ty.isInteger, Ty.isSigned, Ty.isUnsigned, notFloat] using number

theorem equality_agree (hl : left.isProper = true) (hr : right.isProper = true)
    (hleft : types.left.isLinear = true) (hright : types.right.isLinear = true)
    (h : equality left right = some types) :
    types.left.numberKind = types.right.numberKind ∧
      types.left.slotCount = types.right.slotCount ∧ 0 < types.left.slotCount := by
  have hpos := Ty.slotCount_pos (equality_proper hl hr h).left hleft
  unfold equality at h
  split_ifs at h with hsupports hsame hshape
  · obtain rfl := Option.some.inj h
    obtain ⟨hkind, hslots⟩ := Ty.layout_of_same hl hleft hr hright hsame
    exact ⟨hkind, hslots, hpos⟩
  · obtain ⟨c, hc, h⟩ := Option.bind_eq_some_iff.1 h
    obtain ⟨t, ht, h⟩ := Option.bind_eq_some_iff.1 h
    obtain rfl := Option.some.inj h
    exact ⟨rfl, rfl, hpos⟩

theorem ordering_agree (notFloat : types.left.numberKind ≠ .float)
    (h : ordering left right = some types) :
    types.left.isScalar = true ∧ types.right.isScalar = true ∧
      types.left.numberKind.IsInteger ∧ types.right.numberKind = types.left.numberKind := by
  unfold ordering at h
  split_ifs at h with hscalars
  obtain ⟨c, hc, h⟩ := Option.bind_eq_some_iff.1 h
  obtain rfl := Option.some.inj h
  simp only [Bool.or_eq_true, Bool.not_eq_true', not_or, Bool.not_eq_false] at hscalars
  obtain ⟨⟨⟨hl, hr⟩, hlnumber⟩, hrnumber⟩ := hscalars
  obtain rfl | rfl := commonScalar_eq hc
  · exact ⟨hl, hl, isInteger_of_isNumber hlnumber notFloat, rfl⟩
  · exact ⟨hr, hr, isInteger_of_isNumber hrnumber notFloat, rfl⟩

/-- The types that an operation calls for agree, if they are scalars or vectors of integers or
booleans. -/
theorem ofOperation_agree (hl : left.isProper = true) (hr : right.isProper = true)
    (hleft : types.left.isLinear = true) (hright : types.right.isLinear = true)
    (notFloat : types.left.numberKind ≠ .float) (assigns : op.isAssignment = false)
    (comma : op ≠ .comma) (h : ofOperation op left right = some types) : types.Agree op := by
  have hnumbers (hl' : left.isNumber = true) (hr' : right.isNumber = true)
      (h : componentwise left right = some types) :
      types.Shares ∧ types.result.numberKind.IsInteger := by
    obtain ⟨shares, hfrom⟩ := componentwise_shares hl hr (Ty.isShaped_of_isNumber hl')
      (Ty.isShaped_of_isNumber hr') hleft hright h
    rw [shares.left_kind] at notFloat
    refine ⟨shares, ?_⟩
    obtain hkind | hkind := hfrom <;> rw [hkind] at notFloat ⊢
    · exact isInteger_of_isNumber hl' notFloat
    · exact isInteger_of_isNumber hr' notFloat
  cases op with
  | eqEq | neq => exact equality_agree hl hr hleft hright h
  | lt | gt | ltEq | gtEq => exact ordering_agree notFloat h
  | logicalAnd | logicalOr | logicalXor =>
    simp only [ofOperation] at h
    split_ifs at h
    obtain rfl := Option.some.inj h
    exact ⟨rfl, rfl⟩
  | plus | minus | star | slash =>
    simp only [ofOperation] at h
    split_ifs at h with hnumber hproduct
    all_goals
      simp only [Bool.or_eq_true, Bool.not_eq_true', not_or, Bool.not_eq_false] at hnumber
    · exact hnumbers hnumber.1 hnumber.2 (product_eq_componentwise hl hr
        (Ty.isShaped_of_isNumber hnumber.1) (Ty.isShaped_of_isNumber hnumber.2) hleft hright h)
    · exact hnumbers hnumber.1 hnumber.2 h
  | percent | bitwiseAnd | bitwiseOr | bitwiseXor | shl | shr =>
    simp only [ofOperation] at h
    split_ifs at h with hintegers
    simp only [Bool.or_eq_true, Bool.not_eq_true', not_or, Bool.not_eq_false] at hintegers
    exact hnumbers (by simp [Ty.isNumber, hintegers.1.1.1]) (by simp [Ty.isNumber, hintegers.1.1.2]) h
  | comma => exact absurd rfl comma
  | assign => cases assigns
  | _ => cases h

end OperandTypes

end RasterShader
