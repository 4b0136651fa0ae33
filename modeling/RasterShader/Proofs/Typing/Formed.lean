import Mathlib
import RasterShader.Ir.Walk
import RasterShader.Typing.Access
import RasterShader.Typing.Call
import RasterShader.Typing.Construct
import RasterShader.Typing.Operation

/-!
# Formed expressions

An expression is formed if nothing in it has failed to type-check and all of its types are types of
values (`Expr.Formed`).  A constant of any type that can be stored is formed
(`Expr.formed_ofConstant`), and so is a conversion that is not reported (`Expr.Formed.coerce`).

`Checked.Ensures` says what holds of an outcome without reports, and is passed on from one step of a
check to the next.
-/

namespace RasterShader

/-! ## Results without reports -/

namespace Checked

variable {α β : Type} {p : α → Prop} {q : β → Prop}

/-- The value has a property, unless something is reported. -/
def Ensures (x : Checked α) (p : α → Prop) : Prop := x.reports = [] → p x.value

namespace Ensures

theorem pure {a : α} (h : p a) : (Pure.pure a : Checked α).Ensures p := fun _ => h

theorem refuse {span : Span} {issue : Issue} {a : α} : (Checked.refuse span issue a).Ensures p :=
  nofun

theorem bind {x : Checked α} {f : α → Checked β} (hx : x.Ensures p)
    (hf : ∀ a, p a → (f a).Ensures q) : (x >>= f).Ensures q := by
  intro hquiet
  obtain ⟨hfirst, hrest⟩ := List.append_eq_nil_iff.1 hquiet
  exact hf x.value (hx hfirst) hrest

end Ensures

end Checked

/-! ## Types of values -/

namespace Ty

mutual

/-- Values of the type can be stored: its parts are numbers and booleans, and its vectors and
matrices have two to four columns and rows. -/
def isStored : Ty → Bool
  | scalar _ => true
  | vector _ columns => 2 ≤ columns && columns ≤ 4
  | matrix s columns rows => s.hasMatrices && 2 ≤ columns && columns ≤ 4 && 2 ≤ rows && rows ≤ 4
  | array element _ => element.isStored
  | struct _ fields _ => allStored fields
  | void | effect _ | generic _ | poison => false

/-- Values of every field can be stored. -/
def allStored : List (FieldOf Ty) → Bool
  | [] => true
  | ⟨_, ty, _, _⟩ :: rest => ty.isStored && allStored rest

end

/-- Expressions may have the type. -/
def isProper (ty : Ty) : Bool := ty.isStored || ty.isVoid || ty.isEffect

theorem isProper_of_isStored {ty : Ty} (h : ty.isStored = true) : ty.isProper = true := by
  simp [isProper, h]

/-- A scalar, vector or matrix that expressions may have can be stored. -/
theorem isStored_of_isShaped {ty : Ty} (h : ty.isProper = true) (hshaped : ty.isShaped = true) :
    ty.isStored = true := by
  cases ty <;> simp_all [isProper, isShaped, isVoid, isEffect]

theorem allStored_iff {fields : List (FieldOf Ty)} :
    allStored fields = true ↔ ∀ f ∈ fields, f.ty.isStored = true := by
  induction fields with
  | nil => simp [allStored]
  | cons f rest ih => simp [allStored, ih]

/-- A matrix has more than one row. -/
def hasRows : Ty → Bool
  | matrix _ _ rows => 1 < rows
  | _ => true

/-- Numbers and booleans come in scalars, vectors and matrices. -/
theorem isShaped_of_numberKind {ty : Ty} (h : ty.numberKind ≠ .nonnumeric) :
    ty.isShaped = true := by
  cases ty <;> simp_all [numberKind, isShaped]

theorem isShaped_of_isNumber {ty : Ty} (h : ty.isNumber = true) : ty.isShaped = true := by
  apply isShaped_of_numberKind
  intro hkind
  simp [isNumber, isFloat, isInteger, isSigned, isUnsigned, hkind] at h

theorem isShaped_component {ty : Ty} (h : ty.isShaped = true) : ∃ s, ty.component = .scalar s := by
  cases ty <;> simp_all [isShaped, component]

/-- A vector or matrix over a scalar can be stored. -/
theorem isStored_of_toCompound? {ty t : Ty} {columns rows : Nat} (hty : ty.isShaped = true)
    (h : ty.toCompound? columns rows = some t) : t.isStored = true ∧ t.isShaped = true := by
  obtain ⟨s, hs⟩ := isShaped_component hty
  rw [toCompound?, hs] at h
  split_ifs at h
  · simp only [matrix?] at h
    split_ifs at h with hdims
    obtain rfl := Option.some.inj h
    exact ⟨by simpa [isStored] using hdims, rfl⟩
  · obtain rfl := Option.some.inj h
    exact ⟨rfl, rfl⟩
  · simp only [vector?] at h
    split_ifs at h with hdims
    obtain rfl := Option.some.inj h
    exact ⟨by simpa [isStored] using hdims, rfl⟩

/-- There are vectors of up to four components over every scalar. -/
theorem toCompound?_isSome {ty : Ty} {columns : Nat} (hty : ty.isShaped = true)
    (hpos : 0 < columns) (hcolumns : columns ≤ 4) : ∃ t, ty.toCompound? columns 1 = some t := by
  obtain ⟨s, hs⟩ := isShaped_component hty
  rw [toCompound?, hs, if_neg (by omega)]
  split_ifs with hone
  · exact ⟨_, rfl⟩
  · exact ⟨.vector s columns, by simp only [vector?]; rw [if_pos (by simp; omega)]⟩

end Ty

namespace Expr

/-! ## Expressions without failures -/

/-- The node itself is in order: it has not failed, expressions may have its type, and components
are taken of scalars, vectors and matrices. -/
def isSound : Expr → Bool
  | poison _ => false
  | swizzle h base _ => h.ty.isProper && base.ty.isShaped
  | e => e.ty.isProper

/-- Every node of the expression is in order. -/
def Formed (e : Expr) : Prop := ∀ x ∈ e.nodes, x.isSound = true

theorem nodesOfAll_eq (es : List Expr) : nodesOfAll es = es.flatMap nodes := by
  induction es with
  | nil => rfl
  | cons e rest ih => rw [nodesOfAll, ih, List.flatMap_cons]

theorem forall_mem_nodesOfAll {p : Expr → Prop} {es : List Expr} :
    (∀ x ∈ nodesOfAll es, p x) ↔ ∀ e ∈ es, ∀ x ∈ e.nodes, p x := by
  rw [nodesOfAll_eq]
  exact List.forall_mem_flatMap

theorem mem_nodes_self (e : Expr) : e ∈ e.nodes := by
  cases e <;> exact List.mem_cons_self

theorem Formed.isSound {e : Expr} (h : e.Formed) : e.isSound = true := h e (mem_nodes_self e)

theorem Formed.isProper {e : Expr} (h : e.Formed) : e.ty.isProper = true := by
  have hsound := h.isSound
  cases e with
  | poison span => cases hsound
  | swizzle head base components =>
    obtain ⟨hproper, -⟩ := Bool.and_eq_true_iff.1 hsound
    exact hproper
  | _ => exact hsound

theorem Formed.isPoison {e : Expr} (h : e.Formed) : e.isPoison = false := by
  cases e with
  | poison span => cases h.isSound
  | _ => rfl

theorem anyPoison_eq_false {es : List Expr} (h : ∀ e ∈ es, e.Formed) : anyPoison es = false := by
  rw [anyPoison, List.any_eq_false]
  intro e he
  simp [(h e he).isPoison]

section nodes

variable {h : Head} {e e₁ e₂ e₃ : Expr} {es : List Expr}

/-- An expression is formed if the node itself is in order and those within it are. -/
theorem formed_of_nodes {rest : List Expr} (hnodes : e.nodes = e :: rest) :
    e.Formed ↔ e.isSound = true ∧ ∀ x ∈ rest, x.isSound = true := by
  rw [Formed, hnodes, List.forall_mem_cons]

@[simp] theorem formed_literal {value : Float} :
    (literal h value).Formed ↔ h.ty.isProper = true :=
  (formed_of_nodes rfl).trans (and_iff_left (List.forall_mem_nil _))

@[simp] theorem formed_reference {v : Variable} {init : Option Expr} {ref : RefKind} :
    (reference h v init ref).Formed ↔ h.ty.isProper = true :=
  (formed_of_nodes rfl).trans (and_iff_left (List.forall_mem_nil _))

@[simp] theorem not_formed_poison {span : Span} : ¬ (poison span).Formed := by
  intro h
  cases h.isSound

@[simp] theorem formed_binary {op : Operator} :
    (binary h e₁ op e₂).Formed ↔ h.ty.isProper = true ∧ e₁.Formed ∧ e₂.Formed :=
  (formed_of_nodes rfl).trans (and_congr Iff.rfl List.forall_mem_append)

@[simp] theorem formed_prefixed {op : Operator} :
    (prefixed h op e).Formed ↔ h.ty.isProper = true ∧ e.Formed := formed_of_nodes rfl

@[simp] theorem formed_postfixed {op : Operator} :
    (postfixed h op e).Formed ↔ h.ty.isProper = true ∧ e.Formed := formed_of_nodes rfl

@[simp] theorem formed_field {i : Nat} :
    (field h e i).Formed ↔ h.ty.isProper = true ∧ e.Formed := formed_of_nodes rfl

@[simp] theorem formed_index :
    (index h e₁ e₂).Formed ↔ h.ty.isProper = true ∧ e₁.Formed ∧ e₂.Formed :=
  (formed_of_nodes rfl).trans (and_congr Iff.rfl List.forall_mem_append)

@[simp] theorem formed_swizzle {components : List Nat} :
    (swizzle h e components).Formed ↔
      (h.ty.isProper = true ∧ e.ty.isShaped = true) ∧ e.Formed :=
  (formed_of_nodes rfl).trans (and_congr Bool.and_eq_true_iff Iff.rfl)

@[simp] theorem formed_ternary :
    (ternary h e₁ e₂ e₃).Formed ↔
      h.ty.isProper = true ∧ (e₁.Formed ∧ e₂.Formed) ∧ e₃.Formed :=
  (formed_of_nodes rfl).trans
    (and_congr Iff.rfl (List.forall_mem_append.trans (and_congr List.forall_mem_append Iff.rfl)))

@[simp] theorem formed_call {f : FunctionDecl} :
    (call h f es).Formed ↔ h.ty.isProper = true ∧ ∀ e ∈ es, e.Formed :=
  (formed_of_nodes rfl).trans (and_congr Iff.rfl forall_mem_nodesOfAll)

@[simp] theorem formed_childCall {v : Variable} :
    (childCall h v es).Formed ↔ h.ty.isProper = true ∧ ∀ e ∈ es, e.Formed :=
  (formed_of_nodes rfl).trans (and_congr Iff.rfl forall_mem_nodesOfAll)

@[simp] theorem formed_convert {conversion : Conversion} :
    (convert h conversion e).Formed ↔ h.ty.isProper = true ∧ e.Formed := formed_of_nodes rfl

@[simp] theorem formed_assemble {assembly : Assembly} :
    (assemble h assembly es).Formed ↔ h.ty.isProper = true ∧ ∀ e ∈ es, e.Formed :=
  (formed_of_nodes rfl).trans (and_congr Iff.rfl forall_mem_nodesOfAll)

end nodes

/-! ## Constants -/

mutual

/-- A constant of a type that can be stored is formed. -/
theorem formed_ofConstant (span : Span) (values : List Float) (ty : Ty)
    (h : ty.isStored = true) : (ofConstant span values ty).Formed := by
  have hproper := Ty.isProper_of_isStored h
  cases ty with
  | scalar s => exact formed_literal.2 hproper
  | vector s columns =>
    rw [ofConstant]
    split
    · exact formed_convert.2 ⟨hproper, formed_literal.2 rfl⟩
    · refine formed_assemble.2 ⟨hproper, fun e he => ?_⟩
      obtain ⟨v, -, rfl⟩ := List.mem_map.1 he
      exact formed_literal.2 rfl
  | matrix s columns rows =>
    refine formed_assemble.2 ⟨hproper, fun e he => ?_⟩
    obtain ⟨v, -, rfl⟩ := List.mem_map.1 he
    exact formed_literal.2 rfl
  | array element count =>
    refine formed_assemble.2 ⟨hproper, fun e he => ?_⟩
    obtain ⟨i, -, rfl⟩ := List.mem_map.1 he
    exact formed_ofConstant span _ element (by simpa [Ty.isStored] using h)
  | struct name fields isBlock =>
    exact formed_assemble.2 ⟨hproper, formed_ofConstants span values fields
      (by simpa [Ty.isStored] using h)⟩
  | void | effect | generic | poison => cases h

/-- The constants of fields that can be stored are formed. -/
theorem formed_ofConstants (span : Span) (values : List Float) (fields : List (FieldOf Ty))
    (h : Ty.allStored fields = true) : ∀ e ∈ ofConstants span values fields, e.Formed := by
  match fields with
  | [] => exact List.forall_mem_nil _
  | ⟨_, ty, _, _⟩ :: rest =>
    obtain ⟨hty, hrest⟩ := Bool.and_eq_true_iff.1 (by simpa [Ty.allStored] using h)
    exact List.forall_mem_cons.2
      ⟨formed_ofConstant span _ ty hty, formed_ofConstants span _ rest hrest⟩

end

/-! ## Conversions -/

variable {e : Expr} {ty : Ty}

theorem Formed.withSpan (h : e.Formed) (span : Span) : (e.withSpan span).Formed := by
  cases e with
  | poison => cases h.isSound
  | _ => simpa [Expr.withSpan] using h

theorem Formed.castTo (h : e.Formed) (hty : ty.isStored = true) : (e.castTo ty).Formed := by
  have hproper := Ty.isProper_of_isStored hty
  unfold Expr.castTo
  split
  · exact formed_literal.2 hproper
  · split
    · exact formed_ofConstant _ _ ty hty
    · exact formed_convert.2 ⟨hproper, h⟩

theorem Formed.castUnlessSame (h : e.Formed) (hty : ty.isStored = true) :
    (e.castUnlessSame ty).Formed := by
  unfold Expr.castUnlessSame
  split
  · exact h
  · exact h.castTo hty

/-- What converts to another type that is no placeholder is a scalar, vector or matrix. -/
theorem isShaped_of_coercionCost (hgeneric : ty.isGeneric = false)
    (hsame : e.ty.same ty = false) (hcost : (e.coercionCost ty).isSome = true) :
    ty.isShaped = true := by
  unfold coercionCost at hcost
  rw [if_neg (by simp [hsame])] at hcost
  split at hcost
  · rename_i hadapts
    cases ty <;> simp_all [adaptsTo, Ty.isScalar, Ty.isShaped]
  · unfold Ty.coercionCost at hcost
    rw [if_neg (by simp [hsame])] at hcost
    split at hcost
    · cases hgeneric
    · unfold Ty.plainCoercionCost at hcost
      rw [if_neg (by simp [hsame])] at hcost
      split at hcost
      · cases hcost
      · rename_i hshape
        have hshape : e.ty.sameShape ty = true := by simpa using hshape
        simp only [Ty.sameShape, Bool.and_eq_true] at hshape
        exact hshape.1.1.1.2

/-- A conversion is made exactly when it has a cost. -/
theorem coerce_eq (he : e.isPoison = false) (hty : ty.isPoison = false) :
    e.coerce ty = if (e.coercionCost ty).isSome then pure (e.castUnlessSame ty)
      else .refuse e.span (.wrongType ty e.ty) (poison e.span) := by
  unfold coerce castUnlessSame
  rw [he, hty, Bool.false_or, Bool.false_or]
  cases hsame : e.ty.same ty with
  | true => simp [coercionCost, hsame]
  | false => cases e.coercionCost ty <;> rfl

/-- A cast to a scalar, vector or matrix has that type. -/
theorem ty_castTo (he : e.isPoison = false) (hshaped : ty.isShaped = true) :
    (e.castTo ty).ty = ty ∧ (e.castTo ty).isPoison = false := by
  unfold castTo
  split
  · exact ⟨rfl, rfl⟩
  · split
    · cases ty with
      | scalar | matrix => exact ⟨rfl, rfl⟩
      | vector =>
        unfold ofConstant
        dsimp only
        split <;> exact ⟨rfl, rfl⟩
      | _ => cases hshaped
    · exact ⟨rfl, rfl⟩

/-- What is converted has the type it is converted to. -/
theorem same_castUnlessSame (he : e.isPoison = false) (hgeneric : ty.isGeneric = false)
    (hcost : (e.coercionCost ty).isSome = true) :
    (e.castUnlessSame ty).ty.same ty = true ∧ (e.castUnlessSame ty).isPoison = false := by
  unfold castUnlessSame
  split
  · rename_i hsame
    exact ⟨hsame, he⟩
  · rename_i hsame
    obtain ⟨htype, hcast⟩ := ty_castTo he (isShaped_of_coercionCost hgeneric
      (Bool.eq_false_iff.2 hsame) hcost)
    rw [htype]
    exact ⟨beq_self_eq_true _, hcast⟩

/-- What converts to another type can be stored. -/
theorem isStored_of_coercionCost (hty : ty.isProper = true) (hsame : e.ty.same ty = false)
    (hcost : (e.coercionCost ty).isNone = false) : ty.isStored = true := by
  have hgeneric : ty.isGeneric = false := by
    cases ty with
    | generic => cases hty
    | _ => rfl
  have hsome : (e.coercionCost ty).isSome = true := by simpa using hcost
  exact Ty.isStored_of_isShaped hty (isShaped_of_coercionCost hgeneric hsame hsome)

/-- A conversion that is not reported is formed. -/
theorem Formed.coerce (h : e.Formed) (hty : ty.isProper = true) :
    (e.coerce ty).Ensures Formed := by
  unfold Expr.coerce
  split_ifs with hsame hcost
  · exact .pure h
  · exact .refuse
  · simp only [Bool.or_eq_true, not_or, Bool.not_eq_true] at hsame hcost
    exact .pure (h.castTo (isStored_of_coercionCost hty hsame.2 hcost))

theorem Formed.coerceAll {es : List Expr} {tys : List Ty} (h : ∀ e ∈ es, e.Formed)
    (htys : ∀ ty ∈ tys, ty.isProper = true) :
    (coerceAll es tys).Ensures fun es => ∀ e ∈ es, e.Formed := by
  fun_induction Expr.coerceAll es tys with
  | case1 e es ty tys ih =>
    rw [List.forall_mem_cons] at h htys
    refine .bind (h.1.coerce htys.1) fun first hfirst => ?_
    exact .bind (ih h.2 htys.2) fun others hothers =>
      .pure (List.forall_mem_cons.2 ⟨hfirst, hothers⟩)
  | case2 => exact .pure (List.forall_mem_nil _)

/-- A literal that takes on the type of its neighbour is formed. -/
theorem Formed.adaptLiteral (h : e.Formed) (other : Ty) : (e.adaptLiteral other).Formed := by
  unfold Expr.adaptLiteral
  dsimp only
  split
  · exact h
  · rename_i hadapts
    refine h.castTo ?_
    cases hcomponent : other.component <;> simp_all [Ty.isScalar, Ty.isStored]

/-! ## Storage -/

theorem ty_withRefKind (kind : RefKind) : (e.withRefKind kind).ty = e.ty := by
  cases e <;> rfl

theorem Formed.withRefKind (h : e.Formed) (kind : RefKind) : (e.withRefKind kind).Formed := by
  fun_induction Expr.withRefKind kind e with
  | case1 => simpa using h
  | case2 head base i ih => simp_all
  | case3 head base i ih => simp_all
  | case4 head base c ih =>
    rw [formed_swizzle] at h ⊢
    rw [ty_withRefKind]
    exact ⟨h.1, ih h.2⟩
  | case5 => exact h

/-- It is reported if an expression names no storage that may be written. -/
theorem Formed.assignable (h : e.Formed) : e.assignable.Ensures (· = true) := by
  fun_induction Expr.assignable e with
  | case1 | case6 | case8 => exact .refuse
  | case2 => exact .pure rfl
  | case3 head base i ih => exact ih (formed_field.1 h).2
  | case4 head base i ih => exact ih (formed_index.1 h).2.1
  | case5 head base components hnodup ih => exact ih (formed_swizzle.1 h).2
  | case7 => exact absurd h not_formed_poison

theorem Formed.markAssigned (h : e.Formed) (kind : RefKind) :
    (e.markAssigned kind).Ensures (· = some (e.withRefKind kind)) := by
  refine .bind h.assignable ?_
  rintro _ rfl
  exact .pure rfl

end Expr

end RasterShader
