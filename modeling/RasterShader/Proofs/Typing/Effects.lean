import Mathlib
import RasterShader.Proofs.Typing.Marks
import RasterShader.Proofs.Typing.Reports

/-!
# Checks keep side effects

`Expr.effects` lists the assignments, the increments and decrements, and the calls of functions
that are not pure in an expression, from left to right.  Checks rebuild their operands in many ways:
they mark, convert, fold, select, assemble and drop them.  Whatever is dropped for good is constant
or has no side effects, but for an operand that a constant boolean decides against; and whatever is
kept is kept once (`Typing.Check.effects_run`).
-/

namespace RasterShader

namespace Expr

/-! ## Side effects -/

/-- The node, if it is a side effect.  Its place is left out: a constructor that is nothing but its
argument moves that to its own place. -/
def ownEffects (e : Expr) : List Expr := if e.isEffect then [e.withSpan default] else []

/-- The side effects of an expression from left to right, each before those of its operands. -/
def effects (e : Expr) : List Expr := e.nodes.flatMap ownEffects

theorem effects_of_nodes {e : Expr} {rest : List Expr} (h : e.nodes = e :: rest) :
    e.effects = e.ownEffects ++ rest.flatMap ownEffects := by
  rw [effects, h, List.flatMap_cons]

theorem flatMap_nodesOfAll (es : List Expr) :
    (nodesOfAll es).flatMap ownEffects = es.flatMap effects := by
  rw [nodesOfAll_eq, List.flatMap_assoc]
  rfl

section nodes

variable {h : Head} {e e₁ e₂ e₃ : Expr} {es : List Expr}

@[simp] theorem effects_literal {value : Float} : (literal h value).effects = [] := rfl

@[simp] theorem effects_reference {v : Variable} {init : Option Expr} {ref : RefKind} :
    (reference h v init ref).effects = [] := rfl

@[simp] theorem effects_poison {span : Span} : (poison span).effects = [] := rfl

@[simp] theorem effects_binary {op : Operator} :
    (binary h e₁ op e₂).effects =
      (binary h e₁ op e₂).ownEffects ++ (e₁.effects ++ e₂.effects) := by
  rw [effects_of_nodes rfl, List.flatMap_append]
  rfl

@[simp] theorem effects_prefixed {op : Operator} :
    (prefixed h op e).effects = (prefixed h op e).ownEffects ++ e.effects := effects_of_nodes rfl

@[simp] theorem effects_postfixed {op : Operator} :
    (postfixed h op e).effects = (postfixed h op e).ownEffects ++ e.effects := effects_of_nodes rfl

@[simp] theorem effects_field {i : Nat} : (field h e i).effects = e.effects := rfl

@[simp] theorem effects_index : (index h e₁ e₂).effects = e₁.effects ++ e₂.effects := by
  rw [effects_of_nodes rfl, List.flatMap_append]
  rfl

@[simp] theorem effects_swizzle {components : List Nat} :
    (swizzle h e components).effects = e.effects := rfl

@[simp] theorem effects_ternary :
    (ternary h e₁ e₂ e₃).effects = e₁.effects ++ e₂.effects ++ e₃.effects := by
  rw [effects_of_nodes rfl, List.flatMap_append, List.flatMap_append]
  rfl

@[simp] theorem effects_call {f : FunctionDecl} :
    (call h f es).effects = (call h f es).ownEffects ++ es.flatMap effects := by
  rw [effects_of_nodes rfl, flatMap_nodesOfAll]

@[simp] theorem effects_childCall {v : Variable} :
    (childCall h v es).effects = es.flatMap effects := flatMap_nodesOfAll es

@[simp] theorem effects_convert {conversion : Conversion} :
    (convert h conversion e).effects = e.effects := rfl

@[simp] theorem effects_assemble {assembly : Assembly} :
    (assemble h assembly es).effects = es.flatMap effects := flatMap_nodesOfAll es

end nodes

variable {e : Expr} {ty : Ty} {span : Span}

/-- An expression has side effects if there are any. -/
theorem hasSideEffects_iff : e.hasSideEffects = true ↔ e.effects ≠ [] := by
  simp [hasSideEffects, effects, ownEffects]

@[simp] theorem ownEffects_withSpan : (e.withSpan span).ownEffects = e.ownEffects := by
  cases e <;> rfl

@[simp] theorem effects_withSpan : (e.withSpan span).effects = e.effects := by
  have hown : (e.withSpan span).ownEffects = e.ownEffects := ownEffects_withSpan
  cases e with
  | binary | prefixed | postfixed | call =>
    simp only [withSpan] at hown
    simp [withSpan, hown]
  | _ => simp [withSpan]

/-- Marks are set on variables. -/
@[simp] theorem effects_withRefKind (kind : RefKind) :
    (e.withRefKind kind).effects = e.effects := by
  fun_induction withRefKind kind e with
  | case1 => rfl
  | case2 h base i ih => simp [ih]
  | case3 h base i ih => simp [ih]
  | case4 h base c ih => simp [ih]
  | case5 => rfl

/-! ## Constants -/

mutual

theorem effects_ofConstant (span : Span) (values : List Float) (ty : Ty) :
    (ofConstant span values ty).effects = [] := by
  cases ty with
  | scalar s => rfl
  | vector s columns =>
    rw [ofConstant]
    split <;> simp
  | matrix s columns rows => simp [ofConstant]
  | array element count =>
    have hparts (i : Nat) := effects_ofConstant span
      ((values.drop (i * element.slotCount)).take element.slotCount) element
    simp [ofConstant, hparts]
  | struct name fields isBlock =>
    rw [ofConstant, effects_assemble]
    exact effects_ofConstants span values fields
  | void | effect | generic | poison => rfl

theorem effects_ofConstants (span : Span) (values : List Float) (fields : List (FieldOf Ty)) :
    (ofConstants span values fields).flatMap effects = [] := by
  match fields with
  | [] => rfl
  | ⟨_, ty, _, _⟩ :: rest =>
    rw [ofConstants, List.flatMap_cons, effects_ofConstant span _ ty,
      effects_ofConstants span _ rest]
    rfl

end

mutual

/-- What is constant has no side effects. -/
theorem effects_of_constantValue? (e : Expr) (h : e.constantValue?.isSome = true) :
    e.effects = [] := by
  cases e with
  | literal | reference => rfl
  | convert head conversion operand =>
    rw [constantValue?] at h
    exact effects_of_constantValue? operand (Option.isSome_of_isSome_bind h)
  | swizzle head base components =>
    rw [constantValue?] at h
    exact effects_of_constantValue? base (Option.isSome_of_isSome_bind h)
  | field head base i =>
    rw [constantValue?] at h
    exact effects_of_constantValue? base (Option.isSome_of_isSome_bind h)
  | index head base i =>
    rw [constantValue?] at h
    obtain ⟨_, h⟩ := Option.isSome_iff_exists.1 h
    obtain ⟨values, hbase, h⟩ := Option.bind_eq_some_iff.1 h
    obtain ⟨n, hinteger, -⟩ := Option.bind_eq_some_iff.1 h
    obtain ⟨place, hi, -⟩ := Option.bind_eq_some_iff.1 hinteger
    rw [effects_index, effects_of_constantValue? base (Option.isSome_of_eq_some hbase),
      effects_of_constantValue? i (Option.isSome_of_eq_some hi)]
    rfl
  | prefixed head op operand =>
    cases op with
    | minus =>
      rw [constantValue?] at h
      rw [effects_prefixed, effects_of_constantValue? operand (Option.isSome_of_isSome_bind h)]
      rfl
    | _ => cases h
  | assemble head assembly parts =>
    rw [effects_assemble]
    exact effects_of_constantValues? parts h
  | _ => cases h

/-- What is constant part by part has no side effects. -/
theorem effects_of_constantValues? (es : List Expr) (h : (constantValues? es).isSome = true) :
    es.flatMap effects = [] := by
  match es with
  | [] => rfl
  | e :: rest =>
    rw [constantValues?] at h
    obtain ⟨_, h⟩ := Option.isSome_iff_exists.1 h
    obtain ⟨values, he, h⟩ := Option.bind_eq_some_iff.1 h
    obtain ⟨others, hrest, -⟩ := Option.bind_eq_some_iff.1 h
    rw [List.flatMap_cons, effects_of_constantValue? e (Option.isSome_of_eq_some he),
      effects_of_constantValues? rest (Option.isSome_of_eq_some hrest)]
    rfl

end

/-! ## Conversions -/

@[simp] theorem effects_castTo : (e.castTo ty).effects = e.effects := by
  unfold castTo
  split
  · rfl
  · split
    · rename_i values hvalues
      split_ifs at hvalues
      rw [effects_ofConstant, effects_of_constantValue? _ (Option.isSome_of_eq_some hvalues)]
    · rfl

@[simp] theorem effects_castUnlessSame : (e.castUnlessSame ty).effects = e.effects := by
  unfold castUnlessSame
  split
  · rfl
  · exact effects_castTo

@[simp] theorem effects_adaptLiteral (other : Ty) : (e.adaptLiteral other).effects = e.effects := by
  unfold adaptLiteral
  dsimp only
  split
  · rfl
  · exact effects_castTo

/-- Unless it has failed, the expression has the given side effects and no other, but for its own if
it acts by itself. -/
def Carries (acts : Bool) (l : List Expr) (e : Expr) : Prop :=
  e.isPoison = false → e.effects = (if acts then [e.withSpan default] else []) ++ l

namespace Carries

variable {acts : Bool} {l : List Expr}

theorem poison : Carries acts l (poison span) := nofun

theorem of_eq (h : e.effects = l) : Carries false l e := fun _ => h

theorem effects_eq (h : Carries false l e) (he : e.isPoison = false) : e.effects = l := h he

/-- Where there are no side effects to be carried, a failed expression has none either. -/
theorem effects_eq_nil (h : Carries false [] e) : e.effects = [] := by
  cases he : e.isPoison with
  | false => exact h he
  | true =>
    cases e with
    | poison => rfl
    | _ => cases he

end Carries

/-- Of a constant nothing is left but its values, which have no side effects. -/
theorem effects_folded (c : Bool) (span : Span) (ty : Ty) :
    (match if c then e.constantValue? else none with
      | some values => ofConstant span values ty
      | none => e).effects = e.effects := by
  split
  · rename_i values hvalues
    split_ifs at hvalues
    rw [effects_ofConstant, effects_of_constantValue? _ (Option.isSome_of_eq_some hvalues)]
  · rfl

theorem Carries.folded {l : List Expr} (h : Carries false l e) (c : Bool) (span : Span) (ty : Ty) :
    Carries false l (match if c then e.constantValue? else none with
      | some values => ofConstant span values ty
      | none => e) := by
  cases he : e.isPoison with
  | false => exact .of_eq ((effects_folded c span ty).trans (h he))
  | true =>
    cases e with
    | poison =>
      split
      · rename_i hvalues
        split_ifs at hvalues
        cases hvalues
      · exact .poison
    | _ => cases he

theorem coerce_carries (e : Expr) (ty : Ty) : (e.coerce ty).Always (Carries false e.effects) := by
  unfold coerce
  split
  · exact .pure (.of_eq rfl)
  split
  · exact .refuse .poison
  · exact .pure (.of_eq effects_castTo)

/-- Converted one by one, expressions keep their side effects. -/
theorem coerceAll_effects {es : List Expr} {tys : List Ty} (h : es.length = tys.length) :
    (coerceAll es tys).Always fun parts =>
      anyPoison parts = false → parts.flatMap effects = es.flatMap effects := by
  induction es generalizing tys with
  | nil =>
    obtain rfl := List.length_eq_zero_iff.1 h.symm
    exact .pure fun _ => rfl
  | cons e rest ih =>
    cases tys with
    | nil => cases h
    | cons ty tys =>
      refine .bind (coerce_carries e ty) fun first hfirst => ?_
      refine .bind (ih (by simpa using h)) fun others hothers => .pure fun hpoison => ?_
      obtain ⟨hfirstPoison, hothersPoison⟩ : first.isPoison = false ∧ anyPoison others = false := by
        simpa [anyPoison] using hpoison
      rw [List.flatMap_cons, List.flatMap_cons, hfirst.effects_eq hfirstPoison,
        hothers hothersPoison]

/-- Marking what is assigned keeps its side effects. -/
theorem markAssigned_effects (e : Expr) (kind : RefKind) :
    (e.markAssigned kind).Always fun marked => ∀ x ∈ marked, x.effects = e.effects := by
  refine .bind (p := fun _ => True) trivial fun assignable _ => ?_
  cases assignable with
  | false => exact .pure forall_mem_none
  | true => exact .pure (forall_mem_some (effects_withRefKind kind))

end Expr

namespace Typing

open RasterShader.Expr

variable {dialect : Dialect} {span : Span}

/-! ## Names, elements, fields and swizzles -/

theorem identifier_carries (span : Span) (name : String) (symbol : Option Symbol) :
    (identifier span name symbol).Always (Carries false []) := by
  unfold identifier
  split
  · exact .pure (.of_eq rfl)
  · split
    · exact .pure (.of_eq rfl)
    · exact .pure .poison
  · exact .refuse .poison
  · exact .refuse .poison
  · exact .refuse .poison

theorem element_carries (base i : Expr) (place : Span) :
    (element base i place).Always (Carries false (base.effects ++ i.effects)) := by
  unfold element
  dsimp only
  split
  · exact .pure .poison
  split
  · split
    · exact .pure .poison
    · exact .refuse .poison
  rename_i t _
  split
  on_goal 1 =>
    refine .bind (p := Carries false i.effects) (.pure (.of_eq rfl)) fun converted hi => ?_
  on_goal 2 => refine .bind (coerce_carries i .int) fun converted hi => ?_
  -- Whether the index is converted or not, the same is made of it.
  all_goals
    split
    · exact .pure .poison
    rename_i hpoison
    have hkept : Carries false (base.effects ++ i.effects)
        (.index ⟨base.span.join place, t⟩ base converted) :=
      .of_eq (by rw [effects_index, hi.effects_eq (by simpa using hpoison)])
    split
    · split
      · exact .refuse .poison
      · exact .pure hkept
    · exact .pure hkept

theorem select?_effects {components : List Nat} {base e : Expr}
    (h : select? span components base = some e) : e.effects = base.effects := by
  fun_induction select? span components base with
  | case1 components head inner innerComponents ih =>
    obtain ⟨t, -, h⟩ := Option.bind_eq_some_iff.1 h
    split_ifs at h
    · rw [← Option.some.inj h]
    · exact ih h
  | case2 components base =>
    obtain ⟨t, -, h⟩ := Option.bind_eq_some_iff.1 h
    split_ifs at h
    · rw [← Option.some.inj h]
    · rw [← Option.some.inj h]
      rfl

/-- What a selection gives, or a failure in its place. -/
theorem select?_getD_carries (components : List Nat) (base : Expr) :
    Carries false base.effects ((select? span components base).getD (.poison span)) := by
  cases h : select? span components base with
  | none => exact .poison
  | some e => exact .of_eq (select?_effects h)

theorem maskConstants_effects (span : Span) (scalar : Ty) (entries : List MaskEntry) :
    (maskConstants span scalar entries).flatMap effects = [] := by
  rw [List.flatMap_eq_nil_iff]
  intro e he
  obtain ⟨entry, -, hentry⟩ := List.mem_filterMap.1 he
  cases entry with
  | component => cases hentry
  | zero | one => exact Option.some.inj hentry ▸ effects_literal

/-- A single part is left as it is, others are put together. -/
theorem compound_effects (span : Span) (parts : List Expr) (ty : Ty) :
    (match parts with
      | [part] => part
      | parts => .assemble ⟨span, ty⟩ .compound parts).effects = parts.flatMap effects := by
  split
  · simp
  · exact effects_assemble

/-- The side effects of the parts of a swizzle with constants are those of what is selected. -/
theorem parts_effects (span : Span) (taken : List Expr) (entries : List MaskEntry)
    (ty scalar : Ty) :
    (match taken ++ maskConstants span scalar entries with
      | [part] => part
      | parts => .assemble ⟨span, ty⟩ .compound parts).effects = taken.flatMap effects := by
  have hparts := compound_effects span (taken ++ maskConstants span scalar entries) ty
  rwa [List.flatMap_append, maskConstants_effects, List.append_nil] at hparts

theorem selectWithConstants?_carries {base e : Expr} {entries : List MaskEntry}
    (h : selectWithConstants? dialect span base entries = some e) :
    Carries false base.effects e := by
  have harranged (compound : Expr) :=
    (@select?_getD_carries span
      (maskOrder 0 (entries.filterMap MaskEntry.component?).length entries)
      compound).folded dialect.settings.optimize span
  have hcomma (result : Expr) (hresult : result.effects = []) :
      Carries false base.effects (.binary ⟨span, result.ty⟩ base .comma result) :=
    .of_eq (by rw [effects_binary, hresult, List.append_nil]; rfl)
  have hbefore (result : Expr) (hresult : result.effects = []) (hbase : base.effects = []) :
      Carries false base.effects result := .of_eq (hresult.trans hbase.symm)
  unfold selectWithConstants? at h
  dsimp only at h
  split at h
  · -- Only constants: of the base nothing is left but its side effects.
    rename_i hnamed
    obtain ⟨taken, htaken, h⟩ := Option.bind_eq_some_iff.1 h
    obtain rfl := Option.some.inj htaken
    obtain ⟨ty, -, h⟩ := Option.bind_eq_some_iff.1 h
    rw [hnamed, Bool.true_and] at h
    by_cases hacts : base.hasSideEffects = true
    · rw [if_pos hacts] at h
      obtain rfl := Option.some.inj h
      exact hcomma _ ((parts_effects span [] entries _ _ ▸ harranged _ _).effects_eq_nil)
    · rw [if_neg hacts] at h
      obtain rfl := Option.some.inj h
      exact hbefore _ ((parts_effects span [] entries _ _ ▸ harranged _ _).effects_eq_nil)
        (not_not.1 (mt hasSideEffects_iff.2 hacts))
  · rename_i hnamed
    obtain ⟨taken, htaken, h⟩ := Option.bind_eq_some_iff.1 h
    obtain ⟨x, hx, rfl⟩ := Option.map_eq_some_iff.1 htaken
    obtain ⟨ty, -, h⟩ := Option.bind_eq_some_iff.1 h
    rw [if_neg (by simp [hnamed])] at h
    obtain rfl := Option.some.inj h
    have hparts := parts_effects span [x] entries ty base.ty.component
    rw [List.flatMap_singleton, select?_effects hx] at hparts
    exact hparts ▸ harranged _ _

theorem swizzle_carries (base : Expr) (mask : String) (span : Span) :
    (swizzle dialect base mask span).Always (Carries false base.effects) := by
  unfold swizzle
  split
  · exact .refuse .poison
  split
  · exact .refuse .poison
  dsimp only
  split_ifs
  · exact .refuse .poison
  · exact .pure (select?_getD_carries _ base)
  · refine .pure ?_
    cases h : selectWithConstants? dialect span base _ with
    | none => exact .poison
    | some e => exact selectWithConstants?_carries h

theorem member_carries (base : Expr) (name : String) (place : Span) :
    (member dialect base name place).Always (Carries false base.effects) := by
  unfold member
  dsimp only
  split
  · exact .pure (.of_eq rfl)
  split
  · split
    · split
      · exact .pure (.of_eq rfl)
      · exact .refuse .poison
    · exact .refuse .poison
  · split
    · exact swizzle_carries base _ _
    · exact .refuse .poison

/-! ## Operations -/

/-- A left operand that is constant decides the connective, so that the right one is not reached. -/
def skipsRight (op : Operator) (left : Expr) : Bool :=
  match op, left.constantBool? with
  | .logicalAnd, some false | .logicalOr, some true => true
  | _, _ => false

theorem effects_of_constantBool? {e : Expr} {value : Bool} (h : e.constantBool? = some value) :
    e.effects = [] := by
  unfold constantBool? at h
  split_ifs at h
  obtain ⟨v, hv, -⟩ := Option.map_eq_some_iff.1 h
  cases e with
  | literal => rfl
  | _ => cases hv

/-- The side effects of the operands that are reached. -/
def reachedEffects (dialect : Dialect) (left : Expr) (op : Operator) (right : Expr) : List Expr :=
  if dialect.settings.optimize && skipsRight op left then left.effects
  else left.effects ++ right.effects

theorem shortCircuit?_of_skipsRight {left : Expr} {op : Operator} (h : skipsRight op left = true)
    (right : Expr) : shortCircuit? left op right = some left := by
  unfold skipsRight at h
  split at h
  · rename_i hleft
    simp [shortCircuit?, hleft]
  · rename_i hleft
    simp [shortCircuit?, hleft]
  · cases h

/-- What remains of a connective that a constant decides. -/
theorem shortCircuit?_effects {left right e : Expr} {op : Operator}
    (h : shortCircuit? left op right = some e) :
    op.isAssignment = false ∧
      e.effects = if skipsRight op left then left.effects else left.effects ++ right.effects := by
  unfold shortCircuit? at h
  split at h
  case h_1 hleft | h_2 hleft =>
    cases h
    exact ⟨rfl, by simp [skipsRight, hleft, effects_of_constantBool? hleft]⟩
  case h_3 hleft | h_4 hleft =>
    cases h
    exact ⟨rfl, by simp [skipsRight, hleft]⟩
  · cases h

theorem combine_carries (left right : Expr) (op : Operator) (result : Ty) :
    (combine dialect span left op right result).Always
      (Carries op.isAssignment (reachedEffects dialect left op right)) := by
  unfold combine
  split
  · rename_i e hcircuit
    split_ifs at hcircuit with hoptimize
    obtain ⟨hop, heffects⟩ := shortCircuit?_effects hcircuit
    rw [hop, reachedEffects, hoptimize, Bool.true_and]
    exact .pure (.of_eq heffects)
  rename_i hcircuit
  split
  · exact .refuse .poison
  rename_i folded hfolded
  split
  · rename_i e he
    split_ifs at he
    obtain rfl := he
    obtain ⟨hop, ⟨hleft, hright⟩, hvalue⟩ := Constant.foldBinary_eq_some hfolded
    have hnone : e.effects = [] := by
      obtain ⟨value, rfl⟩ | ⟨-, values, rfl⟩ := hvalue
      · rfl
      · exact effects_ofConstant _ _ _
    rw [hop, reachedEffects, effects_of_constantValue? left hleft,
      effects_of_constantValue? right hright]
    exact .pure (.of_eq (by simpa using hnone))
  · have hreached : (dialect.settings.optimize && skipsRight op left) = false := by
      by_contra hskips
      obtain ⟨hoptimize, hskips⟩ := Bool.and_eq_true_iff.1 (by simpa using hskips)
      rw [if_pos hoptimize, shortCircuit?_of_skipsRight hskips] at hcircuit
      cases hcircuit
    rw [reachedEffects, hreached]
    exact .pure fun _ => effects_binary

/-- Literals do not take on the type of booleans. -/
theorem not_same_bool_of_adaptsTo {e : Expr} {s : Scalar} (h : e.adaptsTo (.scalar s) = true) :
    (Ty.scalar s).same .bool = false := by
  have hnumber : (Ty.scalar s).isNumber = true := by
    simp only [adaptsTo, Bool.and_eq_true, Bool.or_eq_true] at h
    obtain ⟨-, ⟨-, hnumber⟩ | ⟨-, hfloat⟩⟩ := h
    · exact hnumber
    · simp [Ty.isNumber, hfloat]
  cases s <;> first | rfl | cases hnumber

/-- What is a boolean after literals are adapted has not been adapted: that gives numbers. -/
theorem adaptLiteral_of_same_bool {e : Expr} {other : Ty}
    (h : (e.adaptLiteral other).ty.same .bool = true) : e.adaptLiteral other = e := by
  unfold adaptLiteral at h ⊢
  dsimp only at h ⊢
  split
  · rfl
  rename_i hkept
  rw [if_neg hkept] at h
  simp only [Bool.or_eq_true, Bool.not_eq_true', not_or, Bool.not_eq_false] at hkept
  obtain ⟨⟨hscalar, -⟩, hadapts⟩ := hkept
  obtain ⟨s, hs⟩ := OperandTypes.scalar_of_isScalar hscalar
  rw [hs] at hadapts h
  cases e with
  | literal head v => cases (not_same_bool_of_adaptsTo hadapts).symm.trans h
  | _ => simp [adaptsTo, isLiteral, literalValue?] at hadapts

theorem skipsRight_eq_false {op : Operator} (h : ¬ (op = .logicalAnd ∨ op = .logicalOr))
    (left : Expr) : skipsRight op left = false := by
  unfold skipsRight
  split <;> simp_all

/-- The left operand of a connective is decided by what it is before it is converted. -/
theorem skipsRight_coerce {left : Expr} {op : Operator} {other right : Ty} {types : OperandTypes}
    (h : OperandTypes.ofOperation op.removeAssignment (left.adaptLiteral other).ty right =
      some types) :
    skipsRight op ((left.adaptLiteral other).coerce types.left).value = skipsRight op left := by
  by_cases hop : op = .logicalAnd ∨ op = .logicalOr
  · have hbool : (left.adaptLiteral other).ty.same .bool = true ∧ types.left = .bool := by
      obtain rfl | rfl := hop
      all_goals
        simp only [Operator.removeAssignment, OperandTypes.ofOperation] at h
        split_ifs at h with hboth
        exact ⟨(Bool.and_eq_true_iff.1 hboth).1, by rw [← Option.some.inj h]⟩
    rw [hbool.2, coerce, if_pos (by simp [hbool.1]), Checked.value_pure,
      adaptLiteral_of_same_bool hbool.1]
  · rw [skipsRight_eq_false hop, skipsRight_eq_false hop]

theorem operation_carries (left right : Expr) (op : Operator) :
    (operation dialect span left op right).Always
      (Carries op.isAssignment (reachedEffects dialect left op right)) := by
  unfold operation
  dsimp only
  have hright : (right.adaptLiteral left.ty).effects = right.effects := effects_adaptLiteral _
  generalize right.adaptLiteral left.ty = adapted at hright ⊢
  have hcombine (result : Ty) (x y : Expr) (hx : Carries false left.effects x)
      (hy : Carries false right.effects y) (hskips : skipsRight op x = skipsRight op left) :
      Checked.Always (if x.isPoison || y.isPoison then pure (.poison span)
        else combine dialect span x op y result)
      (Carries op.isAssignment (reachedEffects dialect left op right)) := by
    split
    · exact .pure .poison
    · rename_i hpoison
      simp only [Bool.or_eq_true, not_or, Bool.not_eq_true] at hpoison
      rw [reachedEffects, ← hx.effects_eq hpoison.1, ← hy.effects_eq hpoison.2, ← hskips]
      exact combine_carries x y op result
  by_cases hassigned : op.isAssignment = true
  · simp only [if_pos hassigned]
    split
    · exact .refuse .poison
    split
    · exact .refuse .poison
    refine .bind (p := (· = left)) (.pure rfl) ?_
    rintro _ rfl
    refine .bind (coerce_carries adapted _) fun y hy => ?_
    exact hcombine _ _ y (.of_eq rfl) (hright ▸ hy) rfl
  · simp only [if_neg hassigned]
    split
    · exact .refuse .poison
    rename_i types htypes
    split
    · exact .refuse .poison
    refine .bind (p := fun x => Carries false left.effects x ∧ skipsRight op x = skipsRight op left)
      ⟨?_, skipsRight_coerce htypes⟩ fun x hx => ?_
    · have hleft := coerce_carries (left.adaptLiteral adapted.ty) types.left
      rwa [effects_adaptLiteral] at hleft
    · refine .bind (coerce_carries adapted types.right) fun y hy => ?_
      exact hcombine _ x y hx.1 (hright ▸ hy) hx.2

theorem binary_carries (left right : Expr) (op : Operator) :
    (binary dialect left op right).Always
      (Carries op.isAssignment (reachedEffects dialect left op right)) := by
  unfold binary
  dsimp only
  split
  · exact .pure .poison
  split
  · rename_i hassigned
    have hop : ¬ (op = .logicalAnd ∨ op = .logicalOr) := by
      rintro (rfl | rfl) <;> cases hassigned
    refine .bind (markAssigned_effects left _) fun marked hmarked => ?_
    cases marked with
    | none => exact .pure .poison
    | some x =>
      have hreached : reachedEffects dialect x op right = reachedEffects dialect left op right := by
        simp [reachedEffects, skipsRight_eq_false hop, hmarked x rfl]
      exact hreached ▸ operation_carries x right op
  · exact operation_carries left right op

theorem prefixOperation_carries (place : Span) (op : Operator) (operand : Expr) :
    (prefixOperation dialect place op operand).Always (Carries (isStep op) operand.effects) := by
  unfold prefixOperation
  dsimp only
  split
  · rename_i hpoison
    exact .pure fun h => absurd hpoison (by simp [h])
  split
  · exact .refuse .poison
  split
  case h_1 => exact .pure (.of_eq rfl)
  case h_2 | h_3 =>
    refine .bind (markAssigned_effects operand _) fun marked hmarked => ?_
    cases marked with
    | none => exact .pure .poison
    | some x =>
      refine .pure fun _ => ?_
      rw [effects_prefixed, hmarked x rfl]
      rfl
  case h_4 _ _ hincrement hdecrement =>
    have hstep : isStep op = false := by cases op <;> first | rfl | exact absurd rfl ‹_›
    rw [hstep]
    split
    · rename_i e he
      split_ifs at he
      obtain ⟨hconstant, values, rfl⟩ := Constant.foldPrefix?_eq_some he
      exact .pure (.of_eq (by
        rw [effects_ofConstant, effects_of_constantValue? operand hconstant]))
    · refine .pure (.of_eq ?_)
      rw [effects_prefixed, ownEffects, isEffect, hstep]
      rfl

theorem postfixOperation_carries (operand : Expr) (op : Operator) (place : Span) :
    (postfixOperation operand op place).Always (Carries true operand.effects) := by
  unfold postfixOperation
  dsimp only
  split
  · rename_i hpoison
    exact .pure fun h => absurd hpoison (by simp [h])
  split
  · exact .refuse .poison
  refine .bind (markAssigned_effects operand _) fun marked hmarked => ?_
  cases marked with
  | none => exact .pure .poison
  | some x =>
    refine .pure fun _ => ?_
    rw [effects_postfixed, hmarked x rfl]
    rfl

/-- A conversion that has a cost does not fail. -/
theorem isPoison_coerce {e : Expr} {ty : Ty} (he : e.isPoison = false)
    (h : e.ty.same ty = true ∨ ty.isShaped = true ∧ (e.ty.coercionCost ty).isSome = true) :
    (e.coerce ty).value.isPoison = false := by
  unfold coerce
  split
  · exact he
  rename_i hcast
  simp only [Bool.or_eq_true, not_or] at hcast
  obtain hsame | ⟨hshaped, hcost⟩ := h
  · exact absurd hsame hcast.2
  have hsome : (e.coercionCost ty).isSome = true := by
    unfold Expr.coercionCost
    rw [if_neg hcast.2]
    split
    · rfl
    · exact hcost
  rw [if_neg (by simp [Option.isSome_iff_ne_none.1 hsome])]
  exact (ty_castTo he hshaped).2

/-- A literal that adapts is a scalar, and anything else stays as it is. -/
theorem hasRows_adaptLiteral {e : Expr} (h : e.ty.hasRows = true) (other : Ty) :
    (e.adaptLiteral other).ty.hasRows = true := by
  unfold adaptLiteral
  dsimp only
  split
  · exact h
  · rename_i hadapts
    simp only [Bool.or_eq_true, not_or] at hadapts
    have hscalar : other.component.isScalar = true := by simpa using hadapts.1.1
    obtain ⟨s, hs⟩ := OperandTypes.scalar_of_isScalar hscalar
    rw [hs] at hadapts ⊢
    cases e with
    | literal => rfl
    | _ => simp [adaptsTo, isLiteral, literalValue?] at hadapts

theorem isPoison_adaptLiteral {e : Expr} (h : e.isPoison = false) (other : Ty) :
    (e.adaptLiteral other).isPoison = false := by
  unfold adaptLiteral
  dsimp only
  split
  · exact h
  · rename_i hadapts
    cases e with
    | literal => rfl
    | _ => simp [adaptsTo, isLiteral, literalValue?] at hadapts

/-- The side effects of a test and of the choices that it leaves. -/
def chosenEffects (dialect : Dialect) (test ifTrue ifFalse : Expr) : List Expr :=
  match if dialect.settings.optimize then (test.coerce .bool).value.constantBool? else none with
  | some true => test.effects ++ ifTrue.effects
  | some false => test.effects ++ ifFalse.effects
  | none => test.effects ++ ifTrue.effects ++ ifFalse.effects

theorem ternary_carries {test ifTrue ifFalse : Expr} (hrows : ifTrue.ty.hasRows = true)
    (place : Span) :
    (ternary dialect test ifTrue ifFalse place).Always
      (Carries false (chosenEffects dialect test ifTrue ifFalse)) := by
  unfold ternary
  dsimp only
  refine .bind (p := fun x => Carries false test.effects x ∧ x = (test.coerce .bool).value)
    ⟨coerce_carries test .bool, rfl⟩ fun converted hconverted => ?_
  obtain ⟨htest, hconverted⟩ := hconverted
  split
  · exact .pure .poison
  rename_i hpoison
  simp only [Bool.or_eq_true, not_or, Bool.not_eq_true] at hpoison
  obtain ⟨⟨htestPoison, htruePoison⟩, hfalsePoison⟩ := hpoison
  have hfalseEffects : (ifFalse.adaptLiteral ifTrue.ty).effects = ifFalse.effects :=
    effects_adaptLiteral _
  replace hfalsePoison := isPoison_adaptLiteral hfalsePoison ifTrue.ty
  generalize ifFalse.adaptLiteral ifTrue.ty = second at hfalseEffects hfalsePoison ⊢
  have htrueEffects : (ifTrue.adaptLiteral second.ty).effects = ifTrue.effects :=
    effects_adaptLiteral _
  replace htruePoison := isPoison_adaptLiteral htruePoison second.ty
  replace hrows := hasRows_adaptLiteral hrows second.ty
  generalize ifTrue.adaptLiteral second.ty = first at htrueEffects htruePoison hrows ⊢
  split
  · exact .refuse .poison
  rename_i types htypes
  split
  · exact .refuse .poison
  split
  · exact .refuse .poison
  -- Both choices convert to the types of a comparison, so that neither fails and is lost.
  have hfirst : (first.coerce types.left).Always (·.effects = ifTrue.effects) := by
    refine (coerce_carries first types.left (isPoison_coerce htruePoison ?_)).trans htrueEffects
    obtain ⟨hsame, -⟩ | ⟨-, hshaped, hcost, -⟩ := OperandTypes.equality_converts hrows htypes
    · exact .inl hsame
    · exact .inr ⟨hshaped, hcost⟩
  have hsecond : (second.coerce types.right).Always (·.effects = ifFalse.effects) := by
    refine (coerce_carries second types.right (isPoison_coerce hfalsePoison ?_)).trans hfalseEffects
    obtain ⟨-, hsame⟩ | ⟨hright, hshaped, -, hcost⟩ := OperandTypes.equality_converts hrows htypes
    · exact .inl hsame
    · exact .inr (hright ▸ ⟨hshaped, hcost⟩)
  refine .bind hfirst fun x hx => ?_
  refine .bind hsecond fun y hy => ?_
  have hconstant {value : Bool} (h : (if dialect.settings.optimize then converted.constantBool?
      else none) = some value) : test.effects = [] := by
    split_ifs at h
    rw [← htest.effects_eq htestPoison, effects_of_constantBool? h]
  split
  case h_1 h =>
    exact .pure (.of_eq (by rw [chosenEffects, ← hconverted, h, hx, hconstant h]; rfl))
  case h_2 h =>
    exact .pure (.of_eq (by rw [chosenEffects, ← hconverted, h, hy, hconstant h]; rfl))
  case h_3 h =>
    refine .pure (.of_eq ?_)
    rw [chosenEffects, ← hconverted, h, effects_ternary, htest.effects_eq htestPoison, hx, hy]

/-! ## Constructors -/

variable {ty : Ty} {arguments : List Expr}

theorem foldConstructor_effects (e : Expr) : (foldConstructor dialect e).effects = e.effects :=
  effects_folded dialect.settings.optimize e.span e.ty

theorem constructArray_carries (span : Span) (ty : Ty) (arguments : List Expr) :
    (constructArray dialect span ty arguments).Always
      (Carries false (arguments.flatMap effects)) := by
  unfold constructArray
  split
  · exact .refuse .poison
  split
  · exact .refuse .poison
  refine .bind (coerceAll_effects (List.length_replicate ..).symm) fun parts hparts => ?_
  split
  · exact .pure .poison
  · rename_i hpoison
    refine .pure (.of_eq ?_)
    rw [foldConstructor_effects, effects_assemble, hparts (by simpa using hpoison)]

theorem constructStruct_carries (span : Span) (ty : Ty) (arguments : List Expr) :
    (constructStruct dialect span ty arguments).Always
      (Carries false (arguments.flatMap effects)) := by
  unfold constructStruct
  dsimp only
  split
  · exact .refuse .poison
  rename_i hcount
  have hlength : arguments.length = (ty.fields.map FieldOf.ty).length := by
    rw [List.length_map]
    exact (by simpa using hcount : ty.fields.length = arguments.length).symm
  refine .bind (coerceAll_effects hlength) fun parts hparts => ?_
  split
  · exact .pure .poison
  · rename_i hpoison
    refine .pure (.of_eq ?_)
    rw [foldConstructor_effects, effects_assemble, hparts (by simpa using hpoison)]

theorem constructSingle?_effects {argument e : Expr}
    (h : constructSingle? dialect span ty argument = some e) : e.effects = argument.effects := by
  have hcast : ((argument.castUnlessSame ty).withSpan span).effects = argument.effects := by simp
  have hconvert (conversion : Conversion) (t : Ty) :
      (foldConstructor dialect (.convert ⟨span, ty⟩ conversion
        (argument.castUnlessSame t))).effects = argument.effects := by
    rw [foldConstructor_effects, effects_convert, effects_castUnlessSame]
  unfold constructSingle? at h
  dsimp only at h
  split_ifs at h
  · exact Option.some.inj h ▸ hcast
  · exact Option.some.inj h ▸ hconvert _ _
  · exact Option.some.inj h ▸ hconvert _ _
  · exact Option.some.inj h ▸ hcast
  · obtain ⟨t, -, h⟩ := Option.bind_eq_some_iff.1 h
    exact Option.some.inj h ▸ hconvert _ _

theorem compoundParts_effects (ty : Ty) (parts : List Expr) :
    (compoundParts ty parts).Always fun converted =>
      ∀ es ∈ converted, es.flatMap effects = parts.flatMap effects := by
  induction parts with
  | nil => exact .pure (forall_mem_some rfl)
  | cons part rest ih =>
    unfold compoundParts
    split
    · exact .refuse forall_mem_none
    split
    · exact .pure forall_mem_none
    · rename_i target htarget
      refine .bind ih fun others hothers => .pure fun es hes => ?_
      obtain ⟨rest, hrest, rfl⟩ := Option.map_eq_some_iff.1 hes
      rw [List.flatMap_cons, List.flatMap_cons, effects_castUnlessSame, hothers rest hrest]

theorem constructCompound_carries (span : Span) (ty : Ty) (arguments : List Expr) :
    (constructCompound dialect span ty arguments).Always
      (Carries false (arguments.flatMap effects)) := by
  refine .bind (compoundParts_effects ty arguments) fun converted hconverted => ?_
  cases converted with
  | none => exact .pure .poison
  | some parts =>
    dsimp only
    split
    · exact .refuse .poison
    · refine .pure (.of_eq ?_)
      rw [foldConstructor_effects, effects_assemble, hconverted parts rfl]

theorem construct_carries (span : Span) (ty : Ty) (arguments : List Expr) :
    (construct dialect span ty arguments).Always (Carries false (arguments.flatMap effects)) := by
  unfold construct
  split
  · exact .pure .poison
  split
  · exact constructArray_carries span ty arguments
  split
  · exact constructStruct_carries span ty arguments
  split
  · split
    · exact .refuse .poison
    · split
      · rename_i e he
        exact .pure (.of_eq (by simp [constructSingle?_effects he]))
      · exact constructCompound_carries span ty _
    · exact constructCompound_carries span ty _
  · exact .refuse .poison

/-! ## Calls -/

theorem passArgument_effects (parameter : Variable) (ty : Ty) (argument : Expr) :
    (passArgument parameter ty argument).Always fun passed =>
      ∀ e ∈ passed, e.effects = argument.effects := by
  unfold passArgument
  split
  · split
    · exact .refuse forall_mem_none
    · exact markAssigned_effects argument .pointer
  · refine .bind (coerce_carries argument ty) fun converted hconverted => ?_
    split
    · exact .pure forall_mem_none
    · rename_i hpoison
      exact .pure (forall_mem_some (hconverted (by simpa using hpoison)))

theorem passArguments_effects (triples : List ((Variable × Ty) × Expr)) :
    (passArguments triples).Always fun passed =>
      ∀ es ∈ passed, es.flatMap effects = (triples.map (·.2)).flatMap effects := by
  induction triples with
  | nil => exact .pure (forall_mem_some rfl)
  | cons first rest ih =>
    obtain ⟨⟨parameter, ty⟩, argument⟩ := first
    refine .bind (passArgument_effects parameter ty argument) fun passed hpassed => ?_
    cases passed with
    | none => exact .pure forall_mem_none
    | some e =>
      refine .bind ih fun others hothers => .pure fun es hes => ?_
      obtain ⟨others, hrest, rfl⟩ := Option.map_eq_some_iff.1 hes
      rw [List.flatMap_cons, List.map_cons, List.flatMap_cons, hpassed e rfl, hothers others hrest]

/-- A call has the side effects of all arguments and, unless the function is pure, its own. -/
theorem callFunction_carries (span : Span) (f : FunctionDecl) (arguments : List Expr) :
    (callFunction span f arguments).Always fun e =>
      Carries e.isEffect (arguments.flatMap effects) e := by
  unfold callFunction
  split
  · exact .refuse .poison
  rename_i hlength
  split
  · exact .refuse .poison
  split
  · exact .refuse .poison
  rename_i signature hsignature
  have harguments : ((f.parameters.zip signature.parameters).zip arguments).map (·.2) =
      arguments := by
    have hcount := length_resolveSignature? hsignature
    rw [List.length_zip] at hcount
    have hlength : f.parameters.length = arguments.length := by simpa using hlength
    exact List.map_snd_zip (by rw [List.length_zip]; omega)
  refine .bind (passArguments_effects _) fun passed hpassed => ?_
  cases passed with
  | none => exact .pure .poison
  | some es =>
    rw [harguments] at hpassed
    refine .pure fun _ => ?_
    rw [effects_call, hpassed es rfl]
    rfl

theorem call_carries (span : Span) (overloads : List FunctionDecl) (arguments : List Expr) :
    (call span overloads arguments).Always fun e =>
      Carries e.isEffect (arguments.flatMap effects) e := by
  unfold call
  split
  · exact .pure .poison
  split
  · exact callFunction_carries span _ arguments
  · split
    · exact callFunction_carries span _ arguments
    · exact .refuse .poison

theorem callMethod_carries (span : Span) (base : Expr) (name : String) (arguments : List Expr) :
    (callMethod span base name arguments).Always (Carries false (arguments.flatMap effects)) := by
  unfold callMethod
  dsimp only
  split
  · exact .pure .poison
  split
  · unfold callChild
    dsimp only
    split
    · split
      · exact .refuse .poison
      rename_i hcount
      rw [bne_iff_ne, not_not] at hcount
      refine .bind (coerceAll_effects hcount.symm) fun parts hparts => ?_
      split
      · exact .pure .poison
      · rename_i hpoison
        exact .pure (.of_eq (by rw [effects_childCall, hparts (by simpa using hpoison)]))
    · exact .refuse .poison
  · split
    · rename_i harguments
      rw [List.isEmpty_iff.1 harguments]
      exact .pure (.of_eq rfl)
    · exact .refuse .poison
  · exact .refuse .poison

/-! ## Every check -/

namespace Check

/-- The expression that a check gives is itself a side effect. -/
def acts (result : Expr) : Check → Bool
  | binary _ op _ => op.isAssignment
  | prefixed _ op _ => isStep op
  | postfixed .. => true
  | call .. => result.isEffect
  | _ => false

/-- The side effects that are left of the operands.  Those are lost of what a constant boolean
decides against; and the method of a value does not evaluate it. -/
def keptEffects (dialect : Dialect) : Check → List Expr
  | binary left op right => reachedEffects dialect left op right
  | ternary test ifTrue ifFalse _ => chosenEffects dialect test ifTrue ifFalse
  | method _ _ _ arguments => arguments.flatMap effects
  | c => c.operands.flatMap effects

/-- An expression has the side effects of the operands that it was made from, in their order and
each of them once, and itself if it is one. -/
theorem effects_run (dialect : Dialect) (c : Check)
    (hrows : ∀ e ∈ c.operands, e.ty.hasRows = true)
    (hresult : (c.run dialect).value.isPoison = false) :
    (c.run dialect).value.effects =
      (if c.acts (c.run dialect).value then [(c.run dialect).value.withSpan default] else []) ++
        c.keptEffects dialect := by
  refine (show (c.run dialect).Always fun e =>
    Carries (c.acts e) (c.keptEffects dialect) e from ?_) hresult
  cases c with
  | identifier span name symbol => exact identifier_carries span name symbol
  | element base i place =>
    simpa [run, acts, keptEffects, operands] using element_carries base i place
  | member base name place =>
    simpa [run, acts, keptEffects, operands] using member_carries base name place
  | digits base mask span =>
    simpa [run, acts, keptEffects, operands] using swizzle_carries base mask span
  | binary left op right => exact binary_carries left right op
  | prefixed place op operand =>
    simpa [run, acts, keptEffects, operands] using prefixOperation_carries place op operand
  | postfixed operand op place =>
    simpa [run, acts, keptEffects, operands] using postfixOperation_carries operand op place
  | ternary test ifTrue ifFalse place =>
    exact ternary_carries (hrows ifTrue (by simp [operands])) place
  | construct span ty arguments => exact construct_carries span ty arguments
  | call span overloads arguments => exact call_carries span overloads arguments
  | method span base name arguments => exact callMethod_carries span base name arguments

/-- The mask `(v++).y0` keeps the increment, once. -/
theorem effects_run_mask :
    let increment := Expr.postfixed ⟨default, .float2⟩ .plusPlus (localValue "v" .float2)
    let c : Check := .digits increment "y0" default
    (∀ e ∈ c.operands, e.ty.hasRows = true) ∧
      (c.run ⟨.fragment, .standard⟩).value.isPoison = false ∧
      (c.run ⟨.fragment, .standard⟩).value.effects = [increment] := by
  intro increment c
  have hrows : ∀ e ∈ c.operands, e.ty.hasRows = true := by
    simp only [c, operands, List.mem_singleton, forall_eq]
    rfl
  have hresult : (c.run ⟨.fragment, .standard⟩).value.isPoison = false := by rfl
  exact ⟨hrows, hresult, effects_run ⟨.fragment, .standard⟩ c hrows hresult⟩

end Check

end Typing

end RasterShader
