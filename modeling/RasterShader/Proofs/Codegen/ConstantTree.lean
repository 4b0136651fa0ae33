import Mathlib
import RasterShader.Proofs.Codegen.Casts
import RasterShader.Proofs.Codegen.Declarations
import RasterShader.Proofs.Codegen.Program
import RasterShader.Proofs.Constant.Layout

/-!
# Constants at compile time and at run time

A constant tree is an expression of literals and constant variables, constructors, selections and
negation (`Expr.ConstantTree`).  It has a value at compile time, and its code leaves the words of
that value on the stack in all lanes (`Expr.ConstantTree.leaves_constantBits`).

Both are established together for each sort of expression, along with the place of the value, from
which parts are selected (`Expr.Evaluates`).

Variables with the layout of the device coordinates are left out.  They may be constant, but their
code always pushes the coordinates (`coordinatesShader_ignores_constant`).
-/

namespace RasterShader

open Gen Builder

/-- Expressions that are built from literals and declared constants by constructors, selections and
negation.  Types of one name have one layout, so that the rules compare the layouts of types where
type checking compares names. -/
inductive Expr.ConstantTree (declared : Constants) : Expr → Prop
  | literal {h : Expr.Head} {s : Scalar} {value : Float} (type : h.ty = .scalar s)
    (holds : s.kind.Holds value) : ConstantTree declared (.literal h value)
  /-- A variable with an initializer is neither uniform nor an effect. -/
  | reference {h : Expr.Head} {v : Variable} {init : Expr} {ref : RefKind}
    (const : v.isConst = true) (run : declared v.id = some init)
    (tree : ConstantTree declared init) (layout : h.ty.slotKinds = init.ty.slotKinds)
    (effect : v.ty.isEffect = false) (uniform : v.isUniform = false)
    (coords : isFragCoord v = false) : ConstantTree declared (.reference h v (some init) ref)
  /-- To another precision of the same kind. -/
  | cast {h : Expr.Head} {x : Expr} (tree : ConstantTree declared x)
    (source : x.ty.isShaped = true) (target : h.ty.isShaped = true)
    (kind : h.ty.numberKind = x.ty.numberKind) (slots : h.ty.slotCount = x.ty.slotCount) :
    ConstantTree declared (.convert h .cast x)
  | splat {h : Expr.Head} {x : Expr} (tree : ConstantTree declared x)
    (source : x.ty.isScalar = true) (target : h.ty.isShaped = true)
    (kind : h.ty.numberKind = x.ty.numberKind) (slots : 0 < h.ty.slotCount) :
    ConstantTree declared (.convert h .splat x)
  | diagonal {h : Expr.Head} {x : Expr} (tree : ConstantTree declared x)
    (source : x.ty.isScalar = true) (float : x.ty.numberKind = .float)
    (target : h.ty.isMatrix = true) (kind : h.ty.numberKind = .float) :
    ConstantTree declared (.convert h .diagonal x)
  | resize {h : Expr.Head} {x : Expr} (tree : ConstantTree declared x)
    (source : x.ty.isMatrix = true) (float : x.ty.numberKind = .float)
    (target : h.ty.isMatrix = true) (kind : h.ty.numberKind = .float) :
    ConstantTree declared (.convert h .resize x)
  | assemble {h : Expr.Head} {assembly : Assembly} {parts : List Expr}
    (trees : ∀ e ∈ parts, ConstantTree declared e)
    (layout : h.ty.slotKinds = parts.flatMap fun e => e.ty.slotKinds) :
    ConstantTree declared (.assemble h assembly parts)
  | field {h : Expr.Head} {base : Expr} {i : Nat} {f : Field} (tree : ConstantTree declared base)
    (member : base.ty.fields[i]? = some f) (layout : h.ty.slotKinds = f.ty.slotKinds) :
    ConstantTree declared (.field h base i)
  | index {h : Expr.Head} {base i : Expr} {element : Ty} {count n : Nat}
    (tree : ConstantTree declared base) (type : Typing.elementType? base.ty = some element)
    (size : Typing.elementCount? base.ty = some count) (constant : i.constantInt? = some (n : Int))
    (inside : n < count) (layout : h.ty.slotKinds = element.slotKinds) :
    ConstantTree declared (.index h base i)
  | swizzle {h : Expr.Head} {base : Expr} {components : List Nat}
    (tree : ConstantTree declared base) (source : base.ty.isShaped = true)
    (short : base.ty.slotCount ≤ 4) (few : components.length ≤ 4)
    (inside : ∀ c ∈ components, c < base.ty.slotCount) (target : h.ty.isShaped = true)
    (kind : h.ty.numberKind = base.ty.numberKind) (slots : h.ty.slotCount = components.length) :
    ConstantTree declared (.swizzle h base components)
  | negate {h : Expr.Head} {x : Expr} (tree : ConstantTree declared x)
    (source : x.ty.isShaped = true)
    (number : x.ty.numberKind = .float ∨ x.ty.numberKind.IsInteger)
    (target : h.ty.isShaped = true) (kind : h.ty.numberKind = x.ty.numberKind)
    (slots : h.ty.slotCount = x.ty.slotCount) : ConstantTree declared (.prefixed h .minus x)

/-- An expression has the values at compile time, and its code leaves their words on the stack and
locates them. -/
structure Expr.Evaluates (declared : Constants) (ctx : CodeContext) (e : Expr)
    (values : List Float) : Prop where
  value : e.constantValue? = some values
  stored : Stored e.ty.slotKinds values
  push : Leaves declared (e.operand ctx).push (constantBits e.ty values)
  place : Locates declared (e.operand ctx).place (constantBits e.ty values)

/-- The code of a negation negates every word. -/
theorem Operand.replaces_negate {ty : Ty}
    (number : ty.numberKind = .float ∨ ty.numberKind.IsInteger) {ws : List UInt32} {n : Nat}
    (hn : ws.length = n) : Replaces (negate ty n) ws (ws.map (negatedWord ty.numberKind)) := by
  obtain hkind | hkind | hkind := number
  · refine Replaces.lift_bind (a := .float) (by rw [NumType.ofTy, hkind]; rfl) ?_
    rw [hkind]
    exact replaces_binary_constant .bitwiseXor .int Word.signBit hn
  · refine Replaces.lift_bind (a := .int) (by rw [NumType.ofTy, hkind]; rfl) ?_
    rw [hkind]
    exact replaces_binary_constant .mul .int Word.allOnes hn
  · refine Replaces.lift_bind (a := .uint) (by rw [NumType.ofTy, hkind]; rfl) ?_
    rw [hkind]
    exact replaces_binary_constant .mul .uint Word.allOnes hn

namespace Expr.Evaluates

variable {declared : Constants} {ctx : CodeContext} {h : Expr.Head} {e x base : Expr}
  {values : List Float}

theorem length_eq (hx : x.Evaluates declared ctx values) : values.length = x.ty.slotCount := by
  rw [hx.stored.length_eq, Ty.length_slotKinds]

theorem length_constantBits (hx : x.Evaluates declared ctx values) :
    (constantBits x.ty values).length = x.ty.slotCount :=
  RasterShader.length_constantBits hx.length_eq

/-! ## Sorts of code -/

theorem of_push {push : GenM Unit} (hoperand : e.operand ctx = .ofValue e.ty push)
    (value : e.constantValue? = some values) (stored : Stored e.ty.slotKinds values)
    (leaves : Leaves declared push (constantBits e.ty values)) :
    e.Evaluates declared ctx values where
  value := value
  stored := stored
  push := by
    rw [hoperand]
    exact leaves
  place := by
    rw [hoperand]
    refine leaves.locates (RasterShader.length_constantBits ?_)
    rw [stored.length_eq, Ty.length_slotKinds]

theorem of_place {place : GenM Place} (hoperand : e.operand ctx = .ofPlace e.ty place)
    (value : e.constantValue? = some values) (stored : Stored e.ty.slotKinds values)
    (locates : Locates declared place (constantBits e.ty values)) :
    e.Evaluates declared ctx values where
  value := value
  stored := stored
  push := by
    rw [hoperand]
    exact locates.leaves e.ty
  place := by
    rw [hoperand]
    exact locates

/-- The words of a constructor's value are pushed one by one if they may be computed beforehand. -/
theorem of_constructor {push : GenM Unit} (hoperand : e.operand ctx = constructor ctx e push)
    (value : e.constantValue? = some values) (stored : Stored e.ty.slotKinds values)
    (leaves : Leaves declared push (constantBits e.ty values)) :
    e.Evaluates declared ctx values := by
  refine of_push hoperand value stored ?_
  rw [value]
  cases ctx.optimize with
  | false => exact leaves
  | true => exact .build (.pushWords _)

/-! ## Literals and variables -/

theorem literal {s : Scalar} {v : Float} (type : h.ty = .scalar s) (holds : s.kind.Holds v) :
    (Expr.literal h v).Evaluates declared ctx [v] := by
  obtain ⟨span, ty⟩ := h
  obtain rfl : ty = .scalar s := type
  refine of_push rfl rfl ?_ (.build (.pushConstant _ 1))
  exact (stored_iff_of_isShaped rfl).2 ⟨rfl, fun w hw => List.mem_singleton.1 hw ▸ holds⟩

theorem reference {v : Variable} {init : Expr} {ref : RefKind} (const : v.isConst = true)
    (run : declared v.id = some init) (hinit : init.Evaluates declared ctx values)
    (layout : h.ty.slotKinds = init.ty.slotKinds) (effect : v.ty.isEffect = false)
    (uniform : v.isUniform = false) (coords : isFragCoord v = false) :
    (Expr.reference h v (some init) ref).Evaluates declared ctx values := by
  have hwords : constantBits h.ty values = constantBits init.ty values := by
    rw [constantBits_eq, constantBits_eq, layout]
  refine ⟨?_, layout ▸ hinit.stored, ?_, ?_⟩
  · rw [constantValue?, if_pos const, constantOption?, hinit.value]
  · show Leaves declared _ (constantBits h.ty values)
    rw [hwords]
    exact Operand.leaves_variable ctx run hinit.value hinit.length_eq effect uniform coords
  · show Locates declared _ (constantBits h.ty values)
    rw [hwords]
    exact Operand.locates_variable ctx run hinit.value hinit.length_eq effect uniform coords

/-! ## Conversions -/

/-- A conversion makes the words of its values of those of the operand. -/
theorem convert {conversion : Conversion} {converted : List Float} {convertTop : GenM Unit}
    (hx : x.Evaluates declared ctx values)
    (hpush : Operand.convert conversion h.ty (x.operand ctx) =
      (x.operand ctx).push >>= fun _ => convertTop)
    (value : (Expr.convert h conversion x).constantValue? = some converted)
    (stored : Stored h.ty.slotKinds converted)
    (replaces : Replaces convertTop (constantBits x.ty values) (constantBits h.ty converted)) :
    (Expr.convert h conversion x).Evaluates declared ctx converted := by
  refine of_constructor rfl value stored ?_
  rw [hpush]
  exact hx.push.replaces replaces

theorem cast (hx : x.Evaluates declared ctx values) (source : x.ty.isShaped = true)
    (target : h.ty.isShaped = true) (kind : h.ty.numberKind = x.ty.numberKind)
    (slots : h.ty.slotCount = x.ty.slotCount) :
    (Expr.convert h .cast x).Evaluates declared ctx
      (values.map (Constant.cast · h.ty.numberKind)) := by
  have hholds := ((stored_iff_of_isShaped source).1 hx.stored).2
  have hlength : (values.map (Constant.cast · h.ty.numberKind)).length = h.ty.slotCount := by
    rw [List.length_map, hx.length_eq, slots]
  refine hx.convert rfl ?_ ((stored_iff_of_isShaped target).2 ⟨hlength, ?_⟩) ?_
  · rw [constantValue?, hx.value]
    rfl
  · intro w hw
    obtain ⟨v, hv, rfl⟩ := List.mem_map.1 hw
    rw [kind]
    exact (literalBits_cast_self (hholds v hv)).2
  · have hwords : constantBits h.ty (values.map (Constant.cast · h.ty.numberKind)) =
        constantBits x.ty values := by
      rw [constantBits_of_isShaped target hlength, constantBits_of_isShaped source hx.length_eq,
        List.map_map, kind]
      exact List.map_congr_left fun v hv => (literalBits_cast_self (hholds v hv)).1
    rw [hwords, operand_ty, kind, Operand.castTop_self]
    exact .pure _

/-- The value of a scalar, and its word. -/
theorem scalar (hx : x.Evaluates declared ctx values) (source : x.ty.isScalar = true) :
    ∃ v, values = [v] ∧ x.ty.numberKind.Holds v ∧
      constantBits x.ty values = [literalBits v x.ty.numberKind] := by
  have hshaped : x.ty.isShaped = true ∧ x.ty.slotCount = 1 := by
    cases hty : x.ty with
    | scalar s => exact ⟨rfl, rfl⟩
    | _ => simp [hty, Ty.isScalar] at source
  obtain ⟨hlength, hholds⟩ := (stored_iff_of_isShaped hshaped.1).1 hx.stored
  obtain ⟨v, rfl⟩ := List.length_eq_one_iff.1 (hlength.trans hshaped.2)
  exact ⟨v, rfl, hholds v List.mem_cons_self, constantBits_of_isShaped hshaped.1 hlength⟩

theorem splat (hx : x.Evaluates declared ctx values) (source : x.ty.isScalar = true)
    (target : h.ty.isShaped = true) (kind : h.ty.numberKind = x.ty.numberKind)
    (slots : 0 < h.ty.slotCount) :
    ∃ copies, (Expr.convert h .splat x).Evaluates declared ctx copies := by
  obtain ⟨v, rfl, hholds, hword⟩ := hx.scalar source
  have hlength : (List.replicate h.ty.slotCount v).length = h.ty.slotCount :=
    List.length_replicate
  refine ⟨List.replicate h.ty.slotCount v, hx.convert rfl ?_
    ((stored_iff_of_isShaped target).2 ⟨hlength, ?_⟩) ?_⟩
  · rw [constantValue?, hx.value]
    rfl
  · intro w hw
    rw [List.eq_of_mem_replicate hw, kind]
    exact hholds
  · rw [constantBits_of_isShaped target hlength, List.map_replicate, hword, kind]
    have hcopies : h.ty.slotCount - 1 + 1 = h.ty.slotCount := Nat.sub_add_cancel slots
    have hduplicates := Turns.pushDuplicates (literalBits v x.ty.numberKind) (h.ty.slotCount - 1)
    rw [hcopies] at hduplicates
    exact .build hduplicates

theorem diagonal (hx : x.Evaluates declared ctx values) (source : x.ty.isScalar = true)
    (float : x.ty.numberKind = .float) (target : h.ty.isMatrix = true)
    (kind : h.ty.numberKind = .float) :
    ∃ matrix, (Expr.convert h .diagonal x).Evaluates declared ctx matrix := by
  obtain ⟨v, rfl, hholds, hword⟩ := hx.scalar source
  have hshaped := Ty.isShaped_of_isMatrix target
  have hlength : (Constant.diagonal h.ty.columns h.ty.rows v).length = h.ty.slotCount := by
    rw [Constant.length_diagonal, Ty.slotCount_of_isMatrix target]
  refine ⟨Constant.diagonal h.ty.columns h.ty.rows v, hx.convert rfl ?_
    ((stored_iff_of_isShaped hshaped).2 ⟨hlength, ?_⟩) ?_⟩
  · rw [constantValue?, hx.value]
    rfl
  · rw [kind]
    rw [float] at hholds
    exact forall_mem_diagonal hholds
  · rw [constantBits_of_isShaped hshaped hlength, kind, map_diagonal, hword, float]
    exact .build (.diagonal _ ⟨h.ty.columns, h.ty.rows⟩)

theorem resize (hx : x.Evaluates declared ctx values) (source : x.ty.isMatrix = true)
    (float : x.ty.numberKind = .float) (target : h.ty.isMatrix = true)
    (kind : h.ty.numberKind = .float) :
    ∃ matrix, (Expr.convert h .resize x).Evaluates declared ctx matrix := by
  have hsource := Ty.isShaped_of_isMatrix source
  have hshaped := Ty.isShaped_of_isMatrix target
  have hlength : (Constant.resize values x.ty.columns x.ty.rows h.ty.columns h.ty.rows).length =
      h.ty.slotCount := by
    rw [Constant.length_resize, Ty.slotCount_of_isMatrix target]
  refine ⟨Constant.resize values x.ty.columns x.ty.rows h.ty.columns h.ty.rows,
    hx.convert rfl ?_ ((stored_iff_of_isShaped hshaped).2 ⟨hlength, ?_⟩) ?_⟩
  · rw [constantValue?, hx.value]
    rfl
  · rw [kind]
    have hholds := ((stored_iff_of_isShaped hsource).1 hx.stored).2
    rw [float] at hholds
    exact forall_mem_resize hholds
  · rw [constantBits_of_isShaped hshaped hlength, kind, map_resize,
      constantBits_of_isShaped hsource hx.length_eq, float, operand_ty]
    refine .build (.resize ⟨x.ty.columns, x.ty.rows⟩ ⟨h.ty.columns, h.ty.rows⟩ ?_)
    rw [List.length_map, hx.length_eq, Ty.slotCount_of_isMatrix source]
    rfl

/-! ## Parts put together -/

/-- Parts are evaluated one after the other. -/
theorem parts {parts : List Expr}
    (hparts : ∀ e ∈ parts, ∃ values, e.Evaluates declared ctx values) :
    ∃ values, constantValues? parts = some values ∧
      Stored (parts.flatMap fun e => e.ty.slotKinds) values ∧
      Leaves declared ((operandsOf ctx parts).forM fun part => part.push)
        (literalWords (parts.flatMap fun e => e.ty.slotKinds) values) := by
  induction parts with
  | nil => exact ⟨[], rfl, .nil, .pure⟩
  | cons e rest ih =>
    obtain ⟨first, hfirst⟩ := hparts e List.mem_cons_self
    obtain ⟨others, hothers, hstored, hleaves⟩ :=
      ih fun e he => hparts e (List.mem_cons_of_mem _ he)
    refine ⟨first ++ others, ?_, hfirst.stored.append hstored, ?_⟩
    · rw [constantValues?, hfirst.value, hothers]
      rfl
    · rw [List.flatMap_cons, literalWords_append hfirst.stored]
      exact hfirst.push.seq hleaves

theorem assemble {assembly : Assembly} {parts : List Expr}
    (hparts : ∀ e ∈ parts, ∃ values, e.Evaluates declared ctx values)
    (layout : h.ty.slotKinds = parts.flatMap fun e => e.ty.slotKinds) :
    ∃ values, (Expr.assemble h assembly parts).Evaluates declared ctx values := by
  obtain ⟨values, hvalues, hstored, hleaves⟩ := Evaluates.parts hparts
  rw [← layout] at hstored hleaves
  exact ⟨values, of_constructor rfl hvalues hstored hleaves⟩

/-! ## Parts selected -/

/-- Consecutive slots of a value. -/
theorem slice {offset : Nat} (hbase : base.Evaluates declared ctx values)
    (hoperand : e.operand ctx = .ofPlace e.ty do
      return (← (base.operand ctx).place).slice offset e.ty.slotCount)
    (hvalue : e.constantValue? = Constant.slice? values offset e.ty.slotCount)
    (inside : offset + e.ty.slotCount ≤ base.ty.slotCount)
    (layout : (base.ty.slotKinds.drop offset).take e.ty.slotCount = e.ty.slotKinds) :
    ∃ part, e.Evaluates declared ctx part := by
  have hwords : constantBits e.ty ((values.drop offset).take e.ty.slotCount) =
      ((constantBits base.ty values).drop offset).take e.ty.slotCount := by
    rw [constantBits_eq, ← layout, literalWords_slice, ← constantBits_eq]
  refine ⟨_, of_place hoperand ?_ (layout ▸ hbase.stored.slice offset e.ty.slotCount) ?_⟩
  · rw [hvalue, Constant.slice?, if_pos (by rw [hbase.length_eq]; exact inside)]
  · rw [hwords]
    exact hbase.place.slice (by rw [hbase.length_constantBits]; exact inside)

theorem field {i : Nat} {f : Field} (hbase : base.Evaluates declared ctx values)
    (member : base.ty.fields[i]? = some f) (layout : h.ty.slotKinds = f.ty.slotKinds) :
    ∃ part, (Expr.field h base i).Evaluates declared ctx part := by
  have hcount : h.ty.slotCount = f.ty.slotCount := by
    rw [← Ty.length_slotKinds, layout, Ty.length_slotKinds]
  refine hbase.slice rfl ?_ (hcount ▸ Ty.fieldSlotOffset_add_le member) ?_
  · rw [constantValue?, hbase.value]
    rfl
  · show (base.ty.slotKinds.drop _).take h.ty.slotCount = h.ty.slotKinds
    rw [hcount, layout, Ty.slotKinds_field member]

/-- The place of an element that is known. -/
theorem indexPlace_constant {base : Operand} {i : Expr} {push : GenM Unit} {stride count n : Nat}
    (constant : i.constantInt? = some (n : Int)) (slots : base.slots = count * stride)
    (inside : n < count) :
    indexPlace base i push stride = do return (← base.place).slice (n * stride) stride := by
  have hstart : min n (count * stride / max stride 1 - 1) * stride = n * stride := by
    rcases Nat.eq_zero_or_pos stride with rfl | hpos
    · rw [Nat.mul_zero, Nat.mul_zero]
    · rw [Nat.max_eq_left hpos, Nat.mul_div_cancel _ hpos, Nat.min_eq_left (by omega)]
  rw [indexPlace, constant, slots]
  simp only [Int.toNat_natCast, hstart]

theorem index {i : Expr} {element : Ty} {count n : Nat} (hbase : base.Evaluates declared ctx values)
    (type : Typing.elementType? base.ty = some element)
    (size : Typing.elementCount? base.ty = some count) (constant : i.constantInt? = some (n : Int))
    (inside : n < count) (layout : h.ty.slotKinds = element.slotKinds) :
    ∃ part, (Expr.index h base i).Evaluates declared ctx part := by
  have hkinds : base.ty.slotKinds = (List.replicate count h.ty.slotKinds).flatten := by
    rw [layout, Ty.slotKinds_element type size]
  have hslots : base.ty.slotCount = count * h.ty.slotCount := by
    rw [← Ty.length_slotKinds, hkinds]
    simp [Ty.length_slotKinds]
  have hbaseSlots : (base.operand ctx).slots = count * h.ty.slotCount := by
    rw [Operand.slots, operand_ty, hslots]
  have hvalue : (Expr.index h base i).constantValue? =
      Constant.slice? values (n * h.ty.slotCount) h.ty.slotCount := by
    rw [constantInt?] at constant
    rw [constantValue?, hbase.value]
    simp only [Option.bind_eq_bind, Option.bind_some, constant]
  refine hbase.slice ?_ hvalue ?_ ?_
  · exact congrArg (Operand.ofPlace h.ty) (indexPlace_constant constant hbaseSlots inside)
  · show n * h.ty.slotCount + h.ty.slotCount ≤ base.ty.slotCount
    rw [hslots, ← Nat.succ_mul]
    exact Nat.mul_le_mul_right _ inside
  · show (base.ty.slotKinds.drop (n * h.ty.slotCount)).take h.ty.slotCount = h.ty.slotKinds
    rw [hkinds, ← Ty.length_slotKinds, slice_flatten_replicate _ inside]

theorem swizzle {components : List Nat} (hbase : base.Evaluates declared ctx values)
    (source : base.ty.isShaped = true) (short : base.ty.slotCount ≤ 4)
    (few : components.length ≤ 4) (inside : ∀ c ∈ components, c < base.ty.slotCount)
    (target : h.ty.isShaped = true) (kind : h.ty.numberKind = base.ty.numberKind)
    (slots : h.ty.slotCount = components.length) :
    (Expr.swizzle h base components).Evaluates declared ctx
      (components.map (values.getD · 0.0)) := by
  have hholds := ((stored_iff_of_isShaped source).1 hbase.stored).2
  have hinside : ∀ c ∈ components, c < values.length := by rwa [hbase.length_eq]
  have hlength : (components.map (values.getD · 0.0)).length = h.ty.slotCount := by
    rw [List.length_map, slots]
  have hvalue : (Expr.swizzle h base components).constantValue? =
      some (components.map (values.getD · 0.0)) := by
    rw [constantValue?, hbase.value]
    exact mapM_getElem? hinside
  have hstored : Stored h.ty.slotKinds (components.map (values.getD · 0.0)) := by
    refine (stored_iff_of_isShaped target).2 ⟨hlength, fun v hv => ?_⟩
    obtain ⟨c, hc, rfl⟩ := List.mem_map.1 hv
    rw [kind, List.getD_eq_getElem _ _ (hinside c hc)]
    exact hholds _ (List.getElem_mem _)
  have hwords : constantBits h.ty (components.map (values.getD · 0.0)) =
      components.map ((constantBits base.ty values).getD · 0) := by
    rw [constantBits_of_isShaped target hlength, constantBits_of_isShaped source hbase.length_eq,
      List.map_map, kind]
    refine List.map_congr_left fun c hc => ?_
    simp [List.getD_eq_getElem?_getD, hinside c hc]
  have hplace : Locates declared (do return (← (base.operand ctx).place).swizzle components)
      (constantBits h.ty (components.map (values.getD · 0.0))) := by
    rw [hwords]
    rw [← hbase.length_constantBits] at short inside
    exact hbase.place.swizzle (by omega) (by omega) inside
  by_cases hvariable : base.baseVariable?.isSome = true
  · refine of_place ?_ hvalue hstored hplace
    rw [operand, if_pos hvariable]
    rfl
  · refine ⟨hvalue, hstored, ?_, ?_⟩
    · rw [operand, if_neg hvariable]
      have hselect := Turns.swizzle hbase.length_constantBits
        (fun c hc => ⟨inside c hc, (inside c hc).trans_le (by omega)⟩)
        (show components.length ≤ 16 by omega)
      rw [← hwords] at hselect
      exact hbase.push.replaces (.build hselect)
    · rw [operand, if_neg hvariable]
      exact hplace

/-! ## Negation -/

theorem negate (hx : x.Evaluates declared ctx values) (source : x.ty.isShaped = true)
    (number : x.ty.numberKind = .float ∨ x.ty.numberKind.IsInteger)
    (target : h.ty.isShaped = true) (kind : h.ty.numberKind = x.ty.numberKind)
    (slots : h.ty.slotCount = x.ty.slotCount) :
    (Expr.prefixed h .minus x).Evaluates declared ctx
      (values.map fun v => Constant.normalize (-v) h.ty.numberKind) := by
  have hholds := ((stored_iff_of_isShaped source).1 hx.stored).2
  have hlength : (values.map fun v => Constant.normalize (-v) h.ty.numberKind).length =
      h.ty.slotCount := by
    rw [List.length_map, hx.length_eq, slots]
  refine of_push rfl ?_ ((stored_iff_of_isShaped target).2 ⟨hlength, ?_⟩) ?_
  · rw [constantValue?, hx.value]
    rfl
  · intro w hw
    obtain ⟨v, hv, rfl⟩ := List.mem_map.1 hw
    show h.ty.numberKind.Holds _
    rw [kind]
    exact (literalBits_negated number (hholds v hv)).2
  · have hwords : constantBits h.ty (values.map fun v => Constant.normalize (-v) h.ty.numberKind) =
        (constantBits x.ty values).map (negatedWord x.ty.numberKind) := by
      rw [constantBits_of_isShaped target hlength, constantBits_of_isShaped source hx.length_eq,
        List.map_map, List.map_map, kind]
      exact List.map_congr_left fun v hv => (literalBits_negated number (hholds v hv)).1
    have hnegate := Operand.replaces_negate number hx.length_constantBits
    show Leaves declared _ (constantBits h.ty _)
    rw [hwords]
    refine hx.push.replaces ?_
    rwa [Operand.slots, operand_ty]

end Expr.Evaluates

/-- A constant tree has a value, and its code leaves and locates the words of the value. -/
theorem Expr.ConstantTree.evaluates {declared : Constants} {e : Expr}
    (tree : e.ConstantTree declared) (ctx : CodeContext) :
    ∃ values, e.Evaluates declared ctx values := by
  induction tree with
  | literal type holds => exact ⟨_, .literal type holds⟩
  | reference const run tree layout effect uniform coords ih =>
    obtain ⟨values, hinit⟩ := ih
    exact ⟨values, .reference const run hinit layout effect uniform coords⟩
  | cast tree source target kind slots ih =>
    obtain ⟨values, hx⟩ := ih
    exact ⟨_, hx.cast source target kind slots⟩
  | splat tree source target kind slots ih =>
    obtain ⟨values, hx⟩ := ih
    exact hx.splat source target kind slots
  | diagonal tree source float target kind ih =>
    obtain ⟨values, hx⟩ := ih
    exact hx.diagonal source float target kind
  | resize tree source float target kind ih =>
    obtain ⟨values, hx⟩ := ih
    exact hx.resize source float target kind
  | assemble trees layout ih => exact Expr.Evaluates.assemble ih layout
  | field tree member layout ih =>
    obtain ⟨values, hbase⟩ := ih
    exact hbase.field member layout
  | index tree type size constant inside layout ih =>
    obtain ⟨values, hbase⟩ := ih
    exact hbase.index type size constant inside layout
  | swizzle tree source short few inside target kind slots ih =>
    obtain ⟨values, hbase⟩ := ih
    exact ⟨_, hbase.swizzle source short few inside target kind slots⟩
  | negate tree source number target kind slots ih =>
    obtain ⟨values, hx⟩ := ih
    exact ⟨_, hx.negate source number target kind slots⟩

/-! ## Running constants -/

/-- Without optimization every declaration is written out. -/
theorem writeDeclaration_of_unoptimized {ctx : CodeContext} (unoptimized : ctx.optimize = false)
    (v : Variable) (init : Expr) :
    writeDeclaration ctx v (some init) = writeSlots ctx v (some init) := by
  rw [writeDeclaration, promoteToImmutable, unoptimized]
  rfl

/-- A constant tree has a value for each of its slots.  Without optimization its code leaves exactly
the words of the value on the stack, where the constants it refers to have been declared; and a
declaration of a constant with it makes the constant one of those. -/
theorem Expr.ConstantTree.leaves_constantBits {declared : Constants} {ctx : CodeContext} {e : Expr}
    (tree : e.ConstantTree declared) (unoptimized : ctx.optimize = false) :
    ∃ values, e.constantValue? = some values ∧ values.length = e.ty.slotCount ∧
      Leaves declared (e.operand ctx).push (constantBits e.ty values) ∧
      ∀ v : Variable, v.ty.slotCount = e.ty.slotCount →
        Declares declared (writeDeclaration ctx v (some e)) v e := by
  obtain ⟨values, evaluates⟩ := tree.evaluates ctx
  refine ⟨values, evaluates.value, evaluates.length_eq, evaluates.push, fun v hslots => ?_⟩
  rw [writeDeclaration_of_unoptimized unoptimized]
  exact evaluates.push.declares evaluates.value evaluates.length_eq hslots

/-- The constructor `float4(1, 2, 3, 4)`. -/
def oneToFour : Expr :=
  .assemble ⟨default, .vector .float 4⟩ .compound
    ([1.0, 2.0, 3.0, 4.0].map (.literal ⟨default, .float⟩))

/-- A constant `c` with that value, and a layout. -/
def fourConstant (layout : Layout) : Variable :=
  ⟨1, "c", .vector .float 4, ⟨layout, .const, default⟩, .global, default, false⟩

/-- The value of `c`. -/
def fourReference (layout : Layout) : Expr :=
  .ofVariable default (fourConstant layout) (some oneToFour)

/-- Standard settings, without optimization. -/
def unoptimizedSettings : Settings := { Settings.standard with optimize := false }

/-- The expression `-c.yx`, where `c` has been declared. -/
theorem leaves_constantBits_negated :
    let declared := Constants.declare (fun _ => none) (fourConstant .empty) oneToFour
    let ctx : CodeContext := .ofDepth ⟨⟨.fragment, unoptimizedSettings⟩, "", [], []⟩ default 0
    let ty : Ty := .vector .float 2
    let e : Expr :=
      .prefixed ⟨default, ty⟩ .minus (.swizzle ⟨default, ty⟩ (fourReference .empty) [1, 0])
    e.ConstantTree declared ∧ ctx.optimize = false ∧
      ∃ values, e.constantValue? = some values ∧ values.length = 2 ∧
        Leaves declared (e.operand ctx).push (constantBits e.ty values) ∧
        ∀ v : Variable, v.ty.slotCount = e.ty.slotCount →
          Declares declared (writeDeclaration ctx v (some e)) v e := by
  intro declared ctx ty e
  have hnumbers : ∀ v ∈ [1.0, 2.0, 3.0, 4.0], Float.isNaN v = false := by decide +kernel
  have hliterals : oneToFour.ConstantTree declared := by
    refine .assemble (fun part hpart => ?_) rfl
    obtain ⟨v, hv, rfl⟩ := List.mem_map.1 hpart
    exact .literal rfl (hnumbers v hv)
  have hreference : (fourReference .empty).ConstantTree declared :=
    .reference rfl (Constants.declare_self ..) hliterals rfl rfl rfl rfl
  have htree : e.ConstantTree declared :=
    .negate (.swizzle hreference rfl (by decide) (by decide) (by decide) rfl rfl rfl) rfl (.inl rfl)
      rfl rfl rfl
  exact ⟨htree, rfl, htree.leaves_constantBits rfl⟩

/-- The shader `layout(builtin=15) const float4 c = float4(1, 2, 3, 4);
half4 main(float2 p) { return half4(c); }`. -/
def coordinatesShader : Program :=
  let layout : Layout := ⟨[], [(.builtin, 15)]⟩
  let p : Variable := ⟨2, "p", .vector .float 2, default, .parameter, default, false⟩
  let color : Ty := .vector .half 4
  let main : FunctionDecl := ⟨0, "main", [p], color, default, none, false, default⟩
  let value : Expr := .convert ⟨default, color⟩ .cast (fourReference layout)
  ⟨⟨.runtimeShader, unoptimizedSettings⟩, "", [],
    [.global default (fourConstant layout) (some oneToFour),
      .function ⟨main, .block default [.returns default (some value)] true⟩]⟩

/-- A constant that carries the layout of the device coordinates has its value at compile time, and
is the coordinates at run time. -/
theorem coordinatesShader_ignores_constant :
    (fourReference ⟨[], [(.builtin, 15)]⟩).constantValue? = some [1.0, 2.0, 3.0, 4.0] ∧
      constantBits (.vector .float 4) [1.0, 2.0, 3.0, 4.0] =
        [0x3F800000, 0x40000000, 0x40400000, 0x40800000] ∧
      coordinatesShader.colors? 1 [] [⟨.splat 0, .splat 0, (0x40A00000, 0x40C00000)⟩] =
        some [⟨0x40A00000, 0x40C00000, 0, 0x3F800000⟩] := by
  refine ⟨?_, ?_, ?_⟩
  · rfl
  · decide +kernel
  · decide +kernel

end RasterShader
