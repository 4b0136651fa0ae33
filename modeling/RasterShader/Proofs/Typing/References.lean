import Mathlib
import RasterShader.Ir.Element
import RasterShader.Proofs.Typing.Formed

/-!
# How references are marked

Every position in an expression says how storage that stands there is used: the left side of an
assignment is written, the operand of an increment is read and written, an argument for an `out`
parameter is handed on, and anywhere else storage is read.  Through fields, elements and swizzles
the use passes on to the variable at the root.  `Expr.Marked` says that all references of an
expression carry just the use of their position, that nothing is written which may not be
(`Variable.Writable`), and that no swizzle names a component twice through which something is
written.

Only `markAssigned` changes a mark, of an expression that has been found to name storage
(`Expr.Marked.markAssigned`).  All other checks put expressions together, convert, fold or drop
them, and do so with references that are read.  Marks do not depend on whether something is
reported: what holds of every outcome of a check is `Checked.Always`.
-/

namespace RasterShader

/-! ## Outcomes -/

section

variable {α : Type} {p : α → Prop}

theorem forall_mem_none : ∀ x ∈ (none : Option α), p x := nofun

theorem forall_mem_some {a : α} (h : p a) : ∀ x ∈ some a, p x :=
  fun _ hx => Option.some.inj hx ▸ h

end

namespace Checked

variable {α β : Type} {p : α → Prop} {q : β → Prop}

/-- The value has a property, whether or not something is reported. -/
def Always (x : Checked α) (p : α → Prop) : Prop := p x.value

namespace Always

theorem pure {a : α} (h : p a) : (Pure.pure a : Checked α).Always p := h

theorem refuse {span : Span} {issue : Issue} {a : α} (h : p a) :
    (Checked.refuse span issue a).Always p := h

theorem bind {x : Checked α} {f : α → Checked β} (hx : x.Always p)
    (hf : ∀ a, p a → (f a).Always q) : (x >>= f).Always q := hf x.value hx

end Always

end Checked

/-! ## Storage that may be written -/

namespace ModifierFlags

theorem intersects_union (flags a b : ModifierFlags) :
    flags.intersects (a ||| b) = (flags.intersects a || flags.intersects b) := by
  have hbits : flags.bits &&& (a ||| b).bits = flags.bits &&& a.bits ||| flags.bits &&& b.bits :=
    BitVec.and_or_distrib_left
  rw [Bool.eq_iff_iff]
  simp [intersects, hbits, BitVec.or_eq_zero_iff, imp_iff_not_or]

/-- A set meets a single keyword if the keyword is in it. -/
theorem intersects_single (flags : ModifierFlags) (place : Nat) :
    flags.intersects (single place) = flags.contains (single place) := by
  have hone : ((1 <<< place : Nat) : BitVec 16) = BitVec.twoPow 16 place :=
    BitVec.eq_of_toNat_eq (by simp [BitVec.toNat_twoPow, Nat.shiftLeft_eq])
  simp only [intersects, contains, single, hone, BitVec.and_twoPow]
  split
  · simp
  · simpa using Eq.symm

end ModifierFlags

/-- The variable is storage that may be written: it is neither constant nor uniform nor read-only,
and not an input of the stage. -/
structure Variable.Writable (v : Variable) : Prop where
  const : v.modifiers.flags.contains .const = false
  uniform : v.modifiers.flags.contains .uniform = false
  readonly : v.modifiers.flags.contains .readonly = false
  stage : v.storage ≠ .parameter → v.modifiers.flags.contains .input = true →
    v.modifiers.flags.contains .output = true

theorem Variable.writable_iff (v : Variable) : v.Writable ↔ Expr.isImmutable v = false := by
  have hflags : v.modifiers.flags.intersects (.const ||| .uniform ||| .readonly) =
      (v.modifiers.flags.contains .const || v.modifiers.flags.contains .uniform ||
        v.modifiers.flags.contains .readonly) := by
    rw [ModifierFlags.intersects_union, ModifierFlags.intersects_union]
    exact congrArg₂ or (congrArg₂ or (ModifierFlags.intersects_single _ 1)
      (ModifierFlags.intersects_single _ 0)) (ModifierFlags.intersects_single _ 10)
  simp only [Expr.isImmutable, hflags, Bool.or_eq_false_iff, Bool.and_eq_false_imp, bne_iff_ne,
    Bool.and_eq_true, Bool.not_eq_false', and_imp]
  exact ⟨fun ⟨hconst, huniform, hreadonly, hstage⟩ => ⟨⟨⟨hconst, huniform⟩, hreadonly⟩, hstage⟩,
    fun ⟨⟨⟨hconst, huniform⟩, hreadonly⟩, hstage⟩ => ⟨hconst, huniform, hreadonly, hstage⟩⟩

/-! ## Uses -/

/-- How an operation uses the storage of its left operand. -/
def Operator.leftUse (op : Operator) : RefKind :=
  if op == .assign then .write else if op.isAssignment then .readWrite else .read

/-- How an operation uses the storage of its only operand. -/
def Operator.operandUse : Operator → RefKind
  | .plusPlus | .minusMinus => .readWrite
  | _ => .read

/-- How a call uses the storage of the argument for a parameter. -/
def Variable.argumentUse (parameter : Variable) : RefKind :=
  if parameter.modifiers.isOut then .pointer else .read

/-- In an expression whose storage is used in the given way, every reference is marked with the use
of its own position.  What is written is storage that may be, and a swizzle through which something
is written names every component once. -/
inductive Expr.Marked : RefKind → Expr → Prop where
  | literal (h : Expr.Head) (value : Float) : Marked .read (.literal h value)
  | reference {use : RefKind} (h : Expr.Head) {v : Variable} (init : Option Expr) :
      (use ≠ .read → v.Writable) → Marked use (.reference h v init use)
  | binary (h : Expr.Head) {left : Expr} {op : Operator} {right : Expr} :
      Marked op.leftUse left → Marked .read right → Marked .read (.binary h left op right)
  | prefixed (h : Expr.Head) {op : Operator} {operand : Expr} :
      Marked op.operandUse operand → Marked .read (.prefixed h op operand)
  | postfixed (h : Expr.Head) {op : Operator} {operand : Expr} :
      Marked op.operandUse operand → Marked .read (.postfixed h op operand)
  | field {use : RefKind} (h : Expr.Head) {base : Expr} (i : Nat) :
      Marked use base → Marked use (.field h base i)
  | index {use : RefKind} (h : Expr.Head) {base i : Expr} :
      Marked use base → Marked .read i → Marked use (.index h base i)
  | swizzle {use : RefKind} (h : Expr.Head) {base : Expr} {components : List Nat} :
      (use ≠ .read → components.Nodup) → Marked use base → Marked use (.swizzle h base components)
  | ternary (h : Expr.Head) {test ifTrue ifFalse : Expr} :
      Marked .read test → Marked .read ifTrue → Marked .read ifFalse →
      Marked .read (.ternary h test ifTrue ifFalse)
  | call (h : Expr.Head) {f : FunctionDecl} {arguments : List Expr} :
      f.parameters.length = arguments.length →
      (∀ pair ∈ f.parameters.zip arguments, Marked pair.1.argumentUse pair.2) →
      Marked .read (.call h f arguments)
  | childCall (h : Expr.Head) (child : Variable) {arguments : List Expr} :
      (∀ e ∈ arguments, Marked .read e) → Marked .read (.childCall h child arguments)
  | convert (h : Expr.Head) (conversion : Conversion) {operand : Expr} :
      Marked .read operand → Marked .read (.convert h conversion operand)
  | assemble (h : Expr.Head) (assembly : Assembly) {parts : List Expr} :
      (∀ e ∈ parts, Marked .read e) → Marked .read (.assemble h assembly parts)
  | poison (span : Span) : Marked .read (.poison span)

namespace Expr

variable {use : RefKind} {e : Expr} {es : List Expr}

theorem Marked.withSpan (h : e.Marked use) (span : Span) : (e.withSpan span).Marked use := by
  cases h <;> constructor <;> assumption

theorem marked_ofVariable (span : Span) (v : Variable) (init : Option Expr) :
    (ofVariable span v init).Marked .read := .reference _ init fun h => absurd rfl h

/-! ## Constants and conversions -/

theorem marked_literals (head : Head) (values : List Float) :
    ∀ e ∈ values.map (literal head), e.Marked .read := by
  intro e he
  obtain ⟨value, -, rfl⟩ := List.mem_map.1 he
  exact .literal head value

mutual

/-- A constant refers to nothing. -/
theorem marked_ofConstant (span : Span) (values : List Float) (ty : Ty) :
    (ofConstant span values ty).Marked .read := by
  cases ty with
  | scalar s => exact .literal _ _
  | vector s columns =>
    rw [ofConstant]
    split
    · exact .convert _ _ (.literal _ _)
    · exact .assemble _ _ (marked_literals _ values)
  | matrix s columns rows => exact .assemble _ _ (marked_literals _ values)
  | array element count =>
    refine .assemble _ _ fun e he => ?_
    obtain ⟨i, -, rfl⟩ := List.mem_map.1 he
    exact marked_ofConstant span _ element
  | struct name fields isBlock => exact .assemble _ _ (marked_ofConstants span values fields)
  | void | effect | generic | poison => exact .poison span

theorem marked_ofConstants (span : Span) (values : List Float) (fields : List (FieldOf Ty)) :
    ∀ e ∈ ofConstants span values fields, e.Marked .read := by
  match fields with
  | [] => exact List.forall_mem_nil _
  | ⟨_, ty, _, _⟩ :: rest =>
    exact List.forall_mem_cons.2 ⟨marked_ofConstant span _ ty, marked_ofConstants span _ rest⟩

end

variable {ty : Ty}

theorem Marked.castTo (h : e.Marked .read) (ty : Ty) : (e.castTo ty).Marked .read := by
  unfold Expr.castTo
  split
  · exact .literal _ _
  · split
    · exact marked_ofConstant _ _ ty
    · exact .convert _ _ h

theorem Marked.castUnlessSame (h : e.Marked .read) (ty : Ty) :
    (e.castUnlessSame ty).Marked .read := by
  unfold Expr.castUnlessSame
  split
  · exact h
  · exact h.castTo ty

theorem Marked.coerce (h : e.Marked .read) (ty : Ty) : (e.coerce ty).Always (Marked .read) := by
  unfold Expr.coerce
  split_ifs
  · exact .pure h
  · exact .refuse (.poison _)
  · exact .pure (h.castTo ty)

theorem marked_coerceAll {tys : List Ty} (h : ∀ e ∈ es, e.Marked .read) :
    (coerceAll es tys).Always fun es => ∀ e ∈ es, e.Marked .read := by
  induction es generalizing tys with
  | nil => exact .pure (List.forall_mem_nil _)
  | cons e es ih =>
    rw [List.forall_mem_cons] at h
    cases tys with
    | nil => exact .pure (List.forall_mem_nil _)
    | cons ty tys =>
      exact .bind (h.1.coerce ty) fun first hfirst => .bind (ih h.2) fun others hothers =>
        .pure (List.forall_mem_cons.2 ⟨hfirst, hothers⟩)

theorem Marked.adaptLiteral (h : e.Marked .read) (other : Ty) :
    (e.adaptLiteral other).Marked .read := by
  unfold Expr.adaptLiteral
  dsimp only
  split
  · exact h
  · exact h.castTo _

/-- A constant expression may give way to its value. -/
theorem Marked.folded (h : e.Marked .read) (span : Span) (fold : Bool) (ty : Ty) :
    Marked .read
      (match if fold then e.constantValue? else none with
      | some values => .ofConstant span values ty
      | none => e) := by
  split
  · exact marked_ofConstant _ _ _
  · exact h

/-! ## Marking -/

/-- What names storage that may be written is well marked for any use of it. -/
theorem Marked.withRefKind (h : e.Marked .read) (ok : e.assignable.value = true) (kind : RefKind) :
    (e.withRefKind kind).Marked kind := by
  fun_induction Expr.assignable e with
  | case1 | case6 | case7 | case8 => cases ok
  | case2 head v init ref hmutable =>
    exact .reference _ init fun _ => v.writable_iff.2 (by simpa using hmutable)
  | case3 head base i ih =>
    cases h with
    | field _ _ hbase => exact .field _ _ (ih hbase ok)
  | case4 head base i ih =>
    cases h with
    | index _ hbase hi => exact .index _ (ih hbase ok) hi
  | case5 head base components hnodup ih =>
    cases h with
    | swizzle _ _ hbase => exact .swizzle _ (fun _ => hnodup) (ih hbase ok)

theorem Marked.markAssigned (h : e.Marked .read) (kind : RefKind) :
    (e.markAssigned kind).Always fun marked => ∀ e' ∈ marked, e'.Marked kind := by
  refine .bind (p := fun ok => ok = true → (e.withRefKind kind).Marked kind)
    (fun ok => h.withRefKind ok kind) fun ok hmarked => ?_
  split
  · rename_i hok
    exact .pure (forall_mem_some (hmarked hok))
  · exact .pure forall_mem_none

end Expr

/-! ## Statements and elements -/

/-- Expressions of the statement are marked as values that are read. -/
inductive Stmt.Marked : Stmt → Prop where
  | block (span : Span) {statements : List Stmt} (opensScope : Bool) :
      (∀ s ∈ statements, Marked s) → Marked (.block span statements opensScope)
  | expression (span : Span) {e : Expr} : e.Marked .read → Marked (.expression span e)
  | declare (span : Span) (v : Variable) {value : Option Expr} :
      (∀ e ∈ value, e.Marked .read) → Marked (.declare span v value)
  | branch (span : Span) {test : Expr} {ifTrue : Stmt} {ifFalse : Option Stmt} :
      test.Marked .read → Marked ifTrue → (∀ s ∈ ifFalse, Marked s) →
      Marked (.branch span test ifTrue ifFalse)
  | loop (span : Span) {initializer : Option Stmt} {test next : Option Expr} {body : Stmt}
      (trips : Option TripInfo) :
      (∀ s ∈ initializer, Marked s) → (∀ e ∈ test, e.Marked .read) →
      (∀ e ∈ next, e.Marked .read) → Marked body →
      Marked (.loop span initializer test next body trips)
  | doWhile (span : Span) {body : Stmt} {test : Expr} :
      Marked body → test.Marked .read → Marked (.doWhile span body test)
  | switch (span : Span) {value : Expr} {cases : List SwitchCase} :
      value.Marked .read → (∀ c ∈ cases, ∀ s ∈ c.statements, Marked s) →
      Marked (.switch span value cases)
  | breaks (span : Span) : Marked (.breaks span)
  | continues (span : Span) : Marked (.continues span)
  | discards (span : Span) : Marked (.discards span)
  | returns (span : Span) {value : Option Expr} :
      (∀ e ∈ value, e.Marked .read) → Marked (.returns span value)
  | nop (span : Span) : Marked (.nop span)

/-- The initializer of a global variable and the body of a function are marked. -/
def Element.Marked : Element → Prop
  | .global _ _ value => ∀ e ∈ value, e.Marked .read
  | .function f => f.body.Marked
  | .interfaceBlock .. | .prototype _ | .struct .. | .extension .. => True

end RasterShader
