import Mathlib
import RasterShader.Codegen.Statement
import RasterShader.Proofs.Codegen.Intrinsic

/-!
# Well-typed code

What type checking establishes of expressions and statements, as far as the layout of values goes:
`Expr.WellTyped` and `Stmt.WellTyped` have a rule for each kind, which says how many slots the parts
have.  Types of one name have one layout, so that the rules compare slots where type checking
compares names.  A variable has the slots that its identity stands for, in whatever piece of code it
occurs.

A constant has a value for each of its slots (`Expr.WellTyped.length_constantValue`), and a type has
a kind for each of its slots (`Ty.length_slotKinds`).
-/

namespace RasterShader

/-! ## Slots of types -/

namespace Ty

/-- The slots of a struct before a field and of the field are slots of the struct. -/
theorem slotCounts_take_add_le {fields : List Field} {i : Nat} {f : Field}
    (h : fields[i]? = some f) : slotCounts (fields.take i) + f.ty.slotCount ≤ slotCounts fields := by
  induction fields generalizing i with
  | nil => simp at h
  | cons first rest ih =>
    obtain ⟨name, ty, modifiers, span⟩ := first
    cases i with
    | zero =>
      obtain rfl : _ = f := by simpa using h
      simp [slotCounts]
    | succ i =>
      have hrest := ih (by simpa using h)
      simp only [List.take_succ_cons, slotCounts]
      omega

theorem fieldSlotOffset_add_le {ty : Ty} {i : Nat} {f : Field} (h : ty.fields[i]? = some f) :
    ty.fieldSlotOffset i + f.ty.slotCount ≤ ty.slotCount := by
  cases ty with
  | struct name fields isBlock => exact slotCounts_take_add_le h
  | _ => simp [fields] at h

theorem sum_flatMap_range {f : Nat → List Nat} {m : Nat} (h : ∀ i, (f i).sum = m) (n : Nat) :
    ((List.range n).flatMap f).sum = m * n := by
  induction n with
  | zero => rfl
  | succ n ih =>
    rw [List.range_succ, List.flatMap_append, List.sum_append, ih, List.flatMap_singleton, h]
    ring

mutual

/-- The scalars, vectors and matrices of a type have all of its slots. -/
theorem sum_leaves (name : String) (ty : Ty) :
    ((ty.leaves name).map fun leaf => leaf.2.slotCount).sum = ty.slotCount := by
  cases ty with
  | array element count =>
    simp only [leaves, slotCount, List.map_flatMap]
    exact sum_flatMap_range (fun i => sum_leaves s!"{name}[{i}]" element) _
  | struct structName fields isBlock =>
    exact sum_leavesOfFields name fields
  | void | scalar | vector | matrix | effect | generic | poison => simp [leaves]

theorem sum_leavesOfFields (name : String) (fields : List (FieldOf Ty)) :
    ((leavesOfFields name fields).map fun leaf => leaf.2.slotCount).sum = slotCounts fields := by
  match fields with
  | [] => rfl
  | ⟨field, ty, modifiers, span⟩ :: rest =>
    simp only [leavesOfFields, slotCounts, List.map_append, List.sum_append]
    rw [sum_leaves, sum_leavesOfFields]

end

/-- There is a kind for each slot of a type. -/
theorem length_slotKinds (ty : Ty) : ty.slotKinds.length = ty.slotCount := by
  simp only [slotKinds, List.length_flatMap, List.length_replicate]
  exact sum_leaves "" ty

end Ty

/-- The words of a constant are as many as the slots of its type. -/
theorem length_constantBits {ty : Ty} {values : List Float} (h : values.length = ty.slotCount) :
    (constantBits ty values).length = ty.slotCount := by
  rw [constantBits, List.length_zipWith, Ty.length_slotKinds, h, Nat.min_self]

/-! ## Expressions -/

/-- The arguments of a call fill the parameters of the function that is called, and its result has
the slots of the call. -/
structure FunctionDef.Accepts (slots : Nat → Nat) (definition : FunctionDef)
    (arguments : List Expr) (result : Ty) : Prop where
  parameters : ∀ v ∈ definition.decl.parameters, v.ty.slotCount = slots v.id
  arguments : arguments.map (·.ty.slotCount) = definition.decl.parameters.map (·.ty.slotCount)
  result : definition.decl.returnType.slotCount = result.slotCount

/-- What type checking establishes of the layout of an expression.  One premise is not checked: a
choice both sides of which are computed in all lanes has slots (`selected`). -/
inductive Expr.WellTyped (program : Program) (slots : Nat → Nat) : Expr → Prop
  | literal {h : Expr.Head} {value : Float} (slot : h.ty.slotCount = 1) :
    WellTyped program slots (.literal h value)
  | reference {h : Expr.Head} {v : Variable} {init : Option Expr} {ref : RefKind}
    (type : h.ty.slotCount = v.ty.slotCount) (identity : v.ty.slotCount = slots v.id)
    (coords : Gen.isFragCoord v = true → v.ty.slotCount = 4)
    (init_typed : ∀ e ∈ init, WellTyped program slots e)
    (init_slots : ∀ e ∈ init, e.ty.slotCount = h.ty.slotCount) :
    WellTyped program slots (.reference h v init ref)
  | binary {h : Expr.Head} {left right : Expr} {op : Operator}
    (left_typed : WellTyped program slots left) (right_typed : WellTyped program slots right)
    (fits : op.Fits left.ty right.ty h.ty) : WellTyped program slots (.binary h left op right)
  | prefixed {h : Expr.Head} {op : Operator} {x : Expr} (typed : WellTyped program slots x)
    (type : x.ty.slotCount = h.ty.slotCount) : WellTyped program slots (.prefixed h op x)
  | postfixed {h : Expr.Head} {op : Operator} {x : Expr} (typed : WellTyped program slots x)
    (type : x.ty.slotCount = h.ty.slotCount) : WellTyped program slots (.postfixed h op x)
  | field {h : Expr.Head} {base : Expr} {i : Nat} {f : Field}
    (typed : WellTyped program slots base) (member : base.ty.fields[i]? = some f)
    (type : f.ty.slotCount = h.ty.slotCount) : WellTyped program slots (.field h base i)
  | index {h : Expr.Head} {base i : Expr} {count : Nat} (typed : WellTyped program slots base)
    (index_typed : WellTyped program slots i) (index_slot : i.ty.slotCount = 1)
    (elements : base.ty.slotCount = count * h.ty.slotCount) :
    WellTyped program slots (.index h base i)
  | swizzle {h : Expr.Head} {base : Expr} {components : List Nat}
    (typed : WellTyped program slots base) (inside : ∀ c ∈ components, c < base.ty.slotCount)
    (type : components.length = h.ty.slotCount) :
    WellTyped program slots (.swizzle h base components)
  | ternary {h : Expr.Head} {test ifTrue ifFalse : Expr} (test_typed : WellTyped program slots test)
    (true_typed : WellTyped program slots ifTrue) (false_typed : WellTyped program slots ifFalse)
    (test_slot : test.ty.slotCount = 1) (true_slots : ifTrue.ty.slotCount = h.ty.slotCount)
    (false_slots : ifFalse.ty.slotCount = h.ty.slotCount)
    (selected : Operand.selects test ifTrue ifFalse = true → 0 < h.ty.slotCount) :
    WellTyped program slots (.ternary h test ifTrue ifFalse)
  | intrinsic {h : Expr.Head} {f : FunctionDecl} {intrinsic : Intrinsic} {arguments : List Expr}
    (known : f.intrinsic = some intrinsic) (typed : ∀ e ∈ arguments, WellTyped program slots e)
    (fits : intrinsic.Fits (arguments.map Expr.ty) h.ty) :
    WellTyped program slots (.call h f arguments)
  | call {h : Expr.Head} {f : FunctionDecl} {arguments : List Expr} (unknown : f.intrinsic = none)
    (typed : ∀ e ∈ arguments, WellTyped program slots e)
    (accepts : ∀ definition, program.findDefinition? f = some definition →
      definition.Accepts slots arguments h.ty) :
    WellTyped program slots (.call h f arguments)
  | childCall {h : Expr.Head} {child : Variable} {arguments : List Expr}
    (typed : ∀ e ∈ arguments, WellTyped program slots e)
    (parameters : ∀ kind, child.ty.effectKind? = some kind →
      arguments.map (·.ty.slotCount) = (Typing.childParameters kind).map Ty.slotCount)
    (color : h.ty.slotCount = 4) : WellTyped program slots (.childCall h child arguments)
  | convert {h : Expr.Head} {conversion : Conversion} {x : Expr} (typed : WellTyped program slots x)
    (fits : conversion.Fits x.ty h.ty) : WellTyped program slots (.convert h conversion x)
  | assemble {h : Expr.Head} {assembly : Assembly} {parts : List Expr}
    (typed : ∀ e ∈ parts, WellTyped program slots e)
    (sum : (parts.map (·.ty.slotCount)).sum = h.ty.slotCount) :
    WellTyped program slots (.assemble h assembly parts)

/-! ## Constants -/

theorem Constant.length_slice? {values part : List Float} {start count : Nat}
    (h : Constant.slice? values start count = some part) : part.length = count := by
  unfold Constant.slice? at h
  split at h
  · obtain rfl := Option.some.inj h
    rw [List.length_take, List.length_drop]
    omega
  · cases h

theorem Constant.length_selected {values chosen : List Float} {components : List Nat}
    (h : components.mapM (values[·]?) = some chosen) : chosen.length = components.length := by
  induction components generalizing chosen with
  | nil =>
    obtain rfl := Option.some.inj h
    rfl
  | cons c rest ih =>
    rw [List.mapM_cons] at h
    obtain ⟨first, -, hrest⟩ := Option.bind_eq_some_iff.1 h
    obtain ⟨others, hothers, hall⟩ := Option.bind_eq_some_iff.1 hrest
    obtain rfl := Option.some.inj hall
    rw [List.length_cons, List.length_cons, ih hothers]

theorem Constant.length_diagonal (columns rows : Nat) (value : Float) :
    (Constant.diagonal columns rows value).length = columns * rows := by
  simp [Constant.diagonal]

theorem Constant.length_resize (source : List Float) (fromColumns fromRows columns rows : Nat) :
    (Constant.resize source fromColumns fromRows columns rows).length = columns * rows := by
  simp [Constant.resize]

namespace Expr

variable {program : Program} {slots : Nat → Nat}

theorem length_constantValues {parts : List Expr}
    (h : ∀ e ∈ parts, ∀ values, e.constantValue? = some values → values.length = e.ty.slotCount)
    {values : List Float} (hvalues : constantValues? parts = some values) :
    values.length = (parts.map (·.ty.slotCount)).sum := by
  induction parts generalizing values with
  | nil =>
    obtain rfl := Option.some.inj hvalues
    rfl
  | cons e rest ih =>
    rw [constantValues?] at hvalues
    obtain ⟨first, hfirst, hrest⟩ := Option.bind_eq_some_iff.1 hvalues
    obtain ⟨others, hothers, hall⟩ := Option.bind_eq_some_iff.1 hrest
    obtain rfl := Option.some.inj hall
    rw [List.length_append, h e (List.mem_cons_self ..) first hfirst,
      ih (fun e he => h e (List.mem_cons_of_mem _ he)) hothers, List.map_cons, List.sum_cons]

/-- A constant has a value for each of its slots. -/
theorem WellTyped.length_constantValue {e : Expr} (h : e.WellTyped program slots)
    {values : List Float} (hvalues : e.constantValue? = some values) :
    values.length = e.ty.slotCount := by
  induction h generalizing values with
  | literal slot =>
    obtain rfl := Option.some.inj hvalues
    exact slot.symm
  | @reference h v init ref type identity coords init_typed init_slots ih =>
    rw [constantValue?] at hvalues
    split at hvalues
    · rcases init with _ | e
      · simp [constantOption?] at hvalues
      · rw [constantOption?] at hvalues
        rw [ih e rfl hvalues]
        exact init_slots e rfl
    · cases hvalues
  | @prefixed h op x typed type ih =>
    cases op with
    | minus =>
      rw [constantValue?] at hvalues
      obtain ⟨inner, hinner, hmap⟩ := Option.bind_eq_some_iff.1 hvalues
      obtain rfl := Option.some.inj hmap
      rw [List.length_map, ih hinner]
      exact type
    | _ => simp [constantValue?] at hvalues
  | @field h base i f typed member type ih =>
    rw [constantValue?] at hvalues
    obtain ⟨inner, hinner, hslice⟩ := Option.bind_eq_some_iff.1 hvalues
    exact Constant.length_slice? hslice
  | @index h base i count typed index_typed index_slot elements ih _ =>
    rw [constantValue?] at hvalues
    obtain ⟨inner, hinner, hrest⟩ := Option.bind_eq_some_iff.1 hvalues
    obtain ⟨n, hn, hslice⟩ := Option.bind_eq_some_iff.1 hrest
    cases n with
    | ofNat n => exact Constant.length_slice? hslice
    | negSucc n => cases hslice
  | @swizzle h base components typed inside type ih =>
    rw [constantValue?] at hvalues
    obtain ⟨inner, hinner, hmap⟩ := Option.bind_eq_some_iff.1 hvalues
    rw [Constant.length_selected hmap]
    exact type
  | @convert h conversion x typed fits ih =>
    rw [constantValue?] at hvalues
    obtain ⟨inner, hinner, hrest⟩ := Option.bind_eq_some_iff.1 hvalues
    cases conversion with
    | cast =>
      obtain rfl := Option.some.inj hrest
      rw [List.length_map, ih hinner]
      exact fits
    | splat =>
      obtain ⟨first, hfirst, hall⟩ := Option.bind_eq_some_iff.1 hrest
      obtain rfl := Option.some.inj hall
      exact List.length_replicate
    | diagonal =>
      obtain ⟨first, hfirst, hall⟩ := Option.bind_eq_some_iff.1 hrest
      obtain rfl := Option.some.inj hall
      rw [Constant.length_diagonal]
      exact fits.2.symm
    | resize =>
      obtain rfl := Option.some.inj hrest
      rw [Constant.length_resize]
      exact fits.2.symm
  | @assemble h assembly parts typed sum ih =>
    rw [constantValue?] at hvalues
    rw [length_constantValues (fun e he values hvalues => ih e he hvalues) hvalues]
    exact sum
  | _ => simp [constantValue?] at hvalues

end Expr

/-! ## Statements -/

/-- What type checking establishes of the layout of a statement, in a function whose result has the
given number of slots. -/
inductive Stmt.WellTyped (program : Program) (slots : Nat → Nat) (result : Nat) : Stmt → Prop
  | block {span : Span} {statements : List Stmt} {opensScope : Bool}
    (typed : ∀ s ∈ statements, WellTyped program slots result s) :
    WellTyped program slots result (.block span statements opensScope)
  | expression {span : Span} {e : Expr} (typed : e.WellTyped program slots) :
    WellTyped program slots result (.expression span e)
  | declare {span : Span} {v : Variable} {value : Option Expr}
    (identity : v.ty.slotCount = slots v.id) (typed : ∀ e ∈ value, e.WellTyped program slots)
    (type : ∀ e ∈ value, e.ty.slotCount = v.ty.slotCount) :
    WellTyped program slots result (.declare span v value)
  | branch {span : Span} {test : Expr} {ifTrue : Stmt} {ifFalse : Option Stmt}
    (test_typed : test.WellTyped program slots) (test_slot : test.ty.slotCount = 1)
    (true_typed : WellTyped program slots result ifTrue)
    (false_typed : ∀ s ∈ ifFalse, WellTyped program slots result s) :
    WellTyped program slots result (.branch span test ifTrue ifFalse)
  | loop {span : Span} {initializer : Option Stmt} {test next : Option Expr} {body : Stmt}
    {trips : Option TripInfo}
    (initializer_typed : ∀ s ∈ initializer, WellTyped program slots result s)
    (test_typed : ∀ e ∈ test, e.WellTyped program slots)
    (test_slot : ∀ e ∈ test, e.ty.slotCount = 1)
    (next_typed : ∀ e ∈ next, e.WellTyped program slots)
    (body_typed : WellTyped program slots result body) :
    WellTyped program slots result (.loop span initializer test next body trips)
  | doWhile {span : Span} {body : Stmt} {test : Expr}
    (body_typed : WellTyped program slots result body) (test_typed : test.WellTyped program slots)
    (test_slot : test.ty.slotCount = 1) :
    WellTyped program slots result (.doWhile span body test)
  | switch {span : Span} {value : Expr} {cases : List (CaseOf Stmt)}
    (value_typed : value.WellTyped program slots) (value_slot : value.ty.slotCount = 1)
    (cases_typed : ∀ c ∈ cases, ∀ s ∈ c.statements, WellTyped program slots result s) :
    WellTyped program slots result (.switch span value cases)
  | breaks {span : Span} : WellTyped program slots result (.breaks span)
  | continues {span : Span} : WellTyped program slots result (.continues span)
  | discards {span : Span} : WellTyped program slots result (.discards span)
  | returns {span : Span} {value : Option Expr} (typed : ∀ e ∈ value, e.WellTyped program slots)
    (type : ∀ e ∈ value, e.ty.slotCount = result) :
    WellTyped program slots result (.returns span value)
  | nop {span : Span} : WellTyped program slots result (.nop span)

/-- The body of every function that a program can call is well typed. -/
def Program.WellTyped (program : Program) (slots : Nat → Nat) : Prop :=
  ∀ f definition, program.findDefinition? f = some definition →
    definition.body.WellTyped program slots definition.decl.returnType.slotCount

end RasterShader
