import Mathlib
import RasterShader.Proofs.Typing.Access
import RasterShader.Proofs.Typing.Operation
import RasterShader.Typing.Statement

/-!
# What type checking reports

An expression that fails to type-check is replaced by `poison`, and the program is refused for the
report that goes with it.  So a failure has to be reported: where a check of formed operands reports
nothing, its outcome is formed (`Typing.Check.formed_of_unreported`).

Two failures are not reported (`Typing.failures_unreported`).  A matrix with two columns and rows
has as many slots as a vector of four, and is let through as a part of one; but where the vector is
of integers or booleans, there is no matrix of that scalar to convert it to.  And a mask that starts
with a digit is not held back from values that have no components.
-/

namespace RasterShader

/-- The types of a signature are proper or placeholders. -/
structure FunctionDecl.Proper (f : FunctionDecl) : Prop where
  parameters : ∀ p ∈ f.parameters, p.ty.isGeneric = true ∨ p.ty.isProper = true
  returns : f.returnType.isGeneric = true ∨ f.returnType.isProper = true

namespace Typing

variable {dialect : Dialect} {span : Span}

/-! ## Constructors -/

variable {ty : Ty} {arguments : List Expr}

theorem constructArray_formed (hty : ty.isStored = true) (harray : ty.isArray = true)
    (h : ∀ e ∈ arguments, e.Formed) :
    (constructArray dialect span ty arguments).Ensures Expr.Formed := by
  have helement : ty.component.isStored = true := by
    cases ty <;> simp_all [Ty.isArray, Ty.component, Ty.isStored]
  unfold constructArray
  split
  · exact .refuse
  split
  · exact .refuse
  have htypes : ∀ t ∈ List.replicate arguments.length ty.component, t.isProper = true := by
    intro t ht
    rw [List.eq_of_mem_replicate ht]
    exact Ty.isProper_of_isStored helement
  refine .bind (Expr.Formed.coerceAll h htypes) fun parts hparts => ?_
  rw [if_neg (by simp [Expr.anyPoison_eq_false hparts])]
  have hsized : (Ty.array ty.component (some arguments.length)).isStored = true := by
    rwa [Ty.isStored]
  exact .pure (foldConstructor_formed
    (Expr.formed_assemble.2 ⟨Ty.isProper_of_isStored hsized, hparts⟩) hsized)

theorem constructStruct_formed (hty : ty.isStored = true) (h : ∀ e ∈ arguments, e.Formed) :
    (constructStruct dialect span ty arguments).Ensures Expr.Formed := by
  have hproper := Ty.isProper_of_isStored hty
  unfold constructStruct
  dsimp only
  split
  · exact .refuse
  have htypes : ∀ t ∈ ty.fields.map FieldOf.ty, t.isProper = true := by
    intro t ht
    obtain ⟨f, hf, rfl⟩ := List.mem_map.1 ht
    obtain ⟨i, hi⟩ := List.mem_iff_getElem?.1 hf
    exact Ty.isProper_of_isStored (isStored_of_field hproper hi)
  refine .bind (Expr.Formed.coerceAll h htypes) fun parts hparts => ?_
  rw [if_neg (by simp [Expr.anyPoison_eq_false hparts])]
  exact .pure (foldConstructor_formed (Expr.formed_assemble.2 ⟨hproper, hparts⟩) hty)

theorem constructSingle?_formed {argument e : Expr} (hty : ty.isStored = true)
    (hshaped : ty.isShaped = true) (h : argument.Formed)
    (he : constructSingle? dialect span ty argument = some e) : e.Formed := by
  obtain ⟨s, hs⟩ := Ty.isShaped_component hshaped
  have hproper := Ty.isProper_of_isStored hty
  have hcast : ((argument.castUnlessSame ty).withSpan span).Formed :=
    (h.castUnlessSame hty).withSpan span
  have hconvert {conversion : Conversion} {t : Ty} (ht : t.isStored = true) :
      (foldConstructor dialect
        (.convert ⟨span, ty⟩ conversion (argument.castUnlessSame t))).Formed :=
    foldConstructor_formed (Expr.formed_convert.2 ⟨hproper, h.castUnlessSame ht⟩) hty
  unfold constructSingle? at he
  simp only [hs] at he
  split_ifs at he
  · obtain rfl := Option.some.inj he
    exact hcast
  · obtain rfl := Option.some.inj he
    exact hconvert rfl
  · obtain rfl := Option.some.inj he
    exact hconvert rfl
  · obtain rfl := Option.some.inj he
    exact hcast
  · obtain ⟨t, ht, he⟩ := Option.bind_eq_some_iff.1 he
    obtain rfl := Option.some.inj he
    have hscalar : (Ty.scalar s).isShaped = true := rfl
    exact hconvert (Ty.isStored_of_toCompound? hscalar ht).1

/-- No argument is a matrix, where the type is a vector of a scalar that has no matrices. -/
def takesParts (ty : Ty) (arguments : List Expr) : Bool :=
  match ty with
  | .vector s _ => s.hasMatrices || arguments.all (!·.ty.isMatrix)
  | _ => true

/-- A matrix that is a valid part of a type goes with matrices over its scalar. -/
theorem hasMatrices_of_part {part : Expr} {a s : Scalar} {columns rows : Nat}
    (hty : ty.isStored = true) (hshaped : ty.isShaped = true) (hs : ty.component = .scalar s)
    (hpart : part ∈ arguments) (hmatrix : part.ty = .matrix a columns rows)
    (hdims : 2 ≤ columns ∧ 2 ≤ rows)
    (htakes : takesParts ty arguments = true) (hvalid : isInvalidPart ty part.ty = false) :
    s.hasMatrices = true := by
  cases ty with
  | scalar s' =>
    have : 2 * 2 ≤ columns * rows := Nat.mul_le_mul hdims.1 hdims.2
    simp [isInvalidPart, hmatrix, Ty.isShaped, Ty.isMatrix, Ty.slotCount] at hvalid
    omega
  | vector s' n =>
    obtain rfl : s' = s := by simpa [Ty.component] using hs
    simp only [takesParts, Bool.or_eq_true, List.all_eq_true] at htakes
    refine htakes.resolve_right fun h => ?_
    simpa [hmatrix, Ty.isMatrix] using h part hpart
  | matrix s' c r =>
    obtain rfl : s' = s := by simpa [Ty.component] using hs
    simp only [Ty.isStored, Bool.and_eq_true] at hty
    exact hty.1.1.1.1
  | _ => cases hshaped

/-- The components of a part can be converted. -/
theorem toCompound?_of_part {part : Expr} (hty : ty.isStored = true) (hshaped : ty.isShaped = true)
    (hpart : part.Formed) (hmember : part ∈ arguments) (htakes : takesParts ty arguments = true)
    (hvalid : isInvalidPart ty part.ty = false) :
    ∃ t, ty.component.toCompound? part.ty.columns part.ty.rows = some t ∧ t.isStored = true := by
  obtain ⟨s, hs⟩ := Ty.isShaped_component hshaped
  have hscalar : (Ty.scalar s).isShaped = true := rfl
  suffices hsome : ∃ t, (Ty.scalar s).toCompound? part.ty.columns part.ty.rows = some t by
    obtain ⟨t, ht⟩ := hsome
    exact ⟨t, hs ▸ ht, (Ty.isStored_of_toCompound? hscalar ht).1⟩
  have hproper := hpart.isProper
  cases hpartTy : part.ty with
  | scalar a => exact ⟨_, rfl⟩
  | vector a n =>
    rw [hpartTy] at hproper
    have hdims := Ty.isStored_of_isShaped hproper rfl
    simp only [Ty.isStored, Bool.and_eq_true, decide_eq_true_eq] at hdims
    exact Ty.toCompound?_isSome hscalar (by simp [Ty.columns]; omega) hdims.2
  | matrix a c r =>
    rw [hpartTy] at hproper
    have hdims := Ty.isStored_of_isShaped hproper rfl
    simp only [Ty.isStored, Bool.and_eq_true, decide_eq_true_eq] at hdims
    obtain ⟨⟨⟨⟨-, hc⟩, hc'⟩, hr⟩, hr'⟩ := hdims
    have hmatrices :=
      hasMatrices_of_part hty hshaped hs hmember hpartTy ⟨hc, hr⟩ htakes hvalid
    have hrows : 1 < r := hr
    exact ⟨.matrix s c r, by
      simp [Ty.toCompound?, Ty.component, Ty.matrix?, Ty.columns, Ty.rows, *]⟩
  | _ => simp [isInvalidPart, hpartTy, Ty.isShaped] at hvalid

theorem compoundParts_formed {parts : List Expr} (hty : ty.isStored = true)
    (hshaped : ty.isShaped = true) (htakes : takesParts ty arguments = true)
    (hparts : ∀ e ∈ parts, e.Formed ∧ e ∈ arguments) :
    (compoundParts ty parts).Ensures fun converted =>
      ∃ es, converted = some es ∧ ∀ e ∈ es, e.Formed := by
  induction parts with
  | nil => exact .pure ⟨[], rfl, List.forall_mem_nil _⟩
  | cons part rest ih =>
    rw [List.forall_mem_cons] at hparts
    obtain ⟨⟨hpart, hmember⟩, hrest⟩ := hparts
    unfold compoundParts
    split
    · exact .refuse
    · rename_i hvalid
      obtain ⟨t, ht, hstored⟩ := toCompound?_of_part hty hshaped hpart hmember htakes
        (by simpa using hvalid)
      rw [ht]
      refine .bind (ih hrest) ?_
      rintro _ ⟨es, rfl, hes⟩
      exact .pure ⟨_, rfl, List.forall_mem_cons.2 ⟨hpart.castUnlessSame hstored, hes⟩⟩

theorem constructCompound_formed (hty : ty.isStored = true) (hshaped : ty.isShaped = true)
    (htakes : takesParts ty arguments = true) (h : ∀ e ∈ arguments, e.Formed) :
    (constructCompound dialect span ty arguments).Ensures Expr.Formed := by
  refine .bind (compoundParts_formed hty hshaped htakes fun e he => ⟨h e he, he⟩) ?_
  rintro _ ⟨es, rfl, hes⟩
  dsimp only
  split
  · exact .refuse
  · exact .pure (foldConstructor_formed
      (Expr.formed_assemble.2 ⟨Ty.isProper_of_isStored hty, hes⟩) hty)

/-- A constructor that is not reported is formed, unless it takes a matrix apart for a vector of
integers or booleans. -/
theorem construct_formed (hty : ty.isProper = true) (htakes : takesParts ty arguments = true)
    (h : ∀ e ∈ arguments, e.Formed) :
    (construct dialect span ty arguments).Ensures Expr.Formed := by
  have hpoison : ty.isPoison = false := by
    cases ty with
    | poison => cases hty
    | _ => rfl
  unfold construct
  rw [if_neg (by simp [Expr.anyPoison_eq_false h, hpoison])]
  split
  · rename_i harray
    have hstored : ty.isStored = true := by
      cases ty <;> simp_all [Ty.isArray, Ty.isProper, Ty.isVoid, Ty.isEffect]
    exact constructArray_formed hstored harray h
  split
  · rename_i hstruct
    have hstored : ty.isStored = true := by
      cases ty <;> simp_all [Ty.isStruct, Ty.isProper, Ty.isVoid, Ty.isEffect]
    exact constructStruct_formed hstored h
  split
  · rename_i hshaped
    have hstored := Ty.isStored_of_isShaped hty hshaped
    split
    · exact .refuse
    · rename_i argument
      split
      · rename_i e he
        have hargument := h argument (List.mem_singleton_self _)
        exact .pure (constructSingle?_formed hstored hshaped hargument he)
      · exact constructCompound_formed hstored hshaped htakes h
    · exact constructCompound_formed hstored hshaped htakes h
  · exact .refuse

/-! ## Calls -/

theorem isProper_of_member {t : Ty} (h : t ∈ ty.members) : t.isProper = true := by
  have hall (g : Generic) : ∀ t ∈ g.members, t.isProper = true := by cases g <;> decide
  cases ty with
  | generic g => exact hall g t h
  | _ => cases h

theorem resolveParameters_proper {pairs : List (Variable × Expr)} {chosen place : Option Nat}
    {types : List Ty}
    (hpairs : ∀ p ∈ pairs, p.1.ty.isGeneric = true ∨ p.1.ty.isProper = true)
    (h : resolveParameters chosen pairs = some (types, place)) :
    ∀ t ∈ types, t.isProper = true := by
  induction pairs generalizing chosen types with
  | nil =>
    cases h
    exact List.forall_mem_nil _
  | cons first rest ih =>
    obtain ⟨parameter, argument⟩ := first
    rw [List.forall_mem_cons] at hpairs
    unfold resolveParameters at h
    split at h
    · obtain ⟨i, -, h⟩ := Option.bind_eq_some_iff.1 h
      obtain ⟨t, ht, h⟩ := Option.bind_eq_some_iff.1 h
      obtain ⟨⟨others, _⟩, hothers, h⟩ := Option.bind_eq_some_iff.1 h
      cases h
      exact List.forall_mem_cons.2
        ⟨isProper_of_member (List.mem_of_getElem? ht), ih hpairs.2 hothers⟩
    · rename_i hgeneric
      obtain ⟨⟨others, _⟩, hothers, h⟩ := Option.bind_eq_some_iff.1 h
      cases h
      exact List.forall_mem_cons.2 ⟨hpairs.1.resolve_left hgeneric, ih hpairs.2 hothers⟩

theorem resolveSignature?_proper {f : FunctionDecl} {signature : Signature} (hf : f.Proper)
    (h : resolveSignature? f arguments = some signature) :
    (∀ t ∈ signature.parameters, t.isProper = true) ∧ signature.returns.isProper = true := by
  unfold resolveSignature? at h
  obtain ⟨⟨types, chosen⟩, htypes, h⟩ := Option.bind_eq_some_iff.1 h
  have hparameters : ∀ p ∈ f.parameters.zip arguments,
      p.1.ty.isGeneric = true ∨ p.1.ty.isProper = true :=
    fun p hp => hf.parameters p.1 (List.of_mem_zip hp).1
  have hproper := resolveParameters_proper hparameters htypes
  dsimp only at h
  split at h
  · obtain ⟨i, -, h⟩ := Option.bind_eq_some_iff.1 h
    obtain ⟨t, ht, h⟩ := Option.bind_eq_some_iff.1 h
    obtain rfl := Option.some.inj h
    exact ⟨hproper, isProper_of_member (List.mem_of_getElem? ht)⟩
  · rename_i hgeneric
    obtain rfl := Option.some.inj h
    exact ⟨hproper, hf.returns.resolve_left hgeneric⟩

theorem passArgument_formed {parameter : Variable} {argument : Expr} (hty : ty.isProper = true)
    (h : argument.Formed) :
    (passArgument parameter ty argument).Ensures fun passed => ∃ e, passed = some e ∧ e.Formed := by
  unfold passArgument
  split
  · split
    · exact .refuse
    · exact fun hquiet => ⟨_, h.markAssigned .pointer hquiet, h.withRefKind .pointer⟩
  · refine .bind (h.coerce hty) fun converted hconverted => .pure ⟨converted, ?_, hconverted⟩
    rw [if_neg (by simp [hconverted.isPoison])]

theorem passArguments_formed {triples : List ((Variable × Ty) × Expr)}
    (h : ∀ p ∈ triples, p.1.2.isProper = true ∧ p.2.Formed) :
    (passArguments triples).Ensures fun passed =>
      ∃ es, passed = some es ∧ ∀ e ∈ es, e.Formed := by
  induction triples with
  | nil => exact .pure ⟨[], rfl, List.forall_mem_nil _⟩
  | cons first rest ih =>
    obtain ⟨⟨parameter, ty⟩, argument⟩ := first
    rw [List.forall_mem_cons] at h
    refine .bind (passArgument_formed h.1.1 h.1.2) ?_
    rintro _ ⟨e, rfl, he⟩
    refine .bind (ih h.2) ?_
    rintro _ ⟨es, rfl, hes⟩
    exact .pure ⟨e :: es, rfl, List.forall_mem_cons.2 ⟨he, hes⟩⟩

theorem callFunction_formed {f : FunctionDecl} (hf : f.Proper) (h : ∀ e ∈ arguments, e.Formed) :
    (callFunction span f arguments).Ensures Expr.Formed := by
  unfold callFunction
  split
  · exact .refuse
  split
  · exact .refuse
  split
  · exact .refuse
  · rename_i signature hsignature
    obtain ⟨hparameters, hreturns⟩ := resolveSignature?_proper hf hsignature
    have htriples : ∀ p ∈ (f.parameters.zip signature.parameters).zip arguments,
        p.1.2.isProper = true ∧ p.2.Formed := by
      intro p hp
      obtain ⟨hpair, hargument⟩ := List.of_mem_zip hp
      exact ⟨hparameters _ (List.of_mem_zip hpair).2, h _ hargument⟩
    refine .bind (passArguments_formed htriples) ?_
    rintro _ ⟨es, rfl, hes⟩
    exact .pure (Expr.formed_call.2 ⟨hreturns, hes⟩)

theorem call_formed {overloads : List FunctionDecl} (hoverloads : ∀ f ∈ overloads, f.Proper)
    (h : ∀ e ∈ arguments, e.Formed) : (call span overloads arguments).Ensures Expr.Formed := by
  unfold call
  rw [if_neg (by simp [Expr.anyPoison_eq_false h])]
  split
  · exact callFunction_formed (hoverloads _ (List.mem_singleton_self _)) h
  · split
    · rename_i f hf
      obtain ⟨i, -, hi⟩ := Option.bind_eq_some_iff.1 hf
      exact callFunction_formed (hoverloads _ (List.mem_of_getElem? hi)) h
    · exact .refuse

theorem callChild_formed {kind : EffectKind} {child : Expr} (h : ∀ e ∈ arguments, e.Formed) :
    (callChild span kind child arguments).Ensures Expr.Formed := by
  have htypes : ∀ t ∈ childParameters kind, t.isProper = true := by cases kind <;> decide
  unfold callChild
  dsimp only
  split
  · split
    · exact .refuse
    · refine .bind (Expr.Formed.coerceAll h htypes) fun converted hconverted => ?_
      rw [if_neg (by simp [Expr.anyPoison_eq_false hconverted])]
      exact .pure (Expr.formed_childCall.2 ⟨rfl, hconverted⟩)
  · exact .refuse

theorem callMethod_formed {base : Expr} {name : String} (hbase : base.Formed)
    (h : ∀ e ∈ arguments, e.Formed) :
    (callMethod span base name arguments).Ensures Expr.Formed := by
  unfold callMethod
  dsimp only
  rw [if_neg (by simp [hbase.isPoison, Expr.anyPoison_eq_false h])]
  split
  · exact callChild_formed h
  · split
    · exact .pure (Expr.formed_literal.2 rfl)
    · exact .refuse
  · exact .refuse

/-! ## Every check -/

/-- The checks that build an expression from others. -/
inductive Check where
  | identifier (span : Span) (name : String) (symbol : Option Symbol)
  | element (base i : Expr) (place : Span)
  | member (base : Expr) (name : String) (place : Span)
  /-- A mask that starts with a digit, whatever it is applied to. -/
  | digits (base : Expr) (mask : String) (span : Span)
  | binary (left : Expr) (op : Operator) (right : Expr)
  | prefixed (place : Span) (op : Operator) (operand : Expr)
  | postfixed (operand : Expr) (op : Operator) (place : Span)
  | ternary (test ifTrue ifFalse : Expr) (place : Span)
  | construct (span : Span) (ty : Ty) (arguments : List Expr)
  | call (span : Span) (overloads : List FunctionDecl) (arguments : List Expr)
  | method (span : Span) (base : Expr) (name : String) (arguments : List Expr)

namespace Check

/-- The expressions that a check starts from. -/
def operands : Check → List Expr
  | identifier .. => []
  | element base i _ => [base, i]
  | member base .. | digits base .. => [base]
  | binary left _ right => [left, right]
  | prefixed _ _ operand | postfixed operand _ _ => [operand]
  | ternary test ifTrue ifFalse _ => [test, ifTrue, ifFalse]
  | construct _ _ arguments | call _ _ arguments => arguments
  | method _ base _ arguments => base :: arguments

/-- The outcome of a check. -/
def run (dialect : Dialect) : Check → Checked Expr
  | identifier span name symbol => Typing.identifier span name symbol
  | element base i place => Typing.element base i place
  | member base name place => Typing.member dialect base name place
  | digits base mask span => Typing.swizzle dialect base mask span
  | binary left op right => Typing.binary dialect left op right
  | prefixed place op operand => Typing.prefixOperation dialect place op operand
  | postfixed operand op place => Typing.postfixOperation operand op place
  | ternary test ifTrue ifFalse place => Typing.ternary dialect test ifTrue ifFalse place
  | construct span ty arguments => Typing.construct dialect span ty arguments
  | call span overloads arguments => Typing.call span overloads arguments
  | method span base name arguments => Typing.callMethod span base name arguments

/-- The names and types that a check refers to are proper.  Masks that start with a digit are on
scalars, vectors and matrices, and no matrix is taken apart for a vector that has no matrices. -/
def Applies : Check → Prop
  | identifier _ _ symbol => ∀ s ∈ symbol, s.Proper
  | digits base _ _ => base.ty.isShaped = true
  | construct _ ty arguments => ty.isProper = true ∧ takesParts ty arguments = true
  | call _ overloads _ => ∀ f ∈ overloads, f.Proper
  | _ => True

/-- A check of formed operands that reports nothing gives a formed expression. -/
theorem formed_of_unreported {c : Check} (happlies : c.Applies)
    (hoperands : ∀ e ∈ c.operands, e.Formed) (hquiet : (c.run dialect).reports = []) :
    (c.run dialect).value.Formed := by
  refine (show (c.run dialect).Ensures Expr.Formed from ?_) hquiet
  cases c with
  | identifier => exact identifier_formed happlies
  | element base i =>
    exact element_formed (hoperands base (by simp [operands])) (hoperands i (by simp [operands]))
  | member base => exact member_formed (hoperands base (by simp [operands]))
  | digits base => exact swizzle_formed (hoperands base (by simp [operands])) happlies
  | binary left op right =>
    exact binary_formed (hoperands left (by simp [operands]))
      (hoperands right (by simp [operands]))
  | prefixed place op operand =>
    exact prefixOperation_formed (hoperands operand (by simp [operands]))
  | postfixed operand => exact postfixOperation_formed (hoperands operand (by simp [operands]))
  | ternary test ifTrue ifFalse =>
    exact ternary_formed (hoperands test (by simp [operands]))
      (hoperands ifTrue (by simp [operands])) (hoperands ifFalse (by simp [operands]))
  | construct => exact construct_formed happlies.1 happlies.2 hoperands
  | call => exact call_formed happlies hoperands
  | method span base name arguments =>
    exact callMethod_formed (hoperands base (by simp [operands]))
      fun e he => hoperands e (by simp [operands, he])

end Check

/-- The value of a local variable. -/
def localValue (name : String) (ty : Ty) : Expr :=
  .ofVariable default ⟨1, name, ty, default, .local, default, false⟩ none

/-- The product of a matrix and a vector is formed. -/
theorem Check.formed_of_unreported_product :
    let c : Check := .binary (localValue "m" (.matrix .float 2 2)) .star (localValue "v" .float2)
    c.Applies ∧ (∀ e ∈ c.operands, e.Formed) ∧ (c.run ⟨.fragment, .standard⟩).reports = [] ∧
      (c.run ⟨.fragment, .standard⟩).value.Formed := by
  intro c
  have hoperands : ∀ e ∈ c.operands, e.Formed := by
    intro e he
    simp only [c, operands, List.mem_cons, List.not_mem_nil, or_false] at he
    rcases he with rfl | rfl <;> exact Expr.formed_reference.2 rfl
  have hquiet : (c.run ⟨.fragment, .standard⟩).reports = [] := by rfl
  exact ⟨trivial, hoperands, hquiet, Check.formed_of_unreported trivial hoperands hquiet⟩

/-! ## Failures that are not reported -/

/-- The constructor `int4(m)` of a matrix with two columns and rows. -/
def matrixIntoIntegers : Check :=
  .construct default (.vector .int 4) [localValue "m" (.matrix .float 2 2)]

/-- The mask `s.00` on a struct. -/
def digitsOfStruct : Check :=
  .digits (localValue "s" (.struct "S" [⟨"a", .float, default, default⟩] false)) "00" default

/-- Both fail without a report, and a `return` keeps what has failed. -/
theorem failures_unreported :
    let dialect : Dialect := ⟨.fragment, .standard⟩
    let f : FunctionDecl := ⟨2, "f", [], .vector .int 4, default, none, false, default⟩
    (∀ e ∈ matrixIntoIntegers.operands ++ digitsOfStruct.operands, e.Formed) ∧
      matrixIntoIntegers.run dialect = .clean (.poison default) ∧
      digitsOfStruct.run dialect = .clean (.poison default) ∧
      returnStatement default (some f) (some (matrixIntoIntegers.run dialect).value) =
        .clean (.returns default (some (.poison default))) := by
  intro dialect f
  refine ⟨?_, rfl, rfl, rfl⟩
  intro e he
  simp only [matrixIntoIntegers, digitsOfStruct, Check.operands, List.cons_append,
    List.nil_append, List.mem_cons, List.not_mem_nil, or_false] at he
  rcases he with rfl | rfl <;> exact Expr.formed_reference.2 rfl

end Typing

end RasterShader
