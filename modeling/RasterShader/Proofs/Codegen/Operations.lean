import Mathlib
import RasterShader.Proofs.Codegen.ConstantTree
import RasterShader.Proofs.Constant.Folding
import RasterShader.Proofs.Typing.Operands

/-!
# Operations on constants, folded and run
-/

namespace RasterShader

open Gen Builder Constant

/-! ## Constants have no effects -/

namespace Expr

mutual

/-- No node of a constant changes anything. -/
theorem isEffect_of_constant (e : Expr) {values : List Float}
    (h : e.constantValue? = some values) : ∀ node ∈ e.nodes, node.isEffect = false := by
  cases e with
  | literal | reference =>
    intro node hnode
    rw [List.mem_singleton.1 hnode]
    rfl
  | prefixed h op x =>
    cases op with
    | minus =>
      obtain ⟨inner, hinner, -⟩ := Option.bind_eq_some_iff.1 h
      exact List.forall_mem_cons.2 ⟨rfl, isEffect_of_constant x hinner⟩
    | _ => simp [constantValue?] at h
  | field _ base _ | swizzle _ base _ | convert _ _ base =>
    rw [constantValue?] at h
    obtain ⟨inner, hinner, -⟩ := Option.bind_eq_some_iff.1 h
    exact List.forall_mem_cons.2 ⟨rfl, isEffect_of_constant base hinner⟩
  | index _ base i =>
    rw [constantValue?] at h
    obtain ⟨inner, hinner, hrest⟩ := Option.bind_eq_some_iff.1 h
    obtain ⟨n, hn, -⟩ := Option.bind_eq_some_iff.1 hrest
    obtain ⟨place, hplace, -⟩ := Option.bind_eq_some_iff.1 hn
    refine List.forall_mem_cons.2 ⟨rfl, List.forall_mem_append.2 ⟨?_, ?_⟩⟩
    · exact isEffect_of_constant base hinner
    · exact isEffect_of_constant i hplace
  | assemble _ _ parts =>
    rw [constantValue?] at h
    exact List.forall_mem_cons.2 ⟨rfl, isEffect_of_constants parts h⟩
  | _ => simp [constantValue?] at h

theorem isEffect_of_constants (parts : List Expr) {values : List Float}
    (h : constantValues? parts = some values) :
    ∀ node ∈ nodesOfAll parts, node.isEffect = false := by
  match parts with
  | [] => simp [nodesOfAll]
  | e :: rest =>
    rw [constantValues?] at h
    obtain ⟨first, hfirst, hrest⟩ := Option.bind_eq_some_iff.1 h
    obtain ⟨others, hothers, -⟩ := Option.bind_eq_some_iff.1 hrest
    exact List.forall_mem_append.2 ⟨isEffect_of_constant e hfirst, isEffect_of_constants rest hothers⟩

end

/-- Evaluating a constant changes nothing. -/
theorem hasSideEffects_of_constant {e : Expr} {values : List Float}
    (h : e.constantValue? = some values) : e.hasSideEffects = false :=
  List.any_eq_false.2 fun node hnode => by simp [isEffect_of_constant e h node hnode]

end Expr

/-! ## Arithmetic -/

namespace Operand

variable {declared : Constants} {op : Operator} {kind : NumberKind} {ty : NumType} {result : Ty}
  {n : Nat} {x y : Operand} {g g' : Gen} {ws xs ys : List UInt32}

theorem lift_ok_bind {α : Type} (a : α) (k : α → GenM Unit) :
    ((liftM (Except.ok a : Except Unsupported α) : GenM α) >>= k) = k a :=
  funext fun _ => rfl

theorem ofKind_eq (h : kind.IsInteger ∨ kind = .boolean) (ty : Ty) :
    NumType.ofKind kind ty = .ok kind.integerType := by
  obtain (rfl | rfl) | rfl := h <;> rfl

theorem leaves_pushSplatted (hx : Leaves declared x.push ws) (hslots : x.slots = ws.length)
    (hws : ws.length = n ∨ ws.length = 1) (hn : 0 < n) :
    Leaves declared (x.pushSplatted n) (splatted n ws) := by
  rw [pushSplatted]
  by_cases hsplat : x.slots = 1 ∧ 1 < n
  · rw [if_pos hsplat]
    obtain ⟨word, rfl⟩ := List.length_eq_one_iff.1 (hslots.symm.trans hsplat.1)
    have hduplicates := Turns.pushDuplicates word (n - 1)
    rw [Nat.sub_add_cancel hn] at hduplicates
    exact hx.replaces (.build hduplicates)
  · rw [if_neg hsplat, bind_pure, splatted_of_length (by omega)]
    exact hx

theorem zipWith_remainder (ty : NumType) (xs ys : List UInt32) :
    List.zipWith (BinaryOp.sub.eval ty) xs
        (List.zipWith (BinaryOp.mul.eval ty) ys (List.zipWith (BinaryOp.div.eval ty) xs ys)) =
      List.zipWith (arithmeticWord .percent ty) xs ys := by
  induction xs generalizing ys with
  | nil => rw [List.zipWith_nil_left, List.zipWith_nil_left]
  | cons x xs ih =>
    cases ys with
    | nil => rw [List.zipWith_nil_left, List.zipWith_nil_right, List.zipWith_nil_right]
    | cons y ys =>
      rw [List.zipWith_cons_cons, List.zipWith_cons_cons, List.zipWith_cons_cons,
        List.zipWith_cons_cons, ih ys, arithmeticWord]

/-- The difference of the dividend and the product of the divisor and the quotient. -/
theorem turns_remainder (ty : NumType) (hxs : xs.length = n) (hys : ys.length = n) :
    Turns (fun b =>
      (((b.pushClone (2 * n) (2 * n)).binary .div ty n).binary .mul ty n).binary .sub ty n)
      (xs ++ ys) (List.zipWith (arithmeticWord .percent ty) xs ys) := by
  have hboth : (xs ++ ys).length = 2 * n := by
    rw [List.length_append, hxs, hys]
    omega
  have hclone : Turns (·.pushClone (2 * n) (2 * n)) (xs ++ ys) (xs ++ ys ++ (xs ++ ys)) := by
    have hcopy := @Turns.pushClone (xs ++ ys) (2 * n) (2 * n) le_rfl hboth.ge
    rw [← hboth, Nat.sub_self, List.drop_zero, List.take_length] at hcopy
    rwa [hboth] at hcopy
  have hquotients : (List.zipWith (BinaryOp.div.eval ty) xs ys).length = n := by simp [hxs, hys]
  have hproducts : (List.zipWith (BinaryOp.mul.eval ty) ys
      (List.zipWith (BinaryOp.div.eval ty) xs ys)).length = n := by simp [hxs, hys]
  have hdiv := (Turns.binary .div ty hxs hys).below (xs ++ ys)
  have hmul := (Turns.binary .mul ty hys hquotients).below xs
  rw [← List.append_assoc] at hmul
  have hsub := Turns.binary .sub ty hxs hproducts
  rw [zipWith_remainder] at hsub
  exact ((hclone.comp hdiv).comp hmul).comp hsub

/-- The code of an arithmetic operation on integers, where there is some. -/
theorem replaces_applyArithmetic (integer : ty ≠ .float) (hxs : xs.length = n)
    (hys : ys.length = n) (lowers : applyArithmetic op ty n g = .ok ((), g')) :
    Replaces (applyArithmetic op ty n) (xs ++ ys) (List.zipWith (arithmeticWord op ty) xs ys) := by
  cases op with
  | plus => exact .build (.binary .add ty hxs hys)
  | minus => exact .build (.binary .sub ty hxs hys)
  | star => exact .build (.binary .mul ty hxs hys)
  | slash => exact .build (.binary .div ty hxs hys)
  | percent =>
    rw [applyArithmetic, if_neg (by simpa using integer)]
    exact .build (turns_remainder ty hxs hys)
  | bitwiseAnd => exact .build (.binary .bitwiseAnd .int hxs hys)
  | bitwiseOr => exact .build (.binary .bitwiseOr .int hxs hys)
  | bitwiseXor => exact .build (.binary .bitwiseXor .int hxs hys)
  | _ => cases lowers

theorem arithmetic_eq (integer : result.numberKind.IsInteger)
    (linear : isMatrixProduct x.ty y.ty = false) : arithmetic op x y result =
      (x.pushSplatted result.slotCount >>= fun _ => y.pushSplatted result.slotCount) >>= fun _ =>
        applyArithmetic op result.numberKind.integerType result.slotCount := by
  rw [arithmetic, pushArithmetic, linear, Bool.and_false, NumType.ofTy, ofKind_eq (.inl integer)]
  simp only [Bool.false_eq_true, if_false, lift_ok_bind, bind_assoc]

/-- There is no code for shifts. -/
theorem not_shift_of_arithmetic (integer : result.numberKind.IsInteger)
    (linear : isMatrixProduct x.ty y.ty = false)
    (lowers : arithmetic op x y result g = .ok ((), g')) : op ≠ .shl ∧ op ≠ .shr := by
  rw [arithmetic_eq integer linear] at lowers
  obtain ⟨-, g₁, -, happly⟩ := GenM.bind_eq_ok.1 lowers
  constructor <;> rintro rfl <;> cases happly

/-- Arithmetic on scalars and vectors of integers, a scalar going with every component. -/
theorem leaves_arithmetic (integer : result.numberKind.IsInteger) (hn : 0 < result.slotCount)
    (hx : Leaves declared x.push xs) (hxslots : x.slots = xs.length)
    (hxs : xs.length = result.slotCount ∨ xs.length = 1) (hy : Leaves declared y.push ys)
    (hyslots : y.slots = ys.length) (hys : ys.length = result.slotCount ∨ ys.length = 1)
    (linear : isMatrixProduct x.ty y.ty = false)
    (lowers : arithmetic op x y result g = .ok ((), g')) :
    Leaves declared (arithmetic op x y result)
      (List.zipWith (arithmeticWord op result.numberKind.integerType)
        (splatted result.slotCount xs) (splatted result.slotCount ys)) := by
  have hboth := (leaves_pushSplatted hx hxslots hxs hn).seq (leaves_pushSplatted hy hyslots hys hn)
  rw [arithmetic_eq integer linear] at lowers ⊢
  obtain ⟨-, g₁, -, happly⟩ := GenM.bind_eq_ok.1 lowers
  refine hboth.replaces (replaces_applyArithmetic ?_ (length_splatted hxs) (length_splatted hys)
    happly)
  obtain hkind | hkind := integer <;> rw [hkind] <;> decide

/-! ## Comparisons -/

/-- The code of a binary operation on two scalars. -/
theorem leaves_scalars {u v : UInt32} (binaryOp : BinaryOp) (ty : NumType)
    (hx : Leaves declared x.push [u]) (hy : Leaves declared y.push [v]) :
    Leaves declared (do x.push; y.push; build (·.binary binaryOp ty 1))
      [binaryOp.eval ty u v] := by
  have hboth := (hx.seq hy).replaces (.build (@Turns.binary [u] [v] 1 binaryOp ty rfl rfl))
  rwa [bind_assoc] at hboth

/-! ## Equality -/

theorem runs_replicate (ty : NumType) (hn : 0 < n) : runs (List.replicate n ty) = [(ty, n)] := by
  have hchain : (List.replicate n ty).IsChain fun a b => (a == b) = true :=
    List.isChain_replicate_of_rel n (beq_self_eq_true ty)
  rw [runs, List.splitBy_of_isChain (by simp; omega) hchain]
  obtain ⟨m, rfl⟩ := Nat.exists_eq_succ_of_ne_zero hn.ne'
  simp [List.replicate_succ]

/-- Whether two values are equal or not. -/
def truth (equal b : Bool) : UInt32 := Word.ofBool (b == equal)

/-- Conjunction of equalities, and disjunction of inequalities. -/
def foldOp (equal : Bool) : BinaryOp := if equal then .bitwiseAnd else .bitwiseOr

theorem eval_foldOp (equal p q : Bool) :
    (foldOp equal).eval .int (truth equal p) (truth equal q) = truth equal (p && q) := by
  cases equal <;> cases p <;> cases q <;> decide

theorem zipWith_foldOp (equal : Bool) (us vs : List Bool) :
    List.zipWith ((foldOp equal).eval .int) (us.map (truth equal)) (vs.map (truth equal)) =
      (List.zipWith and us vs).map (truth equal) := by
  rw [List.zipWith_map, List.map_zipWith]
  simp only [eval_foldOp]

theorem all_zipWith_and (us vs : List Bool) (h : us.length = vs.length) :
    (List.zipWith and us vs).all id = (us.all id && vs.all id) := by
  induction us generalizing vs with
  | nil =>
    obtain rfl := List.length_eq_zero_iff.1 h.symm
    rfl
  | cons u us ih =>
    obtain _ | ⟨v, vs⟩ := vs
    · cases h
    · simp only [List.zipWith_cons_cons, List.all_cons, id, ih vs (Nat.succ.inj h)]
      cases u <;> cases v <;> simp

/-- Halving the number of truth values keeps whether they are all true. -/
theorem turns_foldBooleans (equal : Bool) (bs : List Bool) (hbs : bs.length = n) (hn : 0 < n) :
    Turns (foldBooleans (foldOp equal) n) (bs.map (truth equal)) [truth equal (bs.all id)] := by
  induction n using Nat.strongRecOn generalizing bs with
  | ind n ih =>
    by_cases hone : n ≤ 1
    · obtain ⟨b, rfl⟩ := List.length_eq_one_iff.1 (show bs.length = 1 by omega)
      have hid : foldBooleans (foldOp equal) n = id := by
        funext b
        rw [foldBooleans, if_pos hone, id]
      rw [hid]
      simpa using Turns.refl [truth equal b]
    · have hstep : foldBooleans (foldOp equal) n = fun b =>
          foldBooleans (foldOp equal) (n - n / 2) (b.binary (foldOp equal) .int (n / 2)) := by
        funext b
        rw [foldBooleans, if_neg hone]
      -- what stays, and the two halves that are combined
      let rest := bs.take (n - 2 * (n / 2))
      let us := (bs.drop (n - 2 * (n / 2))).take (n / 2)
      let vs := (bs.drop (n - 2 * (n / 2))).drop (n / 2)
      have hus : us.length = n / 2 := by simp [us, hbs]; omega
      have hvs : vs.length = n / 2 := by simp [vs, hbs]; omega
      have hsplit : bs = rest ++ (us ++ vs) := by simp [rest, us, vs]
      have hcombined : (rest ++ List.zipWith and us vs).length = n - n / 2 := by
        simp [rest, hus, hvs, hbs]
        omega
      have hbinary := (Turns.binary (foldOp equal) .int
        ((List.length_map (truth equal)).trans hus)
        ((List.length_map (truth equal)).trans hvs)).below (rest.map (truth equal))
      rw [zipWith_foldOp, ← List.map_append, ← List.map_append, ← List.map_append, ← hsplit]
        at hbinary
      have hall : (rest ++ List.zipWith and us vs).all id = bs.all id := by
        rw [hsplit, List.all_append, List.all_append, List.all_append,
          all_zipWith_and us vs (hus.trans hvs.symm)]
      have hrest := ih (n - n / 2) (by omega) _ hcombined (by omega)
      rw [hall] at hrest
      rw [hstep]
      exact hbinary.comp hrest

theorem mapM_replicate (kind : NumberKind) (ty : Ty) (hkind : kind.IsInteger ∨ kind = .boolean)
    (n : Nat) : (List.replicate n kind).mapM (fun kind => (NumType.ofKind kind ty : GenM NumType)) =
      pure (List.replicate n kind.integerType) := by
  induction n with
  | zero => rfl
  | succ n ih =>
    rw [List.replicate_succ, List.mapM_cons, ih, ofKind_eq hkind]
    rfl

/-- Equality or inequality of scalars or vectors, which is one run of comparisons. -/
theorem leaves_equality {equal : Bool} (shaped : x.ty.isShaped = true)
    (hkind : x.ty.numberKind.IsInteger ∨ x.ty.numberKind = .boolean) (hn : 0 < x.slots)
    (hx : Leaves declared x.push xs) (hxs : xs.length = x.slots)
    (hy : Leaves declared y.push ys) (hys : ys.length = x.slots) :
    Leaves declared (equality x y (!equal))
      [truth equal ((List.zipWith (fun u v => decide (u = v)) xs ys).all id)] := by
  let comparison : BinaryOp := if equal then .cmpEq else .cmpNe
  have hcode : equality x y (!equal) = (x.push >>= fun _ => y.push) >>= fun _ =>
      build fun b => foldBooleans (foldOp equal) x.slots
        (b.binary comparison x.ty.numberKind.integerType x.slots) := by
    have hruns := runs_replicate x.ty.numberKind.integerType (show 0 < x.ty.slotCount from hn)
    cases equal <;>
      simp only [equality, Ty.slotKinds_of_isShaped shaped, mapM_replicate _ _ hkind, pure_bind,
        hruns, bind_assoc, Bool.not_false, Bool.not_true, Bool.false_eq_true, if_true, if_false,
        comparison, foldOp]
  have hcompared : List.zipWith (comparison.eval x.ty.numberKind.integerType) xs ys =
      (List.zipWith (fun u v => decide (u = v)) xs ys).map (truth equal) := by
    rw [List.map_zipWith]
    congr
    funext u v
    cases equal with
    | true => simp [comparison, NumberKind.eval_cmpEq, truth]
    | false => simp [comparison, NumberKind.eval_cmpNe, truth]
  have hbinary := Turns.binary comparison x.ty.numberKind.integerType hxs hys
  rw [hcompared] at hbinary
  rw [hcode]
  exact (hx.seq hy).replaces (.build (hbinary.comp (turns_foldBooleans equal _
    (by simp [hxs, hys]) hn)))

end Operand

/-! ## Folded operations -/

namespace Constant

variable {span : Span} {left right e : Expr} {op : Operator} {result : Ty} {a b : List Float}

/-- What a folded operation is. -/
theorem foldBinary_eq_ok (h : foldBinary span left op right result = .ok (some e))
    (hleft : left.constantValue? = some a) (hright : right.constantValue? = some b) :
    (op.isAssignment = false ∧ op ≠ .comma ∧ left.ty.isLinear = true ∧ right.ty.isLinear = true) ∧
      (op.isEquality = true ∧
          e = .boolean span (((a.zip b).all fun p => p.1 == p.2) == (op == .eqEq)) ∨
        op.isLogical = true ∧
          e = .boolean span (connect op (a.head?.getD 0.0 != 0.0) (b.head?.getD 0.0 != 0.0)) ∨
        op.isRelational = true ∧
          e = .boolean span (compare op (a.head?.getD 0.0) (b.head?.getD 0.0)) ∨
        (op.isEquality = false ∧ op.isLogical = false ∧ op.isRelational = false) ∧
          ∃ values, foldComponents op result.numberKind (pairUp a b) = .ok (some values) ∧
            e = .ofConstant span values result) := by
  unfold foldBinary at h
  by_cases hnone : (op.isAssignment || op == .comma || !left.ty.isLinear || !right.ty.isLinear) = true
  · cases (if_pos hnone).symm.trans h
  replace h := (if_neg hnone).symm.trans h
  simp only [Bool.or_eq_true, Bool.not_eq_true', not_or, Bool.not_eq_true, Bool.not_eq_false]
    at hnone
  refine ⟨⟨hnone.1.1.1, by simpa using hnone.1.1.2, hnone.1.2, hnone.2⟩, ?_⟩
  simp only [hleft, hright] at h
  split_ifs at h with hequality hlengths hlogical hrelational hscalars
  · cases h
  · exact .inl ⟨hequality, (Option.some.inj (Except.ok.inj h)).symm⟩
  · exact .inr (.inl ⟨hlogical, (Option.some.inj (Except.ok.inj h)).symm⟩)
  · cases h
  · exact .inr (.inr (.inl ⟨hrelational, (Option.some.inj (Except.ok.inj h)).symm⟩))
  · refine .inr (.inr (.inr ⟨⟨by simpa using hequality, by simpa using hlogical,
      by simpa using hrelational⟩, ?_⟩))
    cases hfold : foldComponents op result.numberKind (pairUp a b) with
    | error err => simp [hfold, bind, Except.bind] at h
    | ok folded =>
      rw [hfold] at h
      obtain ⟨values, rfl, rfl⟩ := Option.map_eq_some_iff.1 (Except.ok.inj h)
      exact ⟨values, rfl, rfl⟩

end Constant

namespace Expr.Evaluates

variable {declared : Constants} {ctx : CodeContext} {x left right : Expr} {op : Operator}
  {result : Ty} {values a b : List Float} {g g' : Gen}

/-- The value and the words of a scalar or vector. -/
theorem linear (hx : x.Evaluates declared ctx values) (linear : x.ty.isLinear = true) :
    values.length = (x.operand ctx).slots ∧ (∀ v ∈ values, x.ty.numberKind.Holds v) ∧
      Leaves declared (x.operand ctx).push (values.map (literalBits · x.ty.numberKind)) := by
  have shaped := Ty.isShaped_of_isLinear linear
  have hpush := hx.push
  rw [constantBits_of_isShaped shaped hx.length_eq] at hpush
  refine ⟨?_, ((stored_iff_of_isShaped shaped).1 hx.stored).2, hpush⟩
  rw [Operand.slots, operand_ty, hx.length_eq]

theorem leaves_equality (hleft : left.Evaluates declared ctx a)
    (hright : right.Evaluates declared ctx b) (hop : op.isEquality = true)
    (hl : left.ty.isLinear = true) (hr : right.ty.isLinear = true)
    (hkind : left.ty.numberKind.IsInteger ∨ left.ty.numberKind = .boolean)
    (agree : OperandTypes.Agree ⟨left.ty, right.ty, result⟩ op) :
    Leaves declared (Operand.binary ctx result op left right (left.operand ctx) (right.operand ctx))
      [Word.ofBool (((a.zip b).all fun p => p.1 == p.2) == (op == .eqEq))] := by
  have hagree : left.ty.numberKind = right.ty.numberKind ∧
      left.ty.slotCount = right.ty.slotCount ∧ 0 < left.ty.slotCount := by
    cases op <;> first | exact agree | cases hop
  obtain ⟨hkinds, hslots, hpos⟩ := hagree
  obtain ⟨ha, haholds, hpusha⟩ := hleft.linear hl
  obtain ⟨hb, hbholds, hpushb⟩ := hright.linear hr
  have hcode : Operand.binary ctx result op left right (left.operand ctx) (right.operand ctx) =
      Operand.equality (left.operand ctx) (right.operand ctx) (!(op == .eqEq)) := by
    cases op <;> first | rfl | cases hop
  have hequal : (a.zip b).all (fun p => p.1 == p.2) =
      (List.zipWith (fun u v => decide (u = v)) (a.map (literalBits · left.ty.numberKind))
        (b.map (literalBits · right.ty.numberKind))).all id := by
    rw [List.zipWith_map, ← List.map_uncurry_zip_eq_zipWith, List.all_map]
    rw [Bool.eq_iff_iff, List.all_eq_true, List.all_eq_true]
    refine forall₂_congr fun p hp => ?_
    have hp' := List.of_mem_zip hp
    rw [beq_eq_words hkind (haholds _ hp'.1) (hkinds ▸ hbholds _ hp'.2), ← hkinds]
    rfl
  rw [hcode, hequal]
  refine Operand.leaves_equality ?_ ?_ ?_ hpusha ?_ hpushb ?_
  · rw [operand_ty]
    exact Ty.isShaped_of_isLinear hl
  · rwa [operand_ty]
  · rwa [Operand.slots, operand_ty]
  · rw [List.length_map, ha]
  · rw [List.length_map, hb, Operand.slots, Operand.slots, operand_ty, operand_ty, hslots]

theorem leaves_connective (hleft : left.Evaluates declared ctx a)
    (hright : right.Evaluates declared ctx b) (hop : op.isLogical = true)
    (agree : OperandTypes.Agree ⟨left.ty, right.ty, result⟩ op) :
    Leaves declared (Operand.binary ctx result op left right (left.operand ctx) (right.operand ctx))
      [Word.ofBool (connect op (a.head?.getD 0.0 != 0.0) (b.head?.getD 0.0 != 0.0))] := by
  have hagree : left.ty = .bool ∧ right.ty = .bool := by
    cases op <;> first | exact agree | cases hop
  obtain ⟨hl, hr⟩ := hagree
  obtain ⟨u, rfl, -, hu⟩ := hleft.scalar (by rw [hl]; rfl)
  obtain ⟨v, rfl, -, hv⟩ := hright.scalar (by rw [hr]; rfl)
  have hpusha := hleft.push
  have hpushb := hright.push
  rw [hu, hl] at hpusha
  rw [hv, hr] at hpushb
  have heffects := hasSideEffects_of_constant hright.value
  rw [connect_word]
  cases op with
  | logicalAnd =>
    simp only [Operand.binary, heffects, Bool.false_eq_true, if_false]
    exact Operand.leaves_scalars .bitwiseAnd .int hpusha hpushb
  | logicalOr =>
    simp only [Operand.binary, heffects, Bool.false_eq_true, if_false]
    exact Operand.leaves_scalars .bitwiseOr .int hpusha hpushb
  | logicalXor => exact Operand.leaves_scalars .cmpNe .int hpusha hpushb
  | _ => cases hop

theorem leaves_relation (hleft : left.Evaluates declared ctx a)
    (hright : right.Evaluates declared ctx b) (hop : op.isRelational = true)
    (agree : OperandTypes.Agree ⟨left.ty, right.ty, result⟩ op) :
    Leaves declared (Operand.binary ctx result op left right (left.operand ctx) (right.operand ctx))
      [Word.ofBool (Constant.compare op (a.head?.getD 0.0) (b.head?.getD 0.0))] := by
  have hagree : left.ty.isScalar = true ∧ right.ty.isScalar = true ∧
      left.ty.numberKind.IsInteger ∧ right.ty.numberKind = left.ty.numberKind := by
    cases op <;> first | exact agree | cases hop
  obtain ⟨hl, hr, integer, hkinds⟩ := hagree
  obtain ⟨u, rfl, huholds, hu⟩ := hleft.scalar hl
  obtain ⟨v, rfl, hvholds, hv⟩ := hright.scalar hr
  have hpusha := hleft.push
  have hpushb := hright.push
  rw [hu] at hpusha
  rw [hv, hkinds] at hpushb
  rw [hkinds] at hvholds
  have hslots : (left.operand ctx).slots = 1 := by
    rw [Operand.slots, operand_ty, ← hleft.length_eq]
    rfl
  have hsame : left.hasSideEffects = false ∧ right.hasSideEffects = false :=
    ⟨hasSideEffects_of_constant hleft.value, hasSideEffects_of_constant hright.value⟩
  have hcompare (binaryOp : BinaryOp) : Operand.compare binaryOp (left.operand ctx)
      (right.operand ctx) = (do
        (left.operand ctx).push
        (right.operand ctx).push
        build (·.binary binaryOp left.ty.numberKind.integerType 1)) := by
    rw [Operand.compare, NumType.ofTy, operand_ty, Operand.ofKind_eq (.inl integer), hslots,
      Operand.lift_ok_bind]
  have hswapped (binaryOp : BinaryOp) : Operand.compareSwapped binaryOp (left.operand ctx)
      (right.operand ctx) (left.hasSideEffects || right.hasSideEffects) = (do
        (right.operand ctx).push
        (left.operand ctx).push
        build (·.binary binaryOp left.ty.numberKind.integerType 1)) := by
    rw [Operand.compareSwapped, NumType.ofTy, operand_ty, Operand.ofKind_eq (.inl integer), hslots,
      Operand.lift_ok_bind, hsame.1, hsame.2]
    simp only [Bool.or_false, Bool.false_eq_true, if_false]
  rw [List.head?_cons, List.head?_cons, Option.getD_some, Option.getD_some,
    compare_word integer huholds hvholds]
  cases op with
  | lt =>
    rw [Operand.binary, hcompare]
    exact Operand.leaves_scalars .cmpLt _ hpusha hpushb
  | ltEq =>
    rw [Operand.binary, hcompare]
    exact Operand.leaves_scalars .cmpLe _ hpusha hpushb
  | gt =>
    rw [Operand.binary, hswapped]
    exact Operand.leaves_scalars .cmpLt _ hpushb hpusha
  | gtEq =>
    rw [Operand.binary, hswapped]
    exact Operand.leaves_scalars .cmpLe _ hpushb hpusha
  | _ => cases hop

theorem leaves_arithmetic (hleft : left.Evaluates declared ctx a)
    (hright : right.Evaluates declared ctx b)
    (hop : op.isEquality = false ∧ op.isLogical = false ∧ op.isRelational = false)
    (assigns : op.isAssignment = false) (comma : op ≠ .comma) (hl : left.ty.isLinear = true)
    (hr : right.ty.isLinear = true) (shares : OperandTypes.Shares ⟨left.ty, right.ty, result⟩)
    (integer : result.numberKind.IsInteger)
    (lowers : Operand.binary ctx result op left right (left.operand ctx) (right.operand ctx) g =
      .ok ((), g')) :
    (op ≠ .shl ∧ op ≠ .shr) ∧ (pairUp a b).length = result.slotCount ∧
      (∀ p ∈ pairUp a b, result.numberKind.Holds p.1 ∧ result.numberKind.Holds p.2) ∧
      Leaves declared
        (Operand.binary ctx result op left right (left.operand ctx) (right.operand ctx))
        ((pairUp a b).map fun p => arithmeticWord op result.numberKind.integerType
          (literalBits p.1 result.numberKind) (literalBits p.2 result.numberKind)) := by
  obtain ⟨ha, haholds, hpusha⟩ := hleft.linear hl
  obtain ⟨hb, hbholds, hpushb⟩ := hright.linear hr
  obtain ⟨-, hlkind, hrkind, hpos, hlslots, hrslots, heither⟩ := shares
  simp only at hlkind hrkind hpos hlslots hrslots heither
  rw [hlkind] at haholds hpusha
  rw [hrkind] at hbholds hpushb
  rw [← hleft.length_eq] at hlslots heither
  rw [← hright.length_eq] at hrslots heither
  have hcode : Operand.binary ctx result op left right (left.operand ctx) (right.operand ctx) =
      Operand.arithmetic op (left.operand ctx) (right.operand ctx) result := by
    cases op <;> first | rfl | simp [Operator.isEquality, Operator.isLogical,
      Operator.isRelational, Operator.isAssignment] at hop assigns comma
  have hmatrix {ty : Ty} (linear : ty.isLinear = true) : ty.isMatrix = false := by
    cases ty <;> first | rfl | cases linear
  have hproduct : Operand.isMatrixProduct (left.operand ctx).ty (right.operand ctx).ty = false := by
    rw [Operand.isMatrixProduct, operand_ty, operand_ty, hmatrix hl, hmatrix hr]
    rfl
  have hpairs := pairUp_eq_zip hlslots hrslots heither
  rw [hcode] at lowers ⊢
  refine ⟨Operand.not_shift_of_arithmetic integer hproduct lowers, ?_, fun p hp => ?_, ?_⟩
  · rw [hpairs, List.length_zip, length_splatted hlslots, length_splatted hrslots, min_self]
  · rw [hpairs] at hp
    have hp' := List.of_mem_zip hp
    exact ⟨haholds _ (mem_of_mem_splatted hp'.1), hbholds _ (mem_of_mem_splatted hp'.2)⟩
  · have hcode := Operand.leaves_arithmetic integer hpos hpusha (by rw [List.length_map, ha])
      (by rwa [List.length_map]) hpushb (by rw [List.length_map, hb]) (by rwa [List.length_map])
      hproduct lowers
    rw [← map_splatted, ← map_splatted, List.zipWith_map, ← List.map_uncurry_zip_eq_zipWith,
      ← hpairs] at hcode
    exact hcode

/-- A folded truth value has the word that is left, and there is no quotient to overflow. -/
theorem folded_truth {act : GenM Unit} (span : Span) {t : Bool} (kind : NumberKind)
    (a b : List Float) (hop : ¬(op = .slash ∨ op = .percent))
    (leaves : Leaves declared act [Word.ofBool t]) :
    ∃ values words, (boolean span t).constantValue? = some values ∧ Leaves declared act words ∧
      (constantBits (boolean span t).ty values = words ↔
        ∀ p ∈ pairUp a b, ¬Overflows kind op p) := by
  obtain ⟨v, hv, hbits⟩ := constantValue?_boolean span t
  exact ⟨[v], [Word.ofBool t], hv, leaves, iff_of_true hbits fun p _ h => hop h.2.1⟩

/-- A folded operation on integers or booleans has the words that its code leaves unless a quotient
overflows. -/
theorem folded_iff {span : Span} {l r : Ty} {e : Expr} (hleft : left.Evaluates declared ctx a)
    (hright : right.Evaluates declared ctx b) (hl : l.isProper = true) (hr : r.isProper = true)
    (types : OperandTypes.ofOperation op l r = some ⟨left.ty, right.ty, result⟩)
    (notFloat : left.ty.numberKind ≠ .float)
    (folded : foldBinary span left op right result = .ok (some e))
    (lowers : Operand.binary ctx result op left right (left.operand ctx) (right.operand ctx) g =
      .ok ((), g')) :
    ∃ values words, e.constantValue? = some values ∧
      Leaves declared
        (Operand.binary ctx result op left right (left.operand ctx) (right.operand ctx)) words ∧
      (constantBits e.ty values = words ↔
        ∀ p ∈ pairUp a b, ¬Overflows result.numberKind op p) := by
  obtain ⟨⟨assigns, comma, hllinear, hrlinear⟩, hcases⟩ :=
    foldBinary_eq_ok folded hleft.value hright.value
  have agree := OperandTypes.ofOperation_agree hl hr hllinear hrlinear notFloat assigns comma types
  obtain ⟨hop, rfl⟩ | ⟨hop, rfl⟩ | ⟨hop, rfl⟩ | ⟨hop, values, hvalues, rfl⟩ := hcases
  · refine folded_truth span _ a b (by rintro (rfl | rfl) <;> cases hop) ?_
    exact hleft.leaves_equality hright hop hllinear hrlinear
      (Ty.kind_of_isLinear hllinear notFloat) agree
  · refine folded_truth span _ a b (by rintro (rfl | rfl) <;> cases hop) ?_
    exact hleft.leaves_connective hright hop agree
  · refine folded_truth span _ a b (by rintro (rfl | rfl) <;> cases hop) ?_
    exact hleft.leaves_relation hright hop agree
  · obtain ⟨shares, integer⟩ : OperandTypes.Shares ⟨left.ty, right.ty, result⟩ ∧
        result.numberKind.IsInteger := by
      cases op <;> first
        | exact agree
        | simp [Operator.isEquality, Operator.isLogical, Operator.isRelational] at hop
    have linear : result.isLinear = true := shares.result
    obtain ⟨hshift, hcount, hpairs, hleaves⟩ := hleft.leaves_arithmetic hright hop assigns comma
      hllinear hrlinear shares integer lowers
    obtain ⟨hlength, -, hwords⟩ := foldComponents_words integer hpairs hshift hvalues
    rw [hcount] at hlength
    obtain ⟨hvalue, hty⟩ := constantValue?_ofConstant span (Bool.or_eq_true_iff.1 linear) hlength
    refine ⟨values, _, hvalue, hleaves, ?_⟩
    rw [hty, constantBits_of_isShaped (Ty.isShaped_of_isLinear linear) hlength, hwords]

end Expr.Evaluates

/-- An operation on constants that are scalars or vectors of integers or booleans is folded to the
words that its code leaves on the stack, unless it is a division, or a remainder, of the least
signed integer by -1 in some component. -/
theorem Operand.binary_leaves_folded_iff {declared : Constants} {ctx : CodeContext}
    {left right e : Expr} {op : Operator} {l r result : Ty} {a b : List Float} {span : Span}
    {g g' : Gen} (leftTree : left.ConstantTree declared) (rightTree : right.ConstantTree declared)
    (leftValue : left.constantValue? = some a) (rightValue : right.constantValue? = some b)
    (leftProper : l.isProper = true) (rightProper : r.isProper = true)
    (types : OperandTypes.ofOperation op l r = some ⟨left.ty, right.ty, result⟩)
    (notFloat : left.ty.numberKind ≠ .float)
    (folded : foldBinary span left op right result = .ok (some e))
    (lowers : Operand.binary ctx result op left right (left.operand ctx) (right.operand ctx) g =
      .ok ((), g')) :
    ∃ values words, e.constantValue? = some values ∧
      Leaves declared
        (Operand.binary ctx result op left right (left.operand ctx) (right.operand ctx)) words ∧
      (constantBits e.ty values = words ↔
        ∀ p ∈ pairUp a b, ¬Overflows result.numberKind op p) := by
  obtain ⟨a', hleft⟩ := leftTree.evaluates ctx
  obtain ⟨b', hright⟩ := rightTree.evaluates ctx
  obtain rfl : a' = a := Option.some.inj (hleft.value.symm.trans leftValue)
  obtain rfl : b' = b := Option.some.inj (hright.value.symm.trans rightValue)
  exact hleft.folded_iff hright leftProper rightProper types notFloat folded lowers

/-- An integer literal. -/
def intLiteral (n : Int) : Expr := .literal ⟨default, .int⟩ (Float.ofInt n)

theorem holds_intLiteral {n : Int} (h : NumberKind.signed.InRange n) :
    NumberKind.signed.Holds (Float.ofInt n) := by
  have hlt := h.natAbs_lt
  exact ⟨n, Double.isInt_ofInt (by omega), h⟩

/-- The remainders of the vector `int2(7, -9)` and 2. -/
theorem Operand.binary_leaves_folded_iff_remainders :
    let ctx : CodeContext := .ofDepth ⟨⟨.fragment, unoptimizedSettings⟩, "", [], []⟩ default 0
    let ints : Ty := .vector .int 2
    let left : Expr := .assemble ⟨default, ints⟩ .compound [intLiteral 7, intLiteral (-9)]
    let right := intLiteral 2
    let e := Expr.ofConstant default [Float.ofInt 1, Float.ofInt (-1)] ints
    OperandTypes.ofOperation .percent ints .int = some ⟨left.ty, right.ty, ints⟩ ∧
      foldBinary default left .percent right ints = .ok (some e) ∧
      ∃ values words, e.constantValue? = some values ∧
        Leaves (fun _ => none)
          (Operand.binary ctx ints .percent left right (left.operand ctx) (right.operand ctx)) words ∧
        constantBits e.ty values = words := by
  intro ctx ints left right e
  have hliteral : ∀ n : Int, NumberKind.signed.InRange n →
      (intLiteral n).ConstantTree fun _ => none := fun n hn => .literal rfl (holds_intLiteral hn)
  have hleft : left.ConstantTree fun _ => none := by
    refine .assemble (fun part hpart => ?_) rfl
    obtain rfl | rfl : part = intLiteral 7 ∨ part = intLiteral (-9) := by simpa using hpart
    · exact hliteral 7 (by decide)
    · exact hliteral (-9) (by decide)
  have hright : right.ConstantTree fun _ => none := hliteral 2 (by decide)
  obtain ⟨values, words, hvalues, hleaves, hiff⟩ :=
    @Operand.binary_leaves_folded_iff _ ctx left right e .percent ints .int ints _ _ default
      (Gen.start false) _ hleft hright rfl rfl rfl rfl rfl (by decide) rfl rfl
  exact ⟨rfl, rfl, values, words, hvalues, hleaves, hiff.2 (by decide +kernel)⟩

/-- The remainder of the least signed integer and -1 is folded to zero; its code, which has the
quotient be zero, leaves the dividend. -/
theorem Operand.binary_leaves_least_dividend :
    let ctx : CodeContext := .ofDepth ⟨⟨.fragment, unoptimizedSettings⟩, "", [], []⟩ default 0
    let left := intLiteral (-2147483648)
    let right := intLiteral (-1)
    foldBinary default left .percent right .int = .ok (some (intLiteral 0)) ∧
      constantBits .int [Float.ofInt 0] = [0] ∧
      Leaves (fun _ => none)
        (Operand.binary ctx .int .percent left right (left.operand ctx) (right.operand ctx))
        [0x80000000] := by
  intro ctx left right
  have hliteral : ∀ n : Int, NumberKind.signed.InRange n →
      (intLiteral n).Evaluates (fun _ => none) ctx [Float.ofInt n] :=
    fun n hn => .literal rfl (holds_intLiteral hn)
  have shares : OperandTypes.Shares ⟨left.ty, right.ty, .int⟩ :=
    ⟨rfl, rfl, rfl, by decide, .inl rfl, .inl rfl, .inl rfl⟩
  obtain ⟨-, -, -, hleaves⟩ := @Expr.Evaluates.leaves_arithmetic _ ctx left right .percent .int _ _
    (Gen.start false) _ (hliteral _ (by decide)) (hliteral _ (by decide)) ⟨rfl, rfl, rfl⟩ rfl
    (by decide) rfl rfl shares (.inl rfl) rfl
  refine ⟨rfl, by decide +kernel, ?_⟩
  have hword : (pairUp [Float.ofInt (-2147483648)] [Float.ofInt (-1)]).map (fun p =>
      arithmeticWord .percent NumberKind.signed.integerType (literalBits p.1 .signed)
        (literalBits p.2 .signed)) = [0x80000000] := by decide +kernel
  exact hword ▸ hleaves

end RasterShader
