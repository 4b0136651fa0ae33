import Mathlib
import RasterShader.Proofs.Arithmetic.Conversion
import RasterShader.Proofs.Code.Words
import RasterShader.Proofs.Codegen.Operations

/-!
# Equality of whole values

Two values are equal if each slot of one is equal to the corresponding slot of the other under the
kind of the slot (`NumberKind.Same`): as floats, which a NaN never is and zeros of either sign always
are (`Word.feq_iff`), or bit by bit.

The code compares runs of slots of one number type, through clones of both values when there are
several runs, and combines the results in halves.  `Operand.equality_leaves_verdict` says that it
leaves one truth value in place of both values, whatever their kinds are, and that it writes no slot
but one that was free.  Each step is shown for what it does to the words on top
(`onWords_foldBooleans`, `onWords_compareRuns`); the lanes are told apart all the way.
-/

namespace RasterShader

open Float.Model

/-! ## Equality of floats -/

namespace Unpacked

/-- Equal floats are the same number, or zeros of any signs. -/
theorem beq_iff (x y : UnpackedFloat) :
    x.beq y = true ↔ x ≠ .notANumber ∧ (x = y ∨ IsZero x ∧ IsZero y) := by
  have hsign : ∀ s : UnpackedFloat.Sign, compare s s = Ordering.eq := by rintro ⟨⟩ <;> rfl
  rcases x with (_ | _) | _ | _ | ⟨_ | _, m, e, hm⟩ <;>
    rcases y with (_ | _) | _ | _ | ⟨_ | _, n, k, hn⟩ <;>
    simp [UnpackedFloat.beq, UnpackedFloat.compare, IsZero, Ordering.then_eq_eq, and_comm, hsign]

end Unpacked

namespace Word

open Unpacked

theorem isZero_unpacked_iff (x : UInt32) : IsZero (unpacked x) ↔ magnitude x = 0 := by
  have hmagnitude : magnitude x = 0 ↔ x.toNat % 2 ^ 31 = 0 := by
    rw [← UInt32.toNat_inj, toNat_magnitude]
    rfl
  have hsignificand : ∀ s m e, IsZero (ofSignificand s m e) ↔ m = 0 := by
    intro s m e
    unfold ofSignificand
    split <;> simp [IsZero, *]
  rw [hmagnitude, unpacked_eq]
  split
  · split <;> simp [IsZero] <;> omega
  · split <;> rw [hsignificand] <;> omega

/-- The bits of a number can be told from the number. -/
theorem pack_unpacked {x : UInt32} (h : isNaN x = false) :
    (unpacked x).pack Format.binary32 = x.toBitVec := by
  refine pack_unpack (by decide) ⟨fun hexponent hmantissa => ?_⟩
  have hnan : unpacked x = .notANumber := by
    have hexponent : (@UnpackedFloat.unpackExponent Format.binary32 x.toBitVec).toNat = 2 ^ 8 - 1 :=
      congrArg BitVec.toNat hexponent
    have hmantissa : (@UnpackedFloat.unpackMantissa Format.binary32 x.toBitVec).toNat ≠ 0 :=
      fun hzero => hmantissa (BitVec.eq_of_toNat_eq hzero)
    rw [unpacked, unpack_eq, if_pos hexponent, if_neg hmantissa]
  rw [(isNaN_iff x).2 hnan] at h
  cases h

/-- Words are equal floats if neither is a NaN, and they are the same or both zeros. -/
theorem feq_iff (x y : UInt32) :
    feq x y = true ↔
      isNaN x = false ∧ isNaN y = false ∧ (x = y ∨ magnitude x = 0 ∧ magnitude y = 0) := by
  have hbeq : feq x y = (unpacked x).beq (unpacked y) := by
    rw [← unpack_toModel_ofBits, ← unpack_toModel_ofBits]
    rfl
  have hnumber : ∀ z, isNaN z = false ↔ unpacked z ≠ .notANumber := fun z => by
    rw [← Bool.not_eq_true, isNaN_iff]
  rw [hbeq, beq_iff, isZero_unpacked_iff, isZero_unpacked_iff, ← hnumber]
  constructor
  · rintro ⟨hx, heq | hzero⟩
    · have hy : isNaN y = false := by rwa [hnumber, ← heq, ← hnumber]
      refine ⟨hx, hy, .inl (UInt32.eq_of_toBitVec_eq ?_)⟩
      rw [← pack_unpacked hx, heq, pack_unpacked hy]
    · refine ⟨hx, ?_, .inr hzero⟩
      rw [isNaN, hzero.2]
      rfl
  · rintro ⟨hx, -, rfl | hzero⟩
    · exact ⟨hx, .inl rfl⟩
    · exact ⟨hx, .inr hzero⟩

end Word

/-! ## Equality of words of a kind -/

namespace NumberKind

/-- Words are equal under a kind: floats as numbers, others bit by bit. -/
def Same (kind : NumberKind) (x y : UInt32) : Prop :=
  match kind with
  | .float =>
    Word.isNaN x = false ∧ Word.isNaN y = false ∧
      (x = y ∨ Word.magnitude x = 0 ∧ Word.magnitude y = 0)
  | _ => x = y

instance (kind : NumberKind) (x y : UInt32) : Decidable (kind.Same x y) := by
  unfold Same
  cases kind <;> infer_instance

/-- How the machine reads the words of a kind. -/
def numType (kind : NumberKind) : NumType := if kind = .float then .float else kind.integerType

theorem ofKind_eq_numType {kind : NumberKind} (h : kind ≠ .nonnumeric) (ty : Ty) :
    NumType.ofKind kind ty = .ok kind.numType := by
  cases kind with
  | nonnumeric => exact absurd rfl h
  | _ => rfl

end NumberKind

namespace Words

variable {lanes : Nat}

/-- In a lane, the words of two values are equal, each under its kind. -/
def Agree (kinds : List NumberKind) (xs ys : List (Vector UInt32 lanes)) (lane : Fin lanes) : Prop :=
  ∀ p ∈ kinds.zip (xs.zip ys), p.1.Same (p.2.1.get lane) (p.2.2.get lane)

instance (kinds : List NumberKind) (xs ys : List (Vector UInt32 lanes)) (lane : Fin lanes) :
    Decidable (Agree kinds xs ys lane) := by
  unfold Agree
  infer_instance

end Words

namespace Operand

open Gen Builder

variable {lanes : Nat}

/-! ## Truth values that differ between lanes -/

/-- The word of a truth value per lane. -/
def truths (equal : Bool) (b : Fin lanes → Bool) : Vector UInt32 lanes :=
  Vector.ofFn fun lane => truth equal (b lane)

/-- The comparison of one pair of words. -/
def comparison (equal : Bool) : BinaryOp := if equal then .cmpEq else .cmpNe

/-- Words that a comparison of a number type takes to be equal. -/
def equalWords (ty : NumType) (x y : UInt32) : Bool :=
  match ty with
  | .float => Word.feq x y
  | _ => x == y

theorem eval_comparison (equal : Bool) (ty : NumType) (x y : UInt32) :
    (comparison equal).eval ty x y = truth equal (equalWords ty x y) := by
  cases equal <;> cases ty <;> simp [comparison, BinaryOp.eval, BinaryOp.evalFloat,
    BinaryOp.evalInt, BinaryOp.evalUint, truth, equalWords, Word.ofBool]

theorem equalWords_numType {kind : NumberKind} (h : kind ≠ .nonnumeric) (x y : UInt32) :
    equalWords kind.numType x y = true ↔ kind.Same x y := by
  cases kind with
  | nonnumeric => exact absurd rfl h
  | float => exact Word.feq_iff x y
  | _ => exact beq_iff_eq

/-- In each lane, whether words are equal. -/
def equalLanes (ty : NumType) (x y : Vector UInt32 lanes) (lane : Fin lanes) : Bool :=
  equalWords ty (x.get lane) (y.get lane)

theorem zipWith_comparison (equal : Bool) (ty : NumType) (x y : Vector UInt32 lanes) :
    Vector.zipWith ((comparison equal).eval ty) x y = truths equal (equalLanes ty x y) := by
  apply Vector.ext
  intro i hi
  simp [truths, equalLanes, eval_comparison, Vector.get]

theorem zipWith_truths (equal : Bool) (a b : Fin lanes → Bool) :
    Vector.zipWith ((foldOp equal).eval .int) (truths equal a) (truths equal b) =
      truths equal fun lane => a lane && b lane := by
  apply Vector.ext
  intro i hi
  simp [truths, eval_foldOp]

/-- The truth value, in each lane, of all of them. -/
def allOf (bs : List (Fin lanes → Bool)) (lane : Fin lanes) : Bool := bs.all (· lane)

/-- Halving the number of truth values keeps whether they are all true. -/
theorem onWords_foldBooleans (equal : Bool) {n : Nat} (hn : 0 < n) :
    OnWords (foldBooleans (foldOp equal) n) fun us vs =>
      ∃ bs, bs.length = n ∧ us = bs.map (truths equal) ∧ vs = [truths equal (allOf bs)] := by
  induction n using Nat.strongRecOn with
  | ind n ih =>
    by_cases hone : n ≤ 1
    · have hid : foldBooleans (foldOp equal) n = id := by
        funext b
        rw [foldBooleans, if_pos hone, id]
      rw [hid]
      refine OnWords.refl.mono ?_
      rintro lanes _ _ ⟨bs, hlength, rfl, rfl⟩
      obtain ⟨b, rfl⟩ := List.length_eq_one_iff.1 (show bs.length = 1 by omega)
      have hb : allOf [b] = b := by
        funext lane
        simp [allOf]
      rw [hb, List.map_singleton]
    · have hstep : foldBooleans (foldOp equal) n = fun b =>
          foldBooleans (foldOp equal) (n - n / 2) (b.binary (foldOp equal) .int (n / 2)) := by
        funext b
        rw [foldBooleans, if_neg hone]
      rw [hstep]
      refine ((OnWords.binary (foldOp equal) .int (n / 2)).below.comp
        (ih (n - n / 2) (by omega) (by omega))).mono ?_
      rintro lanes _ _ ⟨bs, hlength, rfl, rfl⟩
      -- what stays, and the two halves that are combined
      obtain ⟨rest, as, cs, rfl, has, hcs⟩ : ∃ rest as cs, bs = rest ++ (as ++ cs) ∧
          as.length = n / 2 ∧ cs.length = n / 2 := by
        refine ⟨bs.take (n - 2 * (n / 2)), (bs.drop (n - 2 * (n / 2))).take (n / 2),
          (bs.drop (n - 2 * (n / 2))).drop (n / 2), by simp, ?_, ?_⟩
        · simp [hlength]
          omega
        · simp [hlength]
          omega
      simp only [List.length_append] at hlength
      let both : List (Fin lanes → Bool) := List.zipWith (fun a c lane => a lane && c lane) as cs
      have hboth : both.length = n / 2 := by simp [both, has, hcs]
      refine ⟨(rest ++ both).map (truths equal), ⟨rest.map (truths equal), (as ++ cs).map (truths equal),
        both.map (truths equal), List.map_append, List.map_append, as.map (truths equal),
        cs.map (truths equal), List.map_append, by simpa using has, by simpa using hcs, ?_⟩,
        rest ++ both, by rw [List.length_append]; omega, rfl, ?_⟩
      · rw [List.zipWith_map, List.map_zipWith]
        simp only [zipWith_truths]
      · congr 2
        funext lane
        have hand : both.all (· lane) = (as.all (· lane) && cs.all (· lane)) := by
          have hmap := all_zipWith_and (as.map (· lane)) (cs.map (· lane)) (by simp [has, hcs])
          rw [List.zipWith_map, List.all_map, List.all_map] at hmap
          have hlane : both.all (· lane) = (both.map (· lane)).all id := by
            rw [List.all_map]
            rfl
          rw [hlane, List.map_zipWith]
          exact hmap
        simp [allOf, List.all_append, hand]

/-! ## Runs of one number type -/

/-- For each pair of words, in each lane, whether they are equal under a number type. -/
def agreement (types : List NumType) (xs ys : List (Vector UInt32 lanes)) :
    List (Fin lanes → Bool) :=
  (types.zip (xs.zip ys)).map fun p => equalLanes p.1 p.2.1 p.2.2

/-- The truth value of each run. -/
def verdicts : List (NumType × Nat) → (xs ys : List (Vector UInt32 lanes)) → List (Fin lanes → Bool)
  | [], _, _ => []
  | (ty, run) :: rest, xs, ys =>
    allOf (List.zipWith (equalLanes ty) (xs.take run) (ys.take run)) ::
      verdicts rest (xs.drop run) (ys.drop run)

theorem length_verdicts (runs : List (NumType × Nat)) (xs ys : List (Vector UInt32 lanes)) :
    (verdicts runs xs ys).length = runs.length := by
  induction runs generalizing xs ys with
  | nil => rfl
  | cons run rest ih => rw [verdicts, List.length_cons, List.length_cons, ih]

/-- The types of all slots of some runs. -/
def expand (runs : List (NumType × Nat)) : List NumType :=
  runs.flatMap fun run => List.replicate run.2 run.1

/-- The runs of a list of types have the types of the list. -/
theorem expand_runs (types : List NumType) : expand (runs types) = types := by
  have hgroups : ∀ groups : List (List NumType),
      (∀ group ∈ groups, ∃ ty rest, group = ty :: rest ∧ ∀ x ∈ rest, x = ty) →
      expand (groups.filterMap fun run => run.head?.map fun kind => (kind, run.length)) =
        groups.flatten := by
    intro groups
    induction groups with
    | nil => exact fun _ => rfl
    | cons group groups ih =>
      intro h
      simp only [List.mem_cons, forall_eq_or_imp] at h
      obtain ⟨⟨ty, rest, rfl, hrest⟩, h⟩ := h
      have hgroup : List.replicate (ty :: rest).length ty = ty :: rest := by
        rw [List.length_cons, List.replicate_succ, ← List.eq_replicate_iff.2 ⟨rfl, hrest⟩]
      rw [List.flatten_cons, ← ih h]
      exact congrArg (· ++ _) hgroup
  rw [runs, hgroups, List.flatten_splitBy]
  intro group hmem
  obtain ⟨ty, rest, rfl⟩ := List.exists_cons_of_ne_nil (List.ne_nil_of_mem_splitBy hmem)
  have hchain := List.isChain_of_mem_splitBy hmem
  simp only [beq_iff_eq] at hchain
  exact ⟨ty, rest, rfl, fun x hx => ((List.pairwise_cons.1 hchain.pairwise).1 x hx).symm⟩

theorem agreement_replicate (ty : NumType) {n : Nat} {xs ys : List (Vector UInt32 lanes)}
    (hxs : xs.length = n) (hys : ys.length = n) :
    agreement (List.replicate n ty) xs ys = List.zipWith (equalLanes ty) xs ys := by
  apply List.ext_getElem
  · simp [agreement, hxs, hys]
  · intro i hi hi'
    simp [agreement]

theorem allOf_append (bs cs : List (Fin lanes → Bool)) (lane : Fin lanes) :
    allOf (bs ++ cs) lane = (allOf bs lane && allOf cs lane) := List.all_append

/-- The verdicts of all runs are true if all words are equal. -/
theorem allOf_verdicts (runs : List (NumType × Nat)) {xs ys : List (Vector UInt32 lanes)}
    (hxs : xs.length = (expand runs).length) (hys : ys.length = (expand runs).length)
    (lane : Fin lanes) :
    allOf (verdicts runs xs ys) lane = allOf (agreement (expand runs) xs ys) lane := by
  induction runs generalizing xs ys with
  | nil => simp [verdicts, agreement, expand, allOf]
  | cons run rest ih =>
    obtain ⟨ty, run⟩ := run
    have hexpand : expand ((ty, run) :: rest) = List.replicate run ty ++ expand rest := rfl
    rw [hexpand, List.length_append, List.length_replicate] at hxs hys
    have htake : ∀ zs : List (Vector UInt32 lanes), zs.length = run + (expand rest).length →
        (zs.take run).length = run := by
      intro zs hzs
      rw [List.length_take]
      omega
    have hsplit : agreement (List.replicate run ty ++ expand rest) xs ys =
        agreement (List.replicate run ty) (xs.take run) (ys.take run) ++
          agreement (expand rest) (xs.drop run) (ys.drop run) := by
      conv_lhs => rw [← List.take_append_drop run xs, ← List.take_append_drop run ys]
      rw [agreement, List.zip_append (by rw [htake _ hxs, htake _ hys]), List.zip_append,
        List.map_append]
      · rfl
      · rw [List.length_zip, htake _ hxs, htake _ hys, List.length_replicate, Nat.min_self]
    have hdrop := @ih (xs.drop run) (ys.drop run) (by rw [List.length_drop]; omega)
      (by rw [List.length_drop]; omega)
    rw [hexpand, hsplit, allOf_append, agreement_replicate ty (htake _ hxs) (htake _ hys), ← hdrop]
    simp [verdicts, allOf]

/-- Comparing runs leaves a truth value for each of them, and both values further down. -/
theorem onWords_compareRuns (equal : Bool) (n : Nat) {runs : List (NumType × Nat)}
    (hpos : ∀ run ∈ runs, 0 < run.2) {offset results : Nat}
    (hfits : offset + (expand runs).length ≤ n) :
    OnWords (compareRuns (comparison equal) (foldOp equal) n offset results runs)
      fun {lanes} us vs => ∃ xs ys rs : List (Vector UInt32 lanes), xs.length = n ∧ ys.length = n ∧
        rs.length = results ∧ us = xs ++ ys ++ rs ∧
        vs = us ++ (verdicts runs (xs.drop offset) (ys.drop offset)).map (truths equal) := by
  induction runs generalizing offset results with
  | nil =>
    refine OnWords.refl.mono ?_
    rintro lanes us _ ⟨xs, ys, rs, -, -, -, -, rfl⟩
    simp [verdicts]
  | cons run rest ih =>
    obtain ⟨ty, run⟩ := run
    have hrun : 0 < run := hpos _ (List.mem_cons_self ..)
    have hexpand : (expand ((ty, run) :: rest)).length = run + (expand rest).length := by
      simp [expand]
    rw [hexpand] at hfits
    have hrest := @ih (fun r hr => hpos r (List.mem_cons_of_mem _ hr)) (offset + run) (results + 1)
      (by omega)
    refine (((((OnWords.pushClone run (2 * n + results - offset)).comp
      (OnWords.pushClone run (n + results + run - offset))).comp
      (OnWords.binary (comparison equal) ty run).below).comp
      (onWords_foldBooleans equal hrun).below).comp hrest).mono ?_
    rintro lanes _ _ ⟨xs, ys, rs, hxs, hys, hrs, rfl, rfl⟩
    have hlength : (xs ++ ys ++ rs).length = 2 * n + results := by
      simp only [List.length_append]
      omega
    -- the part of either value that is compared
    have hleft : ((xs ++ ys ++ rs).drop offset).take run = (xs.drop offset).take run := by
      rw [List.append_assoc, List.drop_append_of_le_length (by omega),
        List.take_append_of_le_length (by rw [List.length_drop]; omega)]
    have hright : ((xs ++ ys ++ rs ++ (xs.drop offset).take run).drop (n + offset)).take run =
        (ys.drop offset).take run := by
      rw [List.append_assoc, List.append_assoc, ← hxs, List.drop_length_add_append,
        List.drop_append_of_le_length (by omega),
        List.take_append_of_le_length (by rw [List.length_drop]; omega)]
    have hparts : ∀ zs : List (Vector UInt32 lanes), zs.length = n →
        ((zs.drop offset).take run).length = run := by
      intro zs hzs
      rw [List.length_take, List.length_drop]
      omega
    let bs : List (Fin lanes → Bool) :=
      List.zipWith (equalLanes ty) ((xs.drop offset).take run) ((ys.drop offset).take run)
    have hcompared : List.zipWith (Vector.zipWith ((comparison equal).eval ty))
        ((xs.drop offset).take run) ((ys.drop offset).take run) = bs.map (truths equal) := by
      rw [List.map_zipWith, ← funext₂ (zipWith_comparison equal ty)]
    refine ⟨xs ++ ys ++ rs ++ [truths equal (allOf bs)], ⟨xs ++ ys ++ rs ++ bs.map (truths equal),
      ⟨xs ++ ys ++ rs ++ (xs.drop offset).take run ++ (ys.drop offset).take run,
        ⟨xs ++ ys ++ rs ++ (xs.drop offset).take run, ⟨by omega, by omega, ?_⟩,
          by omega, ?_, ?_⟩, ?_⟩, ?_⟩, ?_⟩
    · rw [hlength, show 2 * n + results - (2 * n + results - offset) = offset by omega, hleft]
    · rw [List.length_append, hlength, hparts xs hxs]
      omega
    · rw [List.length_append, hlength, hparts xs hxs,
        show 2 * n + results + run - (n + results + run - offset) = n + offset by omega, hright]
    · exact ⟨xs ++ ys ++ rs, _, _, List.append_assoc .., rfl, _, _, rfl, hparts xs hxs,
        hparts ys hys, hcompared.symm⟩
    · exact ⟨xs ++ ys ++ rs, _, _, rfl, rfl, bs,
        by simp [bs, hparts xs hxs, hparts ys hys], rfl, rfl⟩
    · refine ⟨xs, ys, rs ++ [truths equal (allOf bs)], hxs, hys, by simp [hrs],
        List.append_assoc .., ?_⟩
      simp [verdicts, bs, List.drop_drop]

theorem allOf_agreement {kinds : List NumberKind} (numeric : ∀ kind ∈ kinds, kind ≠ .nonnumeric)
    (xs ys : List (Vector UInt32 lanes)) (lane : Fin lanes) :
    allOf (agreement (kinds.map NumberKind.numType) xs ys) lane =
      decide (Words.Agree kinds xs ys lane) := by
  rw [Bool.eq_iff_iff, decide_eq_true_iff, allOf, List.all_eq_true, agreement, List.zip_map_left,
    List.map_map, List.forall_mem_map]
  refine forall₂_congr fun p hp => ?_
  exact equalWords_numType (numeric _ (List.of_mem_zip hp).1) _ _

/-! ## The verdict -/

/-- The truth value that is left, in each lane: whether all words are equal, or whether they are
not. -/
def verdict (negated : Bool) (kinds : List NumberKind) (xs ys : List (Vector UInt32 lanes)) :
    Vector UInt32 lanes :=
  Vector.ofFn fun lane => Word.ofBool (decide (Words.Agree kinds xs ys lane) != negated)

/-- The verdict on inequality is the complement of that on equality. -/
theorem verdict_true (kinds : List NumberKind) (xs ys : List (Vector UInt32 lanes)) :
    verdict true kinds xs ys = (verdict false kinds xs ys).map (~~~ ·) := by
  apply Vector.ext
  intro i hi
  have hnot : ∀ b : Bool, Word.ofBool (!b) = ~~~Word.ofBool b := by decide
  simp [verdict, hnot]

theorem truths_allOf_agreement {kinds : List NumberKind}
    (numeric : ∀ kind ∈ kinds, kind ≠ .nonnumeric) (negated : Bool)
    (xs ys : List (Vector UInt32 lanes)) :
    truths (!negated) (allOf (agreement (kinds.map NumberKind.numType) xs ys)) =
      verdict negated kinds xs ys := by
  apply Vector.ext
  intro i hi
  have hnegated : ∀ b : Bool, truth (!negated) b = Word.ofBool (b != negated) := by
    rintro ⟨⟩ <;> cases negated <;> rfl
  simp [truths, verdict, allOf_agreement numeric, hnegated]

/-- Compares two values of `n` words on the stack. -/
def compareTop (equal : Bool) (n : Nat) (types : List NumType) : GenM Unit :=
  match runs types with
  | [] => build fun b => (b.discard (2 * n)).pushConstant (Word.ofBool equal) 1
  | [(kind, _)] =>
    build fun b => foldBooleans (foldOp equal) n (b.binary (comparison equal) kind n)
  | runs => do
    build fun b => foldBooleans (foldOp equal) runs.length
      (compareRuns (comparison equal) (foldOp equal) n 0 0 runs b)
    let range ← scratch .bool
    build fun b => ((b.popSlotsUnmasked range).discard (2 * n)).pushSlots .value range

theorem mapM_ofKind {kinds : List NumberKind} (numeric : ∀ kind ∈ kinds, kind ≠ .nonnumeric)
    (ty : Ty) : kinds.mapM (fun kind => (NumType.ofKind kind ty : GenM NumType)) =
      pure (kinds.map NumberKind.numType) := by
  induction kinds with
  | nil => rfl
  | cons kind kinds ih =>
    simp only [List.mem_cons, forall_eq_or_imp] at numeric
    rw [List.mapM_cons, ih numeric.2, NumberKind.ofKind_eq_numType numeric.1]
    rfl

theorem equality_eq {left right : Operand}
    (numeric : ∀ kind ∈ left.ty.slotKinds, kind ≠ .nonnumeric) (negated : Bool) :
    equality left right negated = ((do left.push; right.push) >>= fun _ =>
      compareTop (!negated) left.slots (left.ty.slotKinds.map NumberKind.numType)) := by
  unfold equality compareTop
  rw [mapM_ofKind numeric]
  rw [bind_assoc]
  cases negated <;> rfl

/-- Code for a comparison was generated.  It takes two values of words of given kinds off the stack,
and leaves a truth value; it writes no slot but new ones. -/
structure LeavesVerdict (g g' : Gen) (negated : Bool) (kinds : List NumberKind) : Prop where
  later : g.Later g'
  code : ∃ ops : List Op, (∀ op ∈ ops, Call.isData op = true) ∧
    (∀ valueSlots, Call.Follows valueSlots g'.builder (Call.addAll g.builder ops)) ∧
    ∀ {lanes : Nat} (host : HostCall → Registers lanes → Registers lanes) (batch : Batch lanes)
      (s : Int) (σ : StackMachine lanes) (xs ys : List (Vector UInt32 lanes)),
      xs.length = kinds.length → ys.length = kinds.length →
      g'.values.next ≤ σ.memory.values.size →
      ∃ m, σ.memory.SameBelow g.values.next m ∧
        Op.Takes host batch σ.memory.values.size s ops (σ.push s (xs ++ ys))
          (StackMachine.push { σ with memory := m } s [verdict negated kinds xs ys])

/-- A comparison that is made on the stack. -/
theorem LeavesVerdict.of_onWords {f : Builder → Builder} {R : WordRelation} {negated : Bool}
    {kinds : List NumberKind} (hf : OnWords f R)
    (h : ∀ {lanes : Nat} (xs ys : List (Vector UInt32 lanes)), xs.length = kinds.length →
      ys.length = kinds.length → R (xs ++ ys) [verdict negated kinds xs ys]) (g : Gen) :
    ∃ g', build f g = .ok ((), g') ∧ LeavesVerdict g g' negated kinds := by
  obtain ⟨ops, spells, takes⟩ := hf
  have hfollows := spells.follows 0 g.builder
  have hstack : (f g.builder).stack = g.builder.stack := by
    rw [hfollows.stack, Call.stack_addAll]
  refine ⟨_, rfl, .of_builder hstack, ops, spells.data, fun k => spells.follows k _, ?_⟩
  intro lanes host batch s σ xs ys hxs hys _
  exact ⟨σ.memory, .refl _ _, takes host batch _ s σ _ _ (h xs ys hxs hys)⟩

variable {kinds : List NumberKind}

/-- Code without control flow that leads to two values on top of the stack goes on to lead to the
verdict. -/
theorem LeavesVerdict.leads {g g' : Gen} {negated : Bool} (h : LeavesVerdict g g' negated kinds)
    {r : Start lanes} {σ : StackMachine lanes} {xs ys : List (Vector UInt32 lanes)}
    (hxs : xs.length = kinds.length) (hys : ys.length = kinds.length)
    (hnext : g'.values.next ≤ r.size)
    (leads : g.builder.Leads r (σ.push g.builder.stack (xs ++ ys))) :
    ∃ m, σ.memory.SameBelow g.values.next m ∧ g'.builder.Leads r
      (StackMachine.push { σ with memory := m } g.builder.stack [verdict negated kinds xs ys]) := by
  obtain ⟨ops, data, follows, takes⟩ := h.code
  have hsize : σ.memory.values.size = r.size := leads.size
  obtain ⟨m, same, takes⟩ :=
    takes r.host r.batch g.builder.stack σ xs ys hxs hys (hsize ▸ hnext)
  exact ⟨m, same, (leads.addAll data (hsize ▸ takes)).of_follows (follows r.size)⟩

/-- Values without slots are equal. -/
theorem leavesVerdict_of_runs_eq_nil (hruns : runs (kinds.map NumberKind.numType) = [])
    (negated : Bool) (g : Gen) :
    ∃ g', build (fun b => (b.discard (2 * kinds.length)).pushConstant (Word.ofBool !negated) 1) g =
      .ok ((), g') ∧ LeavesVerdict g g' negated kinds := by
  have hexpand := expand_runs (kinds.map NumberKind.numType)
  rw [hruns] at hexpand
  obtain rfl : kinds = [] := List.map_eq_nil_iff.1 hexpand.symm
  refine LeavesVerdict.of_onWords ((OnWords.discard 0).comp (.pushConstant (Word.ofBool !negated) 1)) ?_ g
  intro lanes xs ys hxs hys
  obtain rfl := List.length_eq_zero_iff.1 hxs
  obtain rfl := List.length_eq_zero_iff.1 hys
  refine ⟨[], ⟨[], rfl, rfl⟩, ?_⟩
  simp [verdict, Words.Agree, Vector.ext_iff]

/-- Values of one number type are compared slot by slot. -/
theorem leavesVerdict_of_runs_eq_singleton {ty : NumType} {count : Nat}
    (hruns : runs (kinds.map NumberKind.numType) = [(ty, count)])
    (numeric : ∀ kind ∈ kinds, kind ≠ .nonnumeric) (negated : Bool) (g : Gen) :
    ∃ g', build (fun b => foldBooleans (foldOp !negated) kinds.length
        (b.binary (comparison !negated) ty kinds.length)) g = .ok ((), g') ∧
      LeavesVerdict g g' negated kinds := by
  have hexpand := expand_runs (kinds.map NumberKind.numType)
  have hpos : 0 < count := @pos_of_mem_runs _ (ty, count) (hruns ▸ List.mem_singleton_self _)
  have htypes : kinds.map NumberKind.numType = List.replicate count ty := by
    rw [← hexpand, hruns, expand, List.flatMap_singleton]
  have hcount : kinds.length = count := by
    rw [← List.length_map NumberKind.numType, htypes, List.length_replicate]
  subst hcount
  refine LeavesVerdict.of_onWords ((OnWords.binary (comparison !negated) ty kinds.length).comp
    (onWords_foldBooleans (!negated) hpos)) ?_ g
  intro lanes xs ys hxs hys
  refine ⟨_, ⟨xs, ys, rfl, hxs, hys, rfl⟩, List.zipWith (equalLanes ty) xs ys, ?_, ?_, ?_⟩
  · simp [hxs, hys]
  · rw [List.map_zipWith, ← funext₂ (zipWith_comparison (!negated) ty)]
  · rw [← truths_allOf_agreement numeric, htypes, agreement_replicate ty hxs hys]

/-- The word on top is kept in a slot while the words below it are dropped. -/
theorem takes_throughSlot {host : HostCall → Registers lanes → Registers lanes}
    {batch : Batch lanes} {s : Int} (σ : StackMachine lanes) {ws : List (Vector UInt32 lanes)}
    {w : Vector UInt32 lanes} {slot n : Nat} (hws : ws.length = n)
    (hslot : slot < σ.memory.values.size) :
    Op.Takes host batch σ.memory.values.size s
      (Call.counted 1 (.copyToSlots false ⟨slot, 1⟩ 1) ++ Call.counted 1 (.discard 1) ++
        Call.counted n (.discard n) ++ Call.counted 1 (.pushSlots .value ⟨slot, 1⟩))
      (σ.push s (ws ++ [w])) ((σ.onMemory (·.overwrite slot [w])).push s [w]) := by
  let τ := σ.onMemory (·.overwrite slot [w])
  have hword : τ.memory.slot slot = w := by
    simp [τ, StackMachine.onMemory, Machine.slot_overwrite, hslot]
  have hpushed : Op.Takes host batch σ.memory.values.size s
      (Call.counted 1 (.pushSlots .value ⟨slot, 1⟩)) (τ.push s []) (τ.push s [w]) := by
    conv => arg 7; rw [← hword]
    exact .pushSlot τ [] hslot
  exact (((Op.Takes.copyToSlot σ ws w hslot).append (.discard τ ws [w] rfl)).append
    (.discard τ [] ws hws)).append hpushed

/-- Values of several number types are compared through clones, and the result is kept in a slot while
both values are dropped. -/
theorem leavesVerdict_of_runs {all : List (NumType × Nat)} (several : 0 < all.length)
    (hruns : runs (kinds.map NumberKind.numType) = all)
    (numeric : ∀ kind ∈ kinds, kind ≠ .nonnumeric) (negated : Bool) (g : Gen) :
    ∃ g', (do
        build fun b => foldBooleans (foldOp !negated) all.length
          (compareRuns (comparison !negated) (foldOp !negated) kinds.length 0 0 all b)
        let range ← scratch .bool
        build fun b => ((b.popSlotsUnmasked range).discard (2 * kinds.length)).pushSlots .value range)
      g = .ok ((), g') ∧ LeavesVerdict g g' negated kinds := by
  have hexpand := expand_runs (kinds.map NumberKind.numType)
  rw [hruns] at hexpand
  have hlength : (expand all).length = kinds.length := by rw [hexpand, List.length_map]
  have hpos : ∀ run ∈ all, 0 < run.2 := fun run hrun => pos_of_mem_runs (hruns ▸ hrun)
  -- both values, and the verdict above them
  obtain ⟨ops, spells, takes⟩ := (@onWords_compareRuns (!negated) kinds.length all hpos 0 0
    (by omega)).comp (onWords_foldBooleans (!negated) several).below
  let slot := g.values.next
  have spells' := ((Spells.popSlotsUnmasked ⟨slot, 1⟩).comp (.discard (2 * kinds.length))).comp
    (.pushSlots .value ⟨slot, 1⟩)
  have spells := spells.comp spells'
  refine ⟨_, rfl, ⟨?_, Nat.le_add_right .., rfl, rfl, rfl⟩, _, spells.data,
    fun valueSlots => spells.follows valueSlots _, ?_⟩
  · rw [← Call.stack_addAll g.builder]
    exact (spells.follows 0 g.builder).stack
  · intro lanes host batch s σ xs ys hxs hys hsize
    have hslot : slot < σ.memory.values.size := hsize
    refine ⟨σ.memory.overwrite slot [verdict negated kinds xs ys], .overwrite _ le_rfl _, ?_⟩
    have hverdict : truths (!negated) (allOf (verdicts all xs ys)) = verdict negated kinds xs ys := by
      rw [← truths_allOf_agreement numeric, ← hexpand]
      congr 1
      funext lane
      exact allOf_verdicts all (by omega) (by omega) lane
    have hleft : Op.Takes host batch σ.memory.values.size s ops (σ.push s (xs ++ ys))
        (σ.push s (xs ++ ys ++ [verdict negated kinds xs ys])) := by
      refine takes host batch _ s σ _ _ ⟨_, ⟨xs, ys, [], hxs, hys, rfl, by simp, rfl⟩, xs ++ ys, _, _,
        rfl, rfl, verdicts all xs ys, length_verdicts .., rfl, ?_⟩
      rw [hverdict]
    exact hleft.append (takes_throughSlot σ (by rw [List.length_append]; omega) hslot)

theorem compareTop_leaves (numeric : ∀ kind ∈ kinds, kind ≠ .nonnumeric) (negated : Bool)
    (g : Gen) :
    ∃ g', compareTop (!negated) kinds.length (kinds.map NumberKind.numType) g = .ok ((), g') ∧
      LeavesVerdict g g' negated kinds := by
  unfold compareTop
  rcases hruns : runs (kinds.map NumberKind.numType) with _ | ⟨⟨ty, count⟩, _ | ⟨second, others⟩⟩
  · exact leavesVerdict_of_runs_eq_nil hruns negated g
  · exact leavesVerdict_of_runs_eq_singleton hruns numeric negated g
  · exact leavesVerdict_of_runs (by simp) hruns numeric negated g

/-- Equality and inequality of whole values.  Once the code has pushed both values, more code takes
them off the stack and leaves one truth value, in each lane: for equality whether all slots are
equal, each under its own kind, and for inequality the complement of that. -/
theorem equality_leaves_verdict {left right : Operand} {g g' : Gen}
    (numeric : ∀ kind ∈ left.ty.slotKinds, kind ≠ .nonnumeric) (negated : Bool)
    (pushed : (do left.push; right.push) g = .ok ((), g')) :
    ∃ g'', equality left right negated g = .ok ((), g'') ∧
      LeavesVerdict g' g'' negated left.ty.slotKinds := by
  obtain ⟨g'', hcompare, leaves⟩ := compareTop_leaves numeric negated g'
  rw [Ty.length_slotKinds] at hcompare
  refine ⟨g'', ?_, leaves⟩
  rw [equality_eq numeric]
  exact GenM.bind_eq_ok.2 ⟨(), g', pushed, hcompare⟩

example : verdict false [.float] [#v[Word.indefinite]] [#v[Word.indefinite]] = #v[0] := by decide

/-- A value with slots of three kinds. -/
def mixed (x : UInt32) (i : UInt32) (b : Bool) : Operand :=
  .ofValue (.struct "S" [⟨"x", .float, default, default⟩, ⟨"i", .int, default, default⟩,
    ⟨"b", .bool, default, default⟩] false) (pushWords [x, i, Word.ofBool b])

/-- Zeros of either sign are equal. -/
theorem equality_leaves_verdict_mixed :
    ∃ g g' : Gen, (do (mixed 0 3 true).push; (mixed Word.signBit 3 true).push) (.start false) =
        .ok ((), g) ∧
      equality (mixed 0 3 true) (mixed Word.signBit 3 true) false (.start false) = .ok ((), g') ∧
      LeavesVerdict g g' false [.float, .signed, .boolean] ∧
      verdict false [.float, .signed, .boolean] [#v[0], #v[3], #v[Word.allOnes]]
        [#v[Word.signBit], #v[3], #v[Word.allOnes]] = #v[Word.allOnes] := by
  obtain ⟨g', hequality, leaves⟩ := @equality_leaves_verdict (mixed 0 3 true)
    (mixed Word.signBit 3 true) (.start false) _ (by decide) false rfl
  exact ⟨_, g', rfl, hequality, leaves, by decide⟩

end Operand

end RasterShader
