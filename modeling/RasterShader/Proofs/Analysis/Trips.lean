import Mathlib
import RasterShader.Analysis.Trips
import RasterShader.Codegen.Operand
import RasterShader.Proofs.Constant.Kinds

/-!
# Counted trips and the trips that are made

The trips of a loop are counted by stepping a double, which holds every integer on the way; the
machine steps a word, which wraps.  `LoopHeader` is what the machine makes of the header of a loop
with an integer index.  For a header of constants of the index type, the machine stops after the
counted trips if and only if the test is for equality, or the index is still an integer of its type
when the test fails (`TripInfo.ofLoop_stopsAfter_iff`).
-/

namespace RasterShader

open Double TripInfo

/-! ## What the machine does -/

/-- The header of a loop with an integer index: its constants, the comparison of its test, and
whether it steps down. -/
structure LoopHeader where
  kind : NumberKind
  first : Float
  op : Operator
  limit : Float
  stepsDown : Bool
  amount : Float

namespace LoopHeader

/-- The word of the test.  For `>` and `>=`, the limit stands on the left. -/
def test (h : LoopHeader) (x : UInt32) : UInt32 :=
  let limit := literalBits h.limit h.kind
  match h.op with
  | .lt => BinaryOp.cmpLt.eval h.kind.integerType x limit
  | .ltEq => BinaryOp.cmpLe.eval h.kind.integerType x limit
  | .gt => BinaryOp.cmpLt.eval h.kind.integerType limit x
  | .gtEq => BinaryOp.cmpLe.eval h.kind.integerType limit x
  | .eqEq => BinaryOp.cmpEq.eval h.kind.integerType x limit
  | _ => BinaryOp.cmpNe.eval h.kind.integerType x limit

/-- The next word of the index. -/
def next (h : LoopHeader) (x : UInt32) : UInt32 :=
  (if h.stepsDown then BinaryOp.sub else BinaryOp.add).eval h.kind.integerType x
    (literalBits h.amount h.kind)

/-- The word of the index after a number of trips. -/
def wordAfter (h : LoopHeader) (trips : Nat) : UInt32 := h.next^[trips] (literalBits h.first h.kind)

/-- The test holds before each of the first trips, and fails after them. -/
def StopsAfter (h : LoopHeader) (trips : Nat) : Prop :=
  (∀ k < trips, h.test (h.wordAfter k) = Word.ofBool true) ∧
    h.test (h.wordAfter trips) = Word.ofBool false

instance (h : LoopHeader) (trips : Nat) : Decidable (h.StopsAfter trips) := by
  unfold StopsAfter
  infer_instance

/-- The constants of the header are integers of the index type. -/
structure Proper (h : LoopHeader) : Prop where
  kind : h.kind.IsInteger
  first : h.kind.Holds h.first
  limit : h.kind.Holds h.limit
  amount : h.kind.Holds h.amount

/-- The direction and the amount of a step. -/
def step? : Expr → Option (Bool × Float)
  | .binary _ _ .plusEq right => (constantScalar? right).map (false, ·)
  | .binary _ _ .minusEq right => (constantScalar? right).map (true, ·)
  | .prefixed _ .plusPlus _ | .postfixed _ .plusPlus _ => some (false, 1.0)
  | .prefixed _ .minusMinus _ | .postfixed _ .minusMinus _ => some (true, 1.0)
  | _ => none

/-- The header of a loop. -/
def of? : Option Stmt → Option Expr → Option Expr → Option LoopHeader
  | some (.declare _ index (some value)), some (.binary _ _ op right), some next => do
    let first ← constantScalar? value
    let limit ← constantScalar? right
    let (stepsDown, amount) ← step? next
    return ⟨index.ty.numberKind, first, op, limit, stepsDown, amount⟩
  | _, _, _ => none

end LoopHeader

/-! ## Counting in integers -/

namespace TripInfo

/-- The outcome of a loop's condition on integers. -/
def holdsInt (op : Operator) (a b : Int) : Bool :=
  match op with
  | .lt => a < b
  | .ltEq => a ≤ b
  | .gt => b < a
  | .gtEq => b ≤ a
  | .eqEq => a = b
  | _ => a ≠ b

theorem holds_eq_holdsInt {op : Operator} (hop : (op.isRelational || op.isEquality) = true)
    {x y : Float} {a b : Int} (hx : IsInt x a) (hy : IsInt y b) : holds op x y = holdsInt op a b := by
  cases op with
  | eqEq => exact beq_eq hx hy
  | neq => simp [holds, holdsInt, bne, beq_eq hx hy]
  | lt => simp [holds, holdsInt, Operator.isRelational, Constant.compare, lt_iff hx hy]
  | gt => simp [holds, holdsInt, Operator.isRelational, Constant.compare, lt_iff hy hx]
  | ltEq => simp [holds, holdsInt, Operator.isRelational, Constant.compare, le_iff hx hy]
  | gtEq => simp [holds, holdsInt, Operator.isRelational, Constant.compare, le_iff hy hx]
  | _ => simp [Operator.isRelational, Operator.isEquality] at hop

/-- The condition holds before each of the first trips of an integer index, and fails after them. -/
def Counts (op : Operator) (first limit delta : Int) (trips : Nat) : Prop :=
  (∀ k < trips, holdsInt op (first + k * delta) limit = true) ∧
    holdsInt op (first + trips * delta) limit = false

/-- Trips are counted as if the index were an integer of any size. -/
theorem counts_of_countFrom {op : Operator} (hop : (op.isRelational || op.isEquality) = true)
    {limit delta : Float} {b d : Int} (hlimit : IsInt limit b) (hdelta : IsInt delta d)
    {fuel start n : Nat} {current : Float} {a : Int} (hcurrent : IsInt current a)
    (hbound : a.natAbs + fuel * d.natAbs < 2 ^ 53)
    (h : countFrom op limit delta false fuel current start = some n) :
    ∃ trips, n = start + trips ∧ Counts op a b d trips := by
  induction fuel generalizing start current a with
  | zero =>
    rw [countFrom] at h
    split at h
    · cases h
    · rename_i hfails
      rw [holds_eq_holdsInt hop hcurrent hlimit] at hfails
      obtain rfl := Option.some.inj h
      exact ⟨0, rfl, by simp, by simpa using hfails⟩
  | succ fuel ih =>
    rw [countFrom] at h
    split at h
    · rename_i hholds
      rw [holds_eq_holdsInt hop hcurrent hlimit] at hholds
      have hmul : (fuel + 1) * d.natAbs = fuel * d.natAbs + d.natAbs := Nat.succ_mul ..
      have hadd := Int.natAbs_add_le a d
      obtain ⟨trips, rfl, hbefore, hafter⟩ :=
        ih (isInt_add hcurrent hdelta (by omega)) (by omega) h
      have hshift : ∀ k : Nat, a + d + k * d = a + (k + 1 : Nat) * d := by
        intro k
        push_cast
        ring
      refine ⟨trips + 1, by omega, ?_, by rw [← hshift]; exact hafter⟩
      rintro (_ | k) hk
      · simpa using hholds
      · rw [← hshift]
        exact hbefore k (by omega)
    · rename_i hfails
      rw [holds_eq_holdsInt hop hcurrent hlimit] at hfails
      obtain rfl := Option.some.inj h
      exact ⟨0, rfl, by simp, by simpa using hfails⟩

/-- As long as the condition holds, the index stays between its first value and the limit. -/
theorem Counts.between {op : Operator} {a b d : Int} {trips : Nat} (h : Counts op a b d trips)
    {k : Nat} (hk : k < trips) :
    (a ≤ a + k * d ∧ a + k * d ≤ b) ∨ (b ≤ a + k * d ∧ a + k * d ≤ a) := by
  have hhere := h.1 k hk
  have hfirst := h.1 0 (by omega)
  have hafter := h.2
  have hpart : (k : Int) ≤ trips := by omega
  rcases le_total 0 d with hd | hd
  · have hstep : 0 ≤ (k : Int) * d := mul_nonneg (by omega) hd
    have hrest : (k : Int) * d ≤ trips * d := mul_le_mul_of_nonneg_right hpart hd
    cases op <;> simp only [holdsInt, decide_eq_true_eq, decide_eq_false_iff_not] at * <;> omega
  · have hstep : (k : Int) * d ≤ 0 := mul_nonpos_of_nonneg_of_nonpos (by omega) hd
    have hrest : (trips : Int) * d ≤ k * d := mul_le_mul_of_nonpos_right hpart hd
    cases op <;> simp only [holdsInt, decide_eq_true_eq, decide_eq_false_iff_not] at * <;> omega

/-- A test for equality holds once at most, unless the index stays where it is. -/
theorem Counts.le_one_of_eqEq {a b d : Int} {trips : Nat} (h : Counts .eqEq a b d trips) :
    trips ≤ 1 := by
  by_contra hmany
  have hfirst := h.1 0 (by omega)
  have hsecond := h.1 1 (by omega)
  have hafter := h.2
  simp only [holdsInt, decide_eq_true_eq, decide_eq_false_iff_not] at hfirst hsecond hafter
  have hd : d = 0 := by omega
  subst hd
  simp at hfirst hafter
  exact hafter hfirst

end TripInfo

namespace NumberKind

variable {kind : NumberKind}

theorem InRange.between {m n x : Int} (hm : kind.InRange m) (hn : kind.InRange n)
    (h : (m ≤ x ∧ x ≤ n) ∨ (n ≤ x ∧ x ≤ m)) : kind.InRange x := by
  cases kind <;> simp only [InRange] at * <;> omega

/-- An index that has left the range of its type by one step is seen at the other end. -/
theorem InRange.wraps {y d x : Int} (hy : kind.InRange y) (hd : d.natAbs < 4294967296)
    (hx : x = y + d) (hout : ¬kind.InRange x) :
    ∃ x', kind.InRange x' ∧ Word.ofInt x = Word.ofInt x' ∧
      ((0 < d ∧ x' < y) ∨ (d < 0 ∧ y < x')) := by
  rcases le_total 0 d with hpos | hneg
  · refine ⟨x - 4294967296, ?_, ?_, .inl ?_⟩
    · cases kind <;> simp only [InRange] at * <;> omega
    · rw [Word.ofInt_eq_ofInt_iff]
      omega
    · cases kind <;> simp only [InRange] at * <;> omega
  · refine ⟨x + 4294967296, ?_, ?_, .inr ?_⟩
    · cases kind <;> simp only [InRange] at * <;> omega
    · rw [Word.ofInt_eq_ofInt_iff]
      omega
    · cases kind <;> simp only [InRange] at * <;> omega

end NumberKind

/-! ## The machine's steps -/

namespace LoopHeader

/-- A header with the integers that its constants are. -/
structure Reads (h : LoopHeader) (first limit delta : Int) : Prop where
  integer : h.kind.IsInteger
  first_inRange : h.kind.InRange first
  limit_inRange : h.kind.InRange limit
  first : IsInt h.first first
  limit : IsInt h.limit limit
  amount : IsInt h.amount (if h.stepsDown then -delta else delta)
  delta_lt : delta.natAbs < 4294967296

variable {h : LoopHeader} {a b d : Int}

theorem Proper.exists_reads (proper : h.Proper) : ∃ a b d, h.Reads a b d := by
  obtain ⟨integer, hfirst, hlimit, hamount⟩ := proper
  rw [NumberKind.holds_iff_of_isInteger integer] at hfirst hlimit hamount
  obtain ⟨a, ha, hainRange⟩ := hfirst
  obtain ⟨b, hb, hbinRange⟩ := hlimit
  obtain ⟨c, hc, hcinRange⟩ := hamount
  have hlt := hcinRange.natAbs_lt
  refine ⟨a, b, if h.stepsDown then -c else c, integer, hainRange, hbinRange, ha, hb, ?_, ?_⟩
  · split <;> simpa using hc
  · split <;> simpa using hlt

/-- The word of the index is that of the integer that is counted with. -/
theorem Reads.wordAfter (reads : h.Reads a b d) (k : Nat) :
    h.wordAfter k = Word.ofInt (a + k * d) := by
  induction k with
  | zero =>
    rw [LoopHeader.wordAfter, Function.iterate_zero_apply,
      literalBits_of_isInt reads.integer reads.first]
    simp
  | succ k ih =>
    have hstep : a + (k + 1 : Nat) * d = a + k * d + d := by
      push_cast
      ring
    rw [LoopHeader.wordAfter, Function.iterate_succ_apply', ← LoopHeader.wordAfter, ih, hstep, next,
      literalBits_of_isInt reads.integer reads.amount]
    cases hdown : h.stepsDown with
    | true =>
      have hsub : BinaryOp.sub.eval h.kind.integerType (Word.ofInt (a + k * d)) (Word.ofInt (-d)) =
          Word.ofInt (a + k * d) - Word.ofInt (-d) := by
        unfold NumberKind.integerType
        split <;> rfl
      simp only [if_true]
      rw [hsub, ← Word.ofInt_sub, sub_neg_eq_add]
    | false =>
      have hadd : BinaryOp.add.eval h.kind.integerType (Word.ofInt (a + k * d)) (Word.ofInt d) =
          Word.ofInt (a + k * d) + Word.ofInt d := by
        unfold NumberKind.integerType
        split <;> rfl
      simp only [Bool.false_eq_true, if_false]
      rw [hadd, ← Word.ofInt_add]

/-- The machine tests an index in the range of its type as it is tested in counting. -/
theorem Reads.test (reads : h.Reads a b d) {x : Int} (hx : h.kind.InRange x) :
    h.test (Word.ofInt x) = Word.ofBool (holdsInt h.op x b) := by
  have hlimit := literalBits_of_isInt reads.integer reads.limit
  have hinj := Word.ofInt_inj hx reads.limit_inRange
  unfold LoopHeader.test holdsInt
  simp only [hlimit]
  split
  · exact NumberKind.eval_cmpLt reads.integer hx reads.limit_inRange
  · exact NumberKind.eval_cmpLe reads.integer hx reads.limit_inRange
  · exact NumberKind.eval_cmpLt reads.integer reads.limit_inRange hx
  · exact NumberKind.eval_cmpLe reads.integer reads.limit_inRange hx
  · rw [NumberKind.eval_cmpEq]
    simp only [hinj]
  · rw [NumberKind.eval_cmpNe]
    simp only [ne_eq, hinj]

/-- A loop that tests for equality stops even if the index leaves the range of its type: it has
moved by less than all words. -/
theorem Reads.test_eqEq (reads : h.Reads a b d) (hop : h.op = .eqEq) {trips : Nat}
    (counts : Counts h.op a b d trips) :
    h.test (Word.ofInt (a + trips * d)) = Word.ofBool false := by
  have hlimit := literalBits_of_isInt reads.integer reads.limit
  have hlt := reads.delta_lt
  rw [hop] at counts
  have hafter := counts.2
  simp only [LoopHeader.test, hop, hlimit, NumberKind.eval_cmpEq]
  simp only [holdsInt, decide_eq_false_iff_not] at hafter
  congr 1
  rw [decide_eq_false_iff_not]
  obtain rfl | rfl : trips = 0 ∨ trips = 1 := by
    have := counts.le_one_of_eqEq
    omega
  · rw [Nat.cast_zero, zero_mul, add_zero] at hafter ⊢
    rwa [Word.ofInt_inj reads.first_inRange reads.limit_inRange]
  · have hfirst := counts.1 0 (by omega)
    simp only [holdsInt, decide_eq_true_eq] at hfirst
    rw [Word.ofInt_eq_ofInt_iff]
    omega

/-- An index that has left the range of its type passes a test by order again. -/
theorem Reads.test_outside (reads : h.Reads a b d) (hop : h.op.isRelational = true) {trips : Nat}
    (counts : Counts h.op a b d trips) (hout : ¬h.kind.InRange (a + trips * d)) :
    h.test (Word.ofInt (a + trips * d)) = Word.ofBool true := by
  obtain ⟨last, rfl⟩ : ∃ last, trips = last + 1 := by
    refine Nat.exists_eq_succ_of_ne_zero ?_
    rintro rfl
    exact hout (by simpa using reads.first_inRange)
  have hbefore := counts.1 last (by omega)
  have hinRange := reads.first_inRange.between reads.limit_inRange
    (counts.between (k := last) (by omega))
  have hstep : a + (last + 1 : Nat) * d = a + last * d + d := by
    push_cast
    ring
  have hafter := counts.2
  obtain ⟨x, hx, hword, hwrapped⟩ := hinRange.wraps reads.delta_lt hstep hout
  rw [hword, reads.test hx]
  congr 1
  rw [hstep] at hafter
  cases hop' : h.op <;> rw [hop'] at hop hbefore hafter <;>
    simp only [holdsInt, Operator.isRelational, decide_eq_true_eq, decide_eq_false_iff_not,
      Bool.false_eq_true] at * <;> omega

/-- The machine stops after the counted trips if and only if the test is for equality, or the index
is still in the range of its type then. -/
theorem Reads.stopsAfter_iff (reads : h.Reads a b d)
    (hop : (h.op.isRelational || h.op.isEquality) = true) {trips : Nat}
    (counts : Counts h.op a b d trips) :
    h.StopsAfter trips ↔ h.op.isEquality = true ∨ h.kind.InRange (a + trips * d) := by
  have hbefore : ∀ k < trips, h.test (h.wordAfter k) = Word.ofBool true := by
    intro k hk
    rw [reads.wordAfter, reads.test (reads.first_inRange.between reads.limit_inRange
      (counts.between hk)), counts.1 k hk]
  have hinside : h.kind.InRange (a + trips * d) → h.StopsAfter trips := by
    intro hinRange
    exact ⟨hbefore, by rw [reads.wordAfter, reads.test hinRange, counts.2]⟩
  constructor
  · rintro ⟨-, hstops⟩
    by_contra hneither
    obtain ⟨hequality, hout⟩ := not_or.1 hneither
    rw [reads.wordAfter, reads.test_outside (by simpa [hequality] using hop) counts hout] at hstops
    exact absurd hstops (by decide)
  · rintro (hequality | hinRange)
    · cases hop' : h.op <;> simp [hop', Operator.isEquality] at hequality
      · exact ⟨hbefore, by rw [reads.wordAfter, reads.test_eqEq hop' counts]⟩
      · refine hinside ?_
        have hafter := counts.2
        rw [hop'] at hafter
        simp only [holdsInt, decide_eq_false_iff_not, not_not] at hafter
        rw [hafter]
        exact reads.limit_inRange
    · exact hinside hinRange

end LoopHeader

/-! ## Loops whose trips are counted -/

namespace TripInfo

theorem indexStart_eq_ok {initializer : Option Stmt} {index : Variable} {first : Float}
    (h : indexStart initializer = .ok (index, first)) :
    ∃ span value, initializer = some (.declare span index (some value)) ∧
      constantScalar? value = some first := by
  unfold indexStart at h
  split at h
  · rename_i span index' value
    split at h
    · cases h
    · split at h
      · rename_i v hv
        cases h
        exact ⟨span, value, rfl, hv⟩
      · cases h
  · cases h

theorem condition_eq_ok {index : Variable} {test : Expr} {op : Operator} {limit : Float}
    (h : condition index test = .ok (op, limit)) :
    ∃ head left right, test = .binary head left op right ∧
      (op.isRelational || op.isEquality) = true ∧ constantScalar? right = some limit := by
  unfold condition at h
  split at h
  · rename_i head left op' right
    split at h
    · cases h
    · rename_i hshape
      split at h
      · rename_i limit' hlimit
        cases h
        refine ⟨head, left, right, rfl, ?_, hlimit⟩
        cases hop : (op.isRelational || op.isEquality) with
        | true => rfl
        | false => simp [hop] at hshape
      · cases h
  · cases h

/-- What is added to the index is the amount of the step, or its negation. -/
theorem step_eq_ok {index : Variable} {next : Expr} {delta : Float}
    (h : step index next = .ok delta) :
    ∃ stepsDown amount, LoopHeader.step? next = some (stepsDown, amount) ∧
      delta = if stepsDown then -amount else amount := by
  unfold step at h
  split at h
  · split at h
    · cases h
    · split at h
      · cases h
      · rename_i hamount
        cases h
        exact ⟨false, _, by rw [LoopHeader.step?, hamount]; rfl, rfl⟩
      · rename_i hamount
        cases h
        exact ⟨true, _, by rw [LoopHeader.step?, hamount]; rfl, rfl⟩
      · cases h
  · split at h
    · cases h
    · split at h <;> cases h
      · exact ⟨false, _, rfl, rfl⟩
      · exact ⟨true, _, rfl, rfl⟩
  · split at h
    · cases h
    · split at h <;> cases h
      · exact ⟨false, _, rfl, rfl⟩
      · exact ⟨true, _, rfl, rfl⟩
  · cases h

/-- The header of a loop whose trips are counted. -/
theorem exists_header_of_ofLoop {initializer : Option Stmt} {test next : Option Expr} {body : Stmt}
    {info : TripInfo} (h : ofLoop initializer test next body = .ok info) :
    ∃ header, LoopHeader.of? initializer test next = some header ∧
      header.kind = info.index.ty.numberKind ∧ header.first = info.start ∧
      (header.op.isRelational || header.op.isEquality) = true ∧
      info.delta = (if header.stepsDown then -header.amount else header.amount) ∧
      countFrom header.op header.limit info.delta info.index.ty.isFloat maxTrips info.start 0 =
        some info.count := by
  simp only [ofLoop, bind, Except.bind, pure, Except.pure] at h
  split at h
  · cases h
  rename_i start hstart
  split at h
  · cases h
  rename_i test' htest
  split at h
  · cases h
  rename_i condition' hcondition
  split at h
  · cases h
  rename_i next' hnext
  split at h
  · cases h
  rename_i delta hdelta
  split at h
  · cases h
  split at h
  · rename_i count hcount
    cases h
    obtain ⟨span, value, rfl, hfirst⟩ := indexStart_eq_ok hstart
    obtain ⟨head, left, right, rfl, hop, hlimit⟩ := condition_eq_ok hcondition
    obtain ⟨stepsDown, amount, hstep, hdelta'⟩ := step_eq_ok hdelta
    obtain rfl : test = some _ := by
      cases test <;> cases htest
      rfl
    obtain rfl : next = some _ := by
      cases next <;> cases hnext
      rfl
    refine ⟨⟨start.1.ty.numberKind, start.2, condition'.1, condition'.2, stepsDown, amount⟩, ?_,
      rfl, rfl, hop, hdelta', hcount⟩
    simp [LoopHeader.of?, hfirst, hlimit, hstep]
  · cases h

/-- The trips that are counted of a loop with an integer index and constants of its type are those
that the machine makes, if and only if the test is for equality or the index is still an integer of
its type when the test fails. -/
theorem ofLoop_stopsAfter_iff {initializer : Option Stmt} {test next : Option Expr} {body : Stmt}
    {info : TripInfo} (h : ofLoop initializer test next body = .ok info) :
    ∃ header, LoopHeader.of? initializer test next = some header ∧
      header.kind = info.index.ty.numberKind ∧
      (header.Proper → (header.StopsAfter info.count ↔ header.op.isEquality = true ∨
        header.kind.InRange (truncated info.start + info.count * truncated info.delta))) := by
  obtain ⟨header, hheader, hkind, hfirst, hop, hdelta, hcount⟩ := exists_header_of_ofLoop h
  refine ⟨header, hheader, hkind, fun proper => ?_⟩
  obtain ⟨a, b, d, reads⟩ := proper.exists_reads
  have hd : IsInt info.delta d := by
    have hamount := reads.amount
    rw [hdelta]
    cases hdown : header.stepsDown with
    | true =>
      rw [hdown] at hamount
      simpa using isInt_neg hamount
    | false =>
      rw [hdown] at hamount
      simpa using hamount
  have ha : IsInt info.start a := hfirst ▸ reads.first
  have hfloat : info.index.ty.isFloat = false := by
    rw [Ty.isFloat, ← hkind]
    obtain hkind | hkind := reads.integer <;> rw [hkind] <;> rfl
  rw [hfloat] at hcount
  have hbound : a.natAbs + maxTrips * d.natAbs < 2 ^ 53 := by
    have := reads.first_inRange.natAbs_lt
    have := reads.delta_lt
    unfold maxTrips
    omega
  obtain ⟨trips, htrips, counts⟩ := counts_of_countFrom hop reads.limit hd ha hbound hcount
  rw [zero_add] at htrips
  subst htrips
  rw [truncated_of_isInt ha, truncated_of_isInt hd]
  exact reads.stopsAfter_iff hop counts

/-- The index of a loop. -/
def loopIndex (ty : Ty) : Variable := ⟨1, "i", ty, default, .local, default, false⟩

/-- The trips of a loop that starts at a constant, tests against another one and steps by one. -/
def ofCounter (ty : Ty) (first : Float) (op : Operator) (limit : Float) (step : Operator) :
    Except TripObstacle TripInfo × Option LoopHeader :=
  let index : Expr := .reference ⟨default, ty⟩ (loopIndex ty) none .readWrite
  let initializer := some (.declare default (loopIndex ty) (some (.literal ⟨default, ty⟩ first)))
  let test := some (.binary ⟨default, .bool⟩ index op (.literal ⟨default, ty⟩ limit))
  let next := some (.postfixed ⟨default, ty⟩ step index)
  (ofLoop initializer test next (.nop default), LoopHeader.of? initializer test next)

theorem ofLoop_stopsAfter_iff_three : ∃ info header,
    ofCounter .int 0.0 .lt 3.0 .plusPlus = (.ok info, some header) ∧ header.Proper ∧
      info.count = 3 ∧ header.StopsAfter info.count := by
  have hinfo : (ofCounter .int 0.0 .lt 3.0 .plusPlus).1 = .ok ⟨loopIndex .int, 0.0, 1.0, 3⟩ := rfl
  obtain ⟨header, hheader, -, hiff⟩ := ofLoop_stopsAfter_iff hinfo
  obtain rfl : ⟨.signed, 0.0, .lt, 3.0, false, 1.0⟩ = header := Option.some.inj hheader
  have hzero : NumberKind.signed.Holds 0.0 := ⟨0, isInt_zero, by decide⟩
  have hone : NumberKind.signed.Holds 1.0 := ⟨1, isInt_one, by decide⟩
  have hthree : NumberKind.signed.Holds 3.0 := ⟨3, ⟨by decide, .inl rfl⟩, by decide⟩
  have proper : LoopHeader.Proper ⟨.signed, 0.0, .lt, 3.0, false, 1.0⟩ :=
    ⟨.inl rfl, hzero, hthree, hone⟩
  refine ⟨_, _, Prod.ext hinfo hheader, proper, rfl, (hiff proper).2 (.inr ?_)⟩
  rw [truncated_of_isInt isInt_zero, truncated_of_isInt isInt_one]
  decide

/-- The trips of `for (int i = 2147483646; i <= 2147483647; i++)` and of
`for (uint i = 1; i >= 0; i--)` are counted as two, but the index passes the test again. -/
theorem wrappedIndex_passes_test :
    (∃ info header, ofCounter .int 2147483646.0 .ltEq 2147483647.0 .plusPlus =
        (.ok info, some header) ∧ header.Proper ∧ info.count = 2 ∧
        ¬header.StopsAfter info.count) ∧
      ∃ info header, ofCounter .uint 1.0 .gtEq 0.0 .minusMinus = (.ok info, some header) ∧
        header.Proper ∧ info.count = 2 ∧ ¬header.StopsAfter info.count := by
  have signed : ∀ {v : Float} {n : Int}, IsInt v n → NumberKind.signed.InRange n →
      NumberKind.signed.Holds v := fun hv hn => ⟨_, hv, hn⟩
  have unsigned : ∀ {v : Float} {n : Int}, IsInt v n → NumberKind.unsigned.InRange n →
      NumberKind.unsigned.Holds v := fun hv hn => ⟨_, hv, hn⟩
  have hstart : IsInt 2147483646.0 2147483646 := ⟨by decide, .inl rfl⟩
  have hlimit : IsInt 2147483647.0 2147483647 := ⟨by decide, .inl rfl⟩
  refine ⟨⟨⟨loopIndex .int, 2147483646.0, 1.0, 2⟩, _, rfl, ⟨.inl rfl, signed hstart (by decide),
    signed hlimit (by decide), signed isInt_one (by decide)⟩, rfl, ?_⟩,
    ⟨⟨loopIndex .uint, 1.0, -1.0, 2⟩, _, rfl, ⟨.inr rfl, unsigned isInt_one (by decide),
    unsigned isInt_zero (by decide), unsigned isInt_one (by decide)⟩, rfl, ?_⟩⟩
  all_goals decide +kernel

end TripInfo

end RasterShader
