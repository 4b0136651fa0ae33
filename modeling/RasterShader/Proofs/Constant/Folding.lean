import Mathlib
import RasterShader.Proofs.Constant.Layout

/-!
# Folded operations and those of the machine, one component at a time

Integers are folded exactly and then wrapped to 32 bits; the machine computes with words, and has no
remainder: it subtracts the product of the divisor and the quotient.  Both give one word unless the
quotient overflows (`Constant.foldComponents_words`).  Comparisons and connectives of constants
always have the truth value that the machine finds.
-/

namespace RasterShader

open Double

variable {kind : NumberKind} {op : Operator} {m n : Int}

/-! ## Integers -/

namespace Word

theorem ofInt_toNat (v : BitVec 32) : (ofInt v.toNat).toBitVec = v := by
  show BitVec.ofInt 32 v.toNat = v
  simp

/-- The quotient of the machine, which is zero where it would not fit. -/
theorem eval_div (integer : kind.IsInteger) (hm : kind.InRange m) (hn : kind.InRange n) :
    BinaryOp.div.eval kind.integerType (ofInt m) (ofInt n) =
      if kind = .signed ∧ m = -2147483648 ∧ n = -1 then 0 else ofInt (m.tdiv n) := by
  obtain rfl | rfl := integer
  · have hleast : ofInt m = signBit ↔ m = -2147483648 := by
      rw [show signBit = ofInt (-2147483648) by decide]
      exact ofInt_inj hm (by decide)
    have hminus : ofInt n = allOnes ↔ n = -1 := by
      rw [show allOnes = ofInt (-1) by decide]
      exact ofInt_inj hn (by decide)
    have hquotient := ofInt_tdiv (ofInt m) (ofInt n)
    rw [toInt_ofInt hm, toInt_ofInt hn] at hquotient
    simp [NumberKind.integerType, BinaryOp.eval, BinaryOp.evalInt, hleast, hminus, hquotient]
  · have hnat : ofInt m / ofInt n = ofInt (m.tdiv n) := by
      obtain ⟨a, rfl⟩ := Int.eq_ofNat_of_zero_le hm.1
      obtain ⟨b, rfl⟩ := Int.eq_ofNat_of_zero_le hn.1
      have hle : ((a / b : Nat) : Int) ≤ a := Int.ofNat_le.2 (Nat.div_le_self a b)
      have hquotient : NumberKind.unsigned.InRange ((a / b : Nat) : Int) :=
        ⟨Int.natCast_nonneg _, hle.trans_lt hm.2⟩
      have ha := toNat_ofInt hm
      have hb := toNat_ofInt hn
      have hab := toNat_ofInt hquotient
      rw [← UInt32.toNat_inj, UInt32.toNat_div, ← Int.ofNat_tdiv, Int.ofNat.inj ha,
        Int.ofNat.inj hb, Int.ofNat.inj hab]
    simp [NumberKind.integerType, BinaryOp.eval, BinaryOp.evalUint, hnat]

end Word

namespace Constant

/-- The word that the code of an arithmetic operation makes of two words. -/
def arithmeticWord (op : Operator) (ty : NumType) (x y : UInt32) : UInt32 :=
  match op with
  | .plus => BinaryOp.add.eval ty x y
  | .minus => BinaryOp.sub.eval ty x y
  | .star => BinaryOp.mul.eval ty x y
  | .slash => BinaryOp.div.eval ty x y
  | .percent =>
    BinaryOp.sub.eval ty x (BinaryOp.mul.eval ty y (BinaryOp.div.eval ty x y))
  | .bitwiseAnd => x &&& y
  | .bitwiseOr => x ||| y
  | .bitwiseXor => x ^^^ y
  | _ => x

/-- The quotient, which a remainder needs, too, is that of the least signed integer and -1. -/
def QuotientOverflows (kind : NumberKind) (op : Operator) (m n : Int) : Prop :=
  kind = .signed ∧ (op = .slash ∨ op = .percent) ∧ m = -2147483648 ∧ n = -1

instance : Decidable (QuotientOverflows kind op m n) := by
  unfold QuotientOverflows
  infer_instance

/-- A folded integer has the word that the machine computes unless the quotient overflows. -/
theorem foldInteger_word (integer : kind.IsInteger) (hm : kind.InRange m) (hn : kind.InRange n)
    (hshift : op ≠ .shl ∧ op ≠ .shr) {r : Int}
    (h : foldInteger (kind == .signed) op m n = .ok (some r)) :
    Word.ofInt r = arithmeticWord op kind.integerType (Word.ofInt m) (Word.ofInt n) ↔
      ¬QuotientOverflows kind op m n := by
  have hadd : ∀ x y, BinaryOp.add.eval kind.integerType x y = x + y := by
    obtain rfl | rfl := integer <;> exact fun _ _ => rfl
  have hsub : ∀ x y, BinaryOp.sub.eval kind.integerType x y = x - y := by
    obtain rfl | rfl := integer <;> exact fun _ _ => rfl
  have hmul : ∀ x y, BinaryOp.mul.eval kind.integerType x y = x * y := by
    obtain rfl | rfl := integer <;> exact fun _ _ => rfl
  have hdiv := Word.eval_div integer hm hn
  have hbits : ∀ v : BitVec 32, ∀ w : UInt32, w.toBitVec = v → Word.ofInt v.toNat = w :=
    fun v w hw => UInt32.eq_of_toBitVec_eq ((Word.ofInt_toNat v).trans hw.symm)
  cases op with
  | plus =>
    obtain rfl := Option.some.inj (Except.ok.inj h)
    simp [arithmeticWord, hadd, Word.ofInt_add, QuotientOverflows]
  | minus =>
    obtain rfl := Option.some.inj (Except.ok.inj h)
    simp [arithmeticWord, hsub, Word.ofInt_sub, QuotientOverflows]
  | star =>
    obtain rfl := Option.some.inj (Except.ok.inj h)
    simp [arithmeticWord, hmul, Word.ofInt_mul, QuotientOverflows]
  | slash =>
    simp only [foldInteger] at h
    split at h
    · cases h
    obtain rfl := Option.some.inj (Except.ok.inj h)
    rw [arithmeticWord, hdiv]
    split
    · rename_i hoverflow
      obtain ⟨rfl, rfl, rfl⟩ := hoverflow
      decide
    · rename_i hfits
      simpa [QuotientOverflows] using hfits
  | percent =>
    simp only [foldInteger] at h
    split at h
    · cases h
    obtain rfl := Option.some.inj (Except.ok.inj h)
    rw [arithmeticWord, hsub, hmul, hdiv]
    split
    · rename_i hoverflow
      obtain ⟨rfl, rfl, rfl⟩ := hoverflow
      decide
    · rename_i hfits
      rw [← Word.ofInt_mul, ← Word.ofInt_sub, ← Int.tmod_def]
      simpa [QuotientOverflows] using hfits
  | bitwiseAnd =>
    obtain rfl := Option.some.inj (Except.ok.inj h)
    exact iff_of_true (hbits _ (Word.ofInt m &&& Word.ofInt n) rfl) (by simp [QuotientOverflows])
  | bitwiseOr =>
    obtain rfl := Option.some.inj (Except.ok.inj h)
    exact iff_of_true (hbits _ (Word.ofInt m ||| Word.ofInt n) rfl) (by simp [QuotientOverflows])
  | bitwiseXor =>
    obtain rfl := Option.some.inj (Except.ok.inj h)
    exact iff_of_true (hbits _ (Word.ofInt m ^^^ Word.ofInt n) rfl) (by simp [QuotientOverflows])
  | shl => exact absurd rfl hshift.1
  | shr => exact absurd rfl hshift.2
  | _ => cases h

/-! ## Components -/

/-- The components overflow as integers. -/
def Overflows (kind : NumberKind) (op : Operator) (p : Float × Float) : Prop :=
  QuotientOverflows kind op (truncated p.1) (truncated p.2)

instance (p : Float × Float) : Decidable (Overflows kind op p) :=
  inferInstanceAs (Decidable (QuotientOverflows ..))

/-- A folded component has the word that the machine computes unless the quotient overflows. -/
theorem foldComponent_word {a b v : Float} (integer : kind.IsInteger) (ha : kind.Holds a)
    (hb : kind.Holds b) (hshift : op ≠ .shl ∧ op ≠ .shr)
    (h : foldComponent op kind a b = .ok (some v)) :
    kind.Holds v ∧ (literalBits v kind =
      arithmeticWord op kind.integerType (literalBits a kind) (literalBits b kind) ↔
        ¬Overflows kind op (a, b)) := by
  obtain ⟨m, hm, hmrange⟩ := (NumberKind.holds_iff_of_isInteger integer).1 ha
  obtain ⟨n, hn, hnrange⟩ := (NumberKind.holds_iff_of_isInteger integer).1 hb
  rw [Overflows, literalBits_of_isInt integer hm, literalBits_of_isInt integer hn,
    truncated_of_isInt hm, truncated_of_isInt hn]
  obtain rfl | rfl := integer
  · rw [foldComponent, truncated_of_isInt hm, truncated_of_isInt hn] at h
    cases hfold : foldInteger true op m n with
    | error e => simp [hfold, bind, Except.bind] at h
    | ok result =>
      rw [hfold] at h
      obtain ⟨r, rfl, rfl⟩ := Option.map_eq_some_iff.1 (Except.ok.inj h)
      rw [literalBits_wrapSigned, foldInteger_word (.inl rfl) hmrange hnrange hshift hfold]
      exact ⟨⟨_, isInt_wrapSigned r⟩, .rfl⟩
  · rw [foldComponent, truncated_of_isInt hm, truncated_of_isInt hn] at h
    cases hfold : foldInteger false op m n with
    | error e => simp [hfold, bind, Except.bind] at h
    | ok result =>
      rw [hfold] at h
      obtain ⟨r, rfl, rfl⟩ := Option.map_eq_some_iff.1 (Except.ok.inj h)
      rw [literalBits_wrapUnsigned, foldInteger_word (.inr rfl) hmrange hnrange hshift hfold]
      exact ⟨⟨_, isInt_wrapUnsigned r⟩, .rfl⟩

/-- Folded components have the words that the machine computes unless some quotient overflows. -/
theorem foldComponents_words {pairs : List (Float × Float)} {values : List Float}
    (integer : kind.IsInteger) (hpairs : ∀ p ∈ pairs, kind.Holds p.1 ∧ kind.Holds p.2)
    (hshift : op ≠ .shl ∧ op ≠ .shr) (h : foldComponents op kind pairs = .ok (some values)) :
    values.length = pairs.length ∧ (∀ v ∈ values, kind.Holds v) ∧
      (values.map (literalBits · kind) = pairs.map (fun p =>
        arithmeticWord op kind.integerType (literalBits p.1 kind) (literalBits p.2 kind)) ↔
          ∀ p ∈ pairs, ¬Overflows kind op p) := by
  induction pairs generalizing values with
  | nil =>
    obtain rfl := Option.some.inj (Except.ok.inj h)
    simp
  | cons p rest ih =>
    rw [List.forall_mem_cons] at hpairs
    rw [foldComponents] at h
    cases hfirst : foldComponent op kind p.1 p.2 with
    | error e => simp [hfirst, bind, Except.bind] at h
    | ok first =>
      cases first with
      | none => simp [hfirst, bind, Except.bind, pure, Except.pure] at h
      | some v =>
        cases hrest : foldComponents op kind rest with
        | error e => simp [hfirst, hrest, bind, Except.bind] at h
        | ok others =>
          simp only [hfirst, hrest, bind, Except.bind, pure, Except.pure, Except.ok.injEq] at h
          obtain ⟨vs, rfl, rfl⟩ := Option.map_eq_some_iff.1 h
          obtain ⟨hholds, hword⟩ :=
            foldComponent_word integer hpairs.1.1 hpairs.1.2 hshift hfirst
          obtain ⟨hlength, hothers, hwords⟩ := ih hpairs.2 hrest
          refine ⟨by simp [hlength], List.forall_mem_cons.2 ⟨hholds, hothers⟩, ?_⟩
          rw [List.map_cons, List.map_cons, List.cons.injEq, hword, hwords, List.forall_mem_cons]

/-! ## Pairs of components -/

/-- A single value stands for as many as there are on the other side. -/
def splatted {α : Type} (n : Nat) : List α → List α
  | [x] => List.replicate n x
  | xs => xs

theorem length_splatted {α : Type} {n : Nat} {xs : List α} (h : xs.length = n ∨ xs.length = 1) :
    (splatted n xs).length = n := by
  match xs with
  | [x] => exact List.length_replicate
  | [] | _ :: _ :: _ => simpa [splatted] using h

theorem splatted_of_length {α : Type} {n : Nat} {xs : List α} (h : xs.length = n) :
    splatted n xs = xs := by
  match xs with
  | [x] =>
    obtain rfl : 1 = n := h
    rfl
  | [] | _ :: _ :: _ => rfl

theorem map_splatted {α β : Type} (f : α → β) (n : Nat) (xs : List α) :
    (splatted n xs).map f = splatted n (xs.map f) := by
  match xs with
  | [x] => exact List.map_replicate
  | [] | _ :: _ :: _ => rfl

theorem mem_of_mem_splatted {α : Type} {n : Nat} {xs : List α} {x : α} (h : x ∈ splatted n xs) :
    x ∈ xs := by
  match xs with
  | [y] => exact List.mem_singleton.2 (List.eq_of_mem_replicate h)
  | [] | _ :: _ :: _ => exact h

/-- Components are paired as they are when a single one is repeated. -/
theorem pairUp_eq_zip {n : Nat} {a b : List Float} (ha : a.length = n ∨ a.length = 1)
    (hb : b.length = n ∨ b.length = 1) (hn : a.length = n ∨ b.length = n) :
    pairUp a b = (splatted n a).zip (splatted n b) := by
  unfold pairUp
  split
  · rename_i x
    have hlength : b.length = n := by
      simp only [List.length_singleton] at hn
      omega
    rw [splatted_of_length hlength, splatted]
    refine List.zip_of_prod ?_ ?_
    · simp [Function.comp_def, hlength]
    · simp [Function.comp_def]
  · rename_i y hsingle
    have hlength : a.length = n :=
      ha.resolve_right fun hone => (List.length_eq_one_iff.1 hone).elim hsingle
    rw [splatted_of_length hlength, splatted]
    refine List.zip_of_prod ?_ ?_
    · simp [Function.comp_def]
    · simp [Function.comp_def, hlength]
  · rename_i hleft hright
    have hlengths : a.length = n ∧ b.length = n :=
      ⟨ha.resolve_right fun hone => (List.length_eq_one_iff.1 hone).elim hleft,
        hb.resolve_right fun hone => (List.length_eq_one_iff.1 hone).elim hright⟩
    rw [splatted_of_length hlengths.1, splatted_of_length hlengths.2]

/-! ## Truth values -/

/-- Integers and booleans are equal if their words are. -/
theorem beq_eq_words {x y : Float} (hkind : kind.IsInteger ∨ kind = .boolean) (hx : kind.Holds x)
    (hy : kind.Holds y) : (x == y) = decide (literalBits x kind = literalBits y kind) := by
  obtain integer | rfl := hkind
  · obtain ⟨m, hm, hmrange⟩ := (NumberKind.holds_iff_of_isInteger integer).1 hx
    obtain ⟨n, hn, hnrange⟩ := (NumberKind.holds_iff_of_isInteger integer).1 hy
    rw [beq_eq hm hn, literalBits_of_isInt integer hm, literalBits_of_isInt integer hn]
    exact (decide_eq_decide.2 (Word.ofInt_inj hmrange hnrange)).symm
  · obtain rfl | rfl := hx <;> obtain rfl | rfl := hy <;> decide +kernel

/-- The word that the code of a comparison by order makes of two words. -/
def relationalWord (op : Operator) (ty : NumType) (x y : UInt32) : UInt32 :=
  match op with
  | .lt => BinaryOp.cmpLt.eval ty x y
  | .gt => BinaryOp.cmpLt.eval ty y x
  | .ltEq => BinaryOp.cmpLe.eval ty x y
  | _ => BinaryOp.cmpLe.eval ty y x

/-- Integers compare as their words do. -/
theorem compare_word {x y : Float} (integer : kind.IsInteger) (hx : kind.Holds x)
    (hy : kind.Holds y) : Word.ofBool (compare op x y) =
      relationalWord op kind.integerType (literalBits x kind) (literalBits y kind) := by
  obtain ⟨m, hm, hmrange⟩ := (NumberKind.holds_iff_of_isInteger integer).1 hx
  obtain ⟨n, hn, hnrange⟩ := (NumberKind.holds_iff_of_isInteger integer).1 hy
  rw [literalBits_of_isInt integer hm, literalBits_of_isInt integer hn]
  have hlt := NumberKind.eval_cmpLt integer hmrange hnrange
  have hgt := NumberKind.eval_cmpLt integer hnrange hmrange
  have hle := NumberKind.eval_cmpLe integer hmrange hnrange
  have hge := NumberKind.eval_cmpLe integer hnrange hmrange
  cases op with
  | lt => simp only [compare, relationalWord, lt_iff hm hn, hlt]
  | gt => simp only [compare, relationalWord, lt_iff hn hm, hgt]
  | ltEq => simp only [compare, relationalWord, le_iff hm hn, hle]
  | _ => simp only [compare, relationalWord, le_iff hn hm, hge]

/-- The word that the code of a connective makes of two words. -/
def connectiveWord (op : Operator) (x y : UInt32) : UInt32 :=
  match op with
  | .logicalAnd => x &&& y
  | .logicalOr => x ||| y
  | _ => BinaryOp.cmpNe.eval .int x y

theorem connect_word (op : Operator) (p q : Bool) :
    Word.ofBool (connect op p q) = connectiveWord op (Word.ofBool p) (Word.ofBool q) := by
  cases op <;> cases p <;> cases q <;> decide

end Constant

/-! ## Folded expressions -/

/-- Doubles with the same bits are the same. -/
theorem Double.eq_of_toBits_eq {x y : Float} (h : x.toBits = y.toBits) : x = y := by
  have hunpacked (z : Float) :
      unpacked z = Float.Model.UnpackedFloat.unpack .binary64 z.toBits.toBitVec := rfl
  exact unpacked_injective (by rw [hunpacked, hunpacked, h])

namespace Expr

theorem constantValues?_literals (heads : Expr.Head) (values : List Float) :
    constantValues? (values.map (literal heads ·)) = some values := by
  induction values with
  | nil => rfl
  | cons v rest ih =>
    rw [List.map_cons, constantValues?, ih]
    rfl

/-- An expression with given values has these values. -/
theorem constantValue?_ofConstant (span : Span) {values : List Float} {ty : Ty}
    (hty : ty.isScalar = true ∨ ty.isVector = true) (hlength : values.length = ty.slotCount) :
    (ofConstant span values ty).constantValue? = some values ∧
      (ofConstant span values ty).ty = ty := by
  cases ty with
  | scalar s =>
    obtain ⟨v, rfl⟩ := List.length_eq_one_iff.1 hlength
    exact ⟨rfl, rfl⟩
  | vector s columns =>
    rw [ofConstant]
    split
    · rename_i hsame
      refine ⟨?_, rfl⟩
      have hvalues : List.replicate columns (values.head?.getD 0.0) = values := by
        refine (List.eq_replicate_iff.2 ⟨hlength, fun v hv => ?_⟩).symm
        exact eq_of_toBits_eq (eq_of_beq (List.all_eq_true.1 hsame v hv))
      conv_rhs => rw [← hvalues]
      rfl
    · exact ⟨constantValues?_literals _ values, rfl⟩
  | _ => simp [Ty.isScalar, Ty.isVector] at hty

/-- The value of a boolean literal, and its word. -/
theorem constantValue?_boolean (span : Span) (b : Bool) :
    ∃ v, (boolean span b).constantValue? = some [v] ∧
      constantBits (boolean span b).ty [v] = [Word.ofBool b] :=
  ⟨if b then 1.0 else 0.0, rfl, by
    show constantBits .bool [if b then 1.0 else 0.0] = _
    cases b <;> decide +kernel⟩

end Expr

end RasterShader
