import RasterShader.Proofs.Code.Words
import RasterShader.Proofs.Codegen.Intrinsic
import RasterShader.Proofs.Codegen.Program

/-!
# The order of arguments

The code for a call of an intrinsic has the code of every argument once, with steps in between that
depend on types only (`Intrinsic.push_in_order`).  A step that comes before another argument makes
words of the words that are on the stack already, and touches nothing else, so it may as well wait
until all arguments have been evaluated: the call does what it would do with copies of its
arguments, evaluated one after the other.

They are evaluated from left to right, except by the two comparisons that are expressed by the
opposite one with the arguments exchanged.  An argument with side effects shows the difference
(`Intrinsic.greaterThan_evaluates_right_first`).
-/

namespace RasterShader

/-! ## Words of words -/

/-- The function adds operations that make `m` words of the `n` words on top of the stack, and that
do nothing else. -/
def Builder.MapsWords (n m : Nat) (f : Builder → Builder) : Prop :=
  ∃ h : ∀ {lanes : Nat}, List (Vector UInt32 lanes) → List (Vector UInt32 lanes),
    (∀ {lanes : Nat} (ws : List (Vector UInt32 lanes)), ws.length = n → (h ws).length = m) ∧
      Builder.OnWords f fun us vs => us.length = n ∧ vs = h us

namespace Builder.MapsWords

variable {n m k : Nat} {f g : Builder → Builder}

theorem refl (n : Nat) : MapsWords n n id :=
  ⟨fun ws => ws, fun _ h => h, OnWords.refl.mono fun _ _ h => h.2.symm⟩

theorem comp (hf : MapsWords n m f) (hg : MapsWords m k g) : MapsWords n k fun b => g (f b) := by
  obtain ⟨h, hlength, hwords⟩ := hf
  obtain ⟨h', hlength', hwords'⟩ := hg
  refine ⟨fun ws => h' (h ws), fun ws hws => hlength' _ (hlength ws hws),
    (hwords.comp hwords').mono ?_⟩
  rintro lanes us _ ⟨hus, rfl⟩
  exact ⟨h us, ⟨hus, rfl⟩, hlength us hus, rfl⟩

/-- Words further down are left alone. -/
theorem above (hf : MapsWords n m f) (k : Nat) : MapsWords (k + n) (k + m) f := by
  obtain ⟨h, hlength, hwords⟩ := hf
  refine ⟨fun ws => ws.take k ++ h (ws.drop k), fun ws hws => ?_, hwords.below.mono ?_⟩
  · rw [List.length_append, List.length_take, hlength _ (by rw [List.length_drop]; omega)]
    omega
  · rintro lanes us _ ⟨hus, rfl⟩
    exact ⟨us.take k, us.drop k, h (us.drop k), (List.take_append_drop k us).symm, rfl,
      by rw [List.length_drop]; omega, rfl⟩

theorem pushConstant (bits : UInt32) (count n : Nat) :
    MapsWords n (n + count) (·.pushConstant bits count) := by
  refine ⟨fun {lanes} ws => ws ++ List.replicate count (Vector.replicate lanes bits),
    fun ws hws => by rw [List.length_append, hws, List.length_replicate],
    (OnWords.pushConstant bits count).mono fun us vs h => h.2⟩

theorem pushClone {count distance : Nat} (hcount : count ≤ distance) (hdistance : distance ≤ n) :
    MapsWords n (n + count) (·.pushClone count distance) := by
  refine ⟨fun ws => ws ++ (ws.drop (n - distance)).take count, fun ws hws => ?_,
    (OnWords.pushClone count distance).mono ?_⟩
  · rw [List.length_append, List.length_take, List.length_drop]
    omega
  · rintro lanes us _ ⟨rfl, rfl⟩
    exact ⟨hcount, hdistance, rfl⟩

theorem pushDuplicates (count : Nat) : MapsWords 1 (count + 1) (·.pushDuplicates count) := by
  refine ⟨fun {lanes} ws => List.replicate (count + 1) (ws.headD (Vector.replicate lanes 0)),
    fun ws _ => List.length_replicate, (OnWords.pushDuplicates count).mono ?_⟩
  rintro lanes us _ ⟨hus, rfl⟩
  obtain ⟨w, rfl⟩ := List.length_eq_one_iff.1 hus
  exact ⟨w, rfl, rfl⟩

theorem binary (op : BinaryOp) (ty : NumType) (n : Nat) :
    MapsWords (n + n) n (·.binary op ty n) := by
  refine ⟨fun ws => List.zipWith (Vector.zipWith (op.eval ty)) (ws.take n) (ws.drop n),
    fun ws hws => ?_, (OnWords.binary op ty n).mono ?_⟩
  · rw [List.length_zipWith, List.length_take, List.length_drop]
    omega
  · rintro lanes us _ ⟨hus, rfl⟩
    exact ⟨us.take n, us.drop n, (List.take_append_drop n us).symm,
      by rw [List.length_take]; omega, by rw [List.length_drop]; omega, rfl⟩

end Builder.MapsWords

namespace Operand

open Gen Builder

/-! ## Operands and steps in turn -/

/-- An operand whose value is on the stack already. -/
def onStack (ty : Ty) : Operand := .ofValue ty (pure ())

/-- Pushes operands one after the other, each followed by a step of its own. -/
def pushInOrder : List (Operand × GenM Unit) → GenM Unit
  | [] => pure ()
  | [(x, step)] => do
    x.push
    step
  | (x, step) :: rest => do
    x.push
    step
    pushInOrder rest

/-- Steps after operands of given types, of which all but the last make words of the words there
are; so many are there before. -/
inductive Between : Nat → List Ty → List (GenM Unit) → Prop
  | nil {n : Nat} : Between n [] []
  | last {n : Nat} {ty : Ty} {step : GenM Unit} : Between n [ty] [step]
  | cons {n m : Nat} {ty : Ty} {types : List Ty} {f : Builder → Builder} {steps : List (GenM Unit)}
    (first : MapsWords (n + ty.slotCount) m f) (rest : Between m types steps) :
    Between n (ty :: types) (build f :: steps)

/-- Operands with nothing between them. -/
theorem exists_between (n : Nat) (types : List Ty) : ∃ steps, Between n types steps := by
  induction types generalizing n with
  | nil => exact ⟨[], .nil⟩
  | cons ty rest ih =>
    obtain ⟨steps, between⟩ := ih (n + ty.slotCount)
    exact ⟨_, .cons (.refl _) between⟩

/-- The words of the first operand are the only ones. -/
theorem Between.first {n m : Nat} {ty : Ty} {types : List Ty} {f : Builder → Builder}
    {steps : List (GenM Unit)} (hn : ty.slotCount = n) (first : MapsWords n m f)
    (rest : Between m types steps) : Between 0 (ty :: types) (build f :: steps) :=
  .cons (by rwa [Nat.zero_add, hn]) rest

/-- Repeats a single word. -/
def splat (ty : Ty) (count : Nat) : Builder → Builder :=
  if ty.slotCount = 1 ∧ 1 < count then (·.pushDuplicates (count - 1)) else id

theorem pushSplatted_eq (x : Operand) (count : Nat) :
    x.pushSplatted count = (do x.push; build (splat x.ty count)) := by
  unfold pushSplatted splat slots
  split_ifs <;> rfl

theorem mapsWords_splat {ty : Ty} {count : Nat} (hcount : 0 < count) (h : ty.Spreads count) :
    MapsWords ty.slotCount count (splat ty count) := by
  unfold splat
  split_ifs with hsingle
  · have hduplicates := MapsWords.pushDuplicates (count - 1)
    rw [Nat.sub_add_cancel hcount] at hduplicates
    rwa [hsingle.1]
  · have hslots : ty.slotCount = count := by
      obtain h | h := h <;> omega
    rw [hslots]
    exact .refl count

end Operand

namespace Intrinsic

open Gen Builder Operand

/-- The intrinsics that are expressed by the opposite comparison. -/
def isSwapped : Intrinsic → Bool
  | greaterThan | greaterThanEqual => true
  | _ => false

/-- The order in which arguments are evaluated. -/
def evaluationOrder {α : Type} (f : Intrinsic) (arguments : List α) : List α :=
  if f.isSwapped then arguments.reverse else arguments

/-! ## Intrinsics by the number of arguments -/

variable {f : Intrinsic} {result : Ty} {types : List Ty}

theorem push1_eq (f : Intrinsic) (fail : GenM Unit) (ty : NumType) (n : Nat) (x : Operand) :
    f.push1 fail ty n x = fail ∨
      f.push1 fail ty n x = (do x.push; f.push1 (pure ()) ty n (.onStack x.ty)) := by
  cases f <;> first | exact .inl rfl | exact .inr rfl

theorem componentwise_eq (op : BinaryOp) (ty : NumType) (x y : Operand) (n : Nat) :
    componentwise op ty x y n =
      (do x.push; y.push; componentwise op ty (.onStack x.ty) (.onStack y.ty) n) := by
  unfold componentwise pushSplatted
  simp only [bind_assoc]
  rfl

theorem push2_eq (f : Intrinsic) (fail : GenM Unit) (result : Ty) (ty : NumType) (n : Nat)
    (x y : Operand) (hstep : f ≠ .step) :
    f.push2 fail result ty n x y = fail ∨
      f.push2 fail result ty n x y = pushInOrder ((f.evaluationOrder [x, y]).zip
        [build id, f.push2 (pure ()) result ty n (.onStack x.ty) (.onStack y.ty)]) := by
  cases f with
  | step => exact absurd rfl hstep
  | _ =>
    first
    | exact .inl rfl
    | exact .inr rfl
    | exact .inr (componentwise_eq _ _ _ _ _)

/-- Flips the sign of `n` words. -/
def negateTop (ty : NumType) (n : Nat) (b : Builder) : Builder :=
  match ty with
  | .float => (b.pushConstant Word.signBit n).binary .bitwiseXor .int n
  | ty => (b.pushConstant Word.allOnes n).binary .mul ty n

theorem negate_eq {ty : Ty} {kind : NumType} (h : NumType.ofTy ty = .ok kind) (n : Nat) :
    negate ty n = build (negateTop kind n) := by
  unfold negate
  rw [h]
  cases kind <;> rfl

theorem mapsWords_negateTop (ty : NumType) (n : Nat) : MapsWords n n (negateTop ty n) := by
  cases ty with
  | float => exact (MapsWords.pushConstant _ n n).comp (.binary .bitwiseXor .int n)
  | int => exact (MapsWords.pushConstant _ n n).comp (.binary .mul .int n)
  | uint => exact (MapsWords.pushConstant _ n n).comp (.binary .mul .uint n)

/-- The steps of `step`. -/
def stepSteps (result tx ty : Ty) : List (GenM Unit) :=
  let n := result.slotCount
  [build (splat tx n), do
    build (splat ty n)
    build fun b => ((b.binary .cmpLe .float n).pushConstant Word.one n).binary .bitwiseAnd .int n]

theorem push2_step (fail : GenM Unit) (result : Ty) (ty : NumType) (n : Nat) (x y : Operand) :
    step.push2 fail result ty n x y = pushInOrder ([x, y].zip (stepSteps result x.ty y.ty)) := by
  simp only [push2, pushSplatted_eq, bind_assoc]
  rfl

/-- The steps of an intrinsic with three arguments, the first of which has `n` slots. -/
def steps3 (f : Intrinsic) (result tx ty tz : Ty) (kind : NumType) (n : Nat) : List (GenM Unit) :=
  match f with
  | clamp =>
    [build id, build fun b => (splat ty n b).binary .max kind n, do
      build (splat tz n)
      build (·.binary .min kind n)]
  | smoothstep =>
    let n := result.slotCount
    [build (splat tx n), build (splat ty n), do
      build (splat tz n)
      build (·.ternary .smoothstep .float n)]
  | refract =>
    [build (·.pushZeros (4 - n)), build (·.pushZeros (4 - n)),
      build fun b => (b.emit .refract).discard (4 - n)]
  | faceforward =>
    [build fun b => (negateTop kind n (b.pushClone n n)).pushZeros 1, build id,
      build fun b =>
        (((dotTop n b).binary .cmpLe .float 1).pushDuplicates (n - 1)).ternary .mix .int n]
  | _ =>
    [build id, build id, do
      build (splat tz n)
      build (·.ternary .mix (if tz.isBoolean then .int else .float) n)]

theorem push3_eq (f : Intrinsic) (fail : GenM Unit) (result : Ty) (kind : NumType) (n : Nat)
    (x y z : Operand) (hkind : NumType.ofTy x.ty = .ok kind) :
    (∃ e, f.push3 fail result kind n x y z = throw e) ∨
      f.push3 fail result kind n x y z = fail ∨
      f.push3 fail result kind n x y z =
        pushInOrder ([x, y, z].zip (f.steps3 result x.ty y.ty z.ty kind n)) := by
  cases f with
  | clamp =>
    refine .inr (.inr ?_)
    simp only [push3, pushSplatted_eq, bind_assoc]
    rfl
  | mix =>
    refine .inr (.inr ?_)
    simp only [push3, pushSplatted_eq, bind_assoc]
    rfl
  | smoothstep =>
    refine .inr (.inr ?_)
    simp only [push3, pushSplatted_eq, bind_assoc]
    rfl
  | refract =>
    by_cases hwide : 4 < n
    · exact .inl ⟨.wideRefract, by simp only [push3, if_pos hwide]; rfl⟩
    · refine .inr (.inr ?_)
      simp only [push3, if_neg hwide]
      rfl
  | faceforward =>
    refine .inr (.inr ?_)
    simp only [push3, negate_eq hkind]
    rfl
  | _ => exact .inr (.inl rfl)

/-- Steps for an intrinsic that is called with arguments of given types. -/
structure Steps (f : Intrinsic) (result : Ty) (types : List Ty) (steps : List (GenM Unit)) :
    Prop where
  /-- All but the last make words of words. -/
  between : Between 0 (f.evaluationOrder types) steps
  /-- A call has its arguments in order and the steps in between, or is not supported. -/
  push : ∀ (call : Expr) (arguments : List Operand), call.ty = result →
    arguments.map Operand.ty = types →
      (∃ e, f.push call arguments = throw e) ∨
        f.push call arguments = pushInOrder ((f.evaluationOrder arguments).zip steps)

/-- What is not supported has any steps. -/
theorem steps_of_throw (h : ∀ (call : Expr) (arguments : List Operand), call.ty = result →
    arguments.map Operand.ty = types → ∃ e, f.push call arguments = throw e) :
    ∃ steps, Steps f result types steps := by
  obtain ⟨steps, between⟩ := exists_between 0 (f.evaluationOrder types)
  exact ⟨steps, between, fun call arguments hresult htypes => .inl (h call arguments hresult htypes)⟩

/-- An argument without a number type is refused before anything else. -/
theorem push_eq_throw {call : Expr} {x : Operand} {rest : List Operand} {e : Unsupported}
    (h : NumType.ofTy x.ty = .error e) : f.push call (x :: rest) = throw e := by
  unfold push
  dsimp only
  rw [h]
  rfl

theorem push_eq {call : Expr} {x : Operand} {rest : List Operand} {kind : NumType}
    (h : NumType.ofTy x.ty = .ok kind) :
    f.push call (x :: rest) =
      match rest with
      | [] => f.push1 (throw (.intrinsicCall call.text)) kind x.slots x
      | [y] => f.push2 (throw (.intrinsicCall call.text)) call.ty kind x.slots x y
      | [y, z] => f.push3 (throw (.intrinsicCall call.text)) call.ty kind x.slots x y z
      | _ => throw (.intrinsicCall call.text) := by
  unfold push
  dsimp only
  rw [h]
  rfl

/-- Steps that turn out right for every number type of the first argument. -/
theorem exists_steps {tx : Ty} {rest : List Ty}
    (h : ∀ kind, NumType.ofTy tx = .ok kind → ∃ steps, Steps f result (tx :: rest) steps) :
    ∃ steps, Steps f result (tx :: rest) steps := by
  cases hkind : NumType.ofTy tx with
  | error e =>
    refine steps_of_throw fun call arguments _ htypes => ?_
    obtain ⟨x, others, rfl, rfl, -⟩ := List.map_eq_cons_iff.1 htypes
    exact ⟨e, push_eq_throw hkind⟩
  | ok kind => exact h kind hkind

theorem exists_steps1 (f : Intrinsic) (result tx : Ty) : ∃ steps, Steps f result [tx] steps := by
  refine exists_steps fun kind hkind => ?_
  have horder {α : Type} (a : α) : f.evaluationOrder [a] = [a] := by
    unfold evaluationOrder
    split_ifs <;> rfl
  refine ⟨[f.push1 (pure ()) kind tx.slotCount (.onStack tx)], ?_, ?_⟩
  · rw [horder]
    exact .last
  · intro call arguments _ htypes
    obtain ⟨x, others, rfl, rfl, hothers⟩ := List.map_eq_cons_iff.1 htypes
    obtain rfl := List.map_eq_nil_iff.1 hothers
    rw [horder, push_eq hkind]
    obtain h | h := f.push1_eq (throw (.intrinsicCall call.text)) kind x.slots x
    · exact .inl ⟨_, h⟩
    · exact .inr h

theorem exists_steps2 {tx ty : Ty} (h : f.Fits [tx, ty] result) :
    ∃ steps, Steps f result [tx, ty] steps := by
  refine exists_steps fun kind hkind => ?_
  have of_push2 {steps : List (GenM Unit)}
      (between : Between 0 (f.evaluationOrder [tx, ty]) steps)
      (hsteps : ∀ (fail : GenM Unit) (x y : Operand), x.ty = tx → y.ty = ty →
        f.push2 fail result kind tx.slotCount x y = fail ∨
          f.push2 fail result kind tx.slotCount x y =
            pushInOrder ((f.evaluationOrder [x, y]).zip steps)) :
      ∃ steps, Steps f result [tx, ty] steps := by
    refine ⟨steps, between, fun call arguments hresult htypes => ?_⟩
    obtain ⟨x, others, rfl, rfl, hothers⟩ := List.map_eq_cons_iff.1 htypes
    obtain ⟨y, none, rfl, rfl, hnone⟩ := List.map_eq_cons_iff.1 hothers
    obtain rfl := List.map_eq_nil_iff.1 hnone
    subst hresult
    rw [push_eq hkind]
    obtain h | h := hsteps (throw (.intrinsicCall call.text)) x y rfl rfl
    · exact .inl ⟨_, h⟩
    · exact .inr h
  by_cases hstep : f = .step
  · subst hstep
    obtain ⟨-, hpos, hx, -⟩ := h
    have between : Between 0 [tx, ty] (stepSteps result tx ty) :=
      .first rfl (mapsWords_splat hpos hx) .last
    refine of_push2 between fun fail x y hx hy => .inr ?_
    subst hx hy
    exact push2_step fail result kind x.slots x y
  · have between : Between 0 (f.evaluationOrder [tx, ty])
        [build id, f.push2 (pure ()) result kind tx.slotCount (.onStack tx) (.onStack ty)] := by
      unfold evaluationOrder
      split_ifs
      · exact .first rfl (.refl _) .last
      · exact .first rfl (.refl _) .last
    refine of_push2 between fun fail x y hx hy => ?_
    subst hx hy
    exact f.push2_eq fail result kind x.slots x y hstep

theorem between_steps3 {tx ty tz : Ty} (kind : NumType) (h : f.Fits [tx, ty, tz] result) :
    Between 0 [tx, ty, tz] (f.steps3 result tx ty tz kind tx.slotCount) := by
  obtain ⟨hpos, h⟩ := h
  cases f with
  | clamp =>
    exact .first rfl (.refl _)
      (.cons (((mapsWords_splat hpos h.1).above _).comp (.binary .max kind _)) .last)
  | smoothstep =>
    exact .first rfl (mapsWords_splat h.1 h.2.1)
      (.cons ((mapsWords_splat h.1 h.2.2.1).above _) .last)
  | refract => exact .first rfl (.pushConstant 0 _ _) (.cons (.pushConstant 0 _ _) .last)
  | faceforward =>
    exact .first rfl ((((MapsWords.pushClone le_rfl le_rfl).comp
      ((mapsWords_negateTop kind _).above _)).comp (.pushConstant 0 1 _))) (.cons (.refl _) .last)
  | _ => exact .first rfl (.refl _) (.cons (.refl _) .last)

theorem exists_steps3 {tx ty tz : Ty} (h : f.Fits [tx, ty, tz] result) :
    ∃ steps, Steps f result [tx, ty, tz] steps := by
  refine exists_steps fun kind hkind => ?_
  cases hswapped : f.isSwapped with
  | true =>
    refine steps_of_throw fun call arguments _ htypes => ?_
    obtain ⟨x, others, rfl, rfl, hothers⟩ := List.map_eq_cons_iff.1 htypes
    obtain ⟨y, third, rfl, rfl, hthird⟩ := List.map_eq_cons_iff.1 hothers
    obtain ⟨z, none, rfl, rfl, hnone⟩ := List.map_eq_cons_iff.1 hthird
    obtain rfl := List.map_eq_nil_iff.1 hnone
    rw [push_eq hkind]
    cases f with
    | greaterThan | greaterThanEqual => exact ⟨_, rfl⟩
    | _ => cases hswapped
  | false =>
    have horder {α : Type} (a b c : α) : f.evaluationOrder [a, b, c] = [a, b, c] := by
      rw [evaluationOrder, hswapped]
      rfl
    refine ⟨f.steps3 result tx ty tz kind tx.slotCount, ?_, ?_⟩
    · rw [horder]
      exact between_steps3 kind h
    · intro call arguments hresult htypes
      obtain ⟨x, others, rfl, rfl, hothers⟩ := List.map_eq_cons_iff.1 htypes
      obtain ⟨y, third, rfl, rfl, hthird⟩ := List.map_eq_cons_iff.1 hothers
      obtain ⟨z, none, rfl, rfl, hnone⟩ := List.map_eq_cons_iff.1 hthird
      obtain rfl := List.map_eq_nil_iff.1 hnone
      subst hresult
      rw [horder, push_eq hkind]
      obtain h | h | h :=
        f.push3_eq (throw (.intrinsicCall call.text)) call.ty kind x.slots x y z hkind
      · exact .inl h
      · exact .inl ⟨_, h⟩
      · exact .inr h

/-- The arguments of an intrinsic are evaluated once each, one after the other, whatever they are.
What comes in between depends on the types only, and makes words of the words that have been pushed
so far. -/
theorem push_in_order (h : f.Fits types result) : ∃ steps, Steps f result types steps := by
  match types with
  | [] =>
    refine steps_of_throw fun call arguments _ htypes => ?_
    obtain rfl := List.map_eq_nil_iff.1 htypes
    exact ⟨_, rfl⟩
  | [tx] => exact exists_steps1 f result tx
  | [_, _] => exact exists_steps2 h
  | [_, _, _] => exact exists_steps3 h
  | tx :: ty :: tz :: tw :: others =>
    refine exists_steps fun kind hkind => steps_of_throw fun call arguments _ htypes => ?_
    obtain ⟨x, arguments, rfl, rfl, hothers⟩ := List.map_eq_cons_iff.1 htypes
    obtain ⟨y, arguments, rfl, rfl, hthird⟩ := List.map_eq_cons_iff.1 hothers
    obtain ⟨z, arguments, rfl, rfl, hfourth⟩ := List.map_eq_cons_iff.1 hthird
    obtain ⟨w, arguments, rfl, rfl, -⟩ := List.map_eq_cons_iff.1 hfourth
    exact ⟨_, push_eq hkind⟩

theorem push_in_order_clamp :
    clamp.Fits [.vector .float 2, .float, .float] (.vector .float 2) ∧
      ∃ steps, Steps clamp (.vector .float 2) [.vector .float 2, .float, .float] steps :=
  have h : clamp.Fits [.vector .float 2, .float, .float] (.vector .float 2) :=
    ⟨by decide, .inr rfl, .inr rfl, rfl⟩
  ⟨h, push_in_order h⟩

/-! ## Comparisons that are exchanged -/

/-- The colors of a shader that knows a single built-in function. -/
def comparingColors? (body : String) : Option (List (Rgba UInt32)) := do
  let library := Library.root.extend .generic "sksl_shared"
    ["$pure $bvec greaterThan($vec x, $vec y);"]
  let source := "half4 main(float2 p) \x7b float2 a = float2(0); " ++ body ++
    " return half4(half(r.x)); \x7d"
  let program ← (Program.readOn library ⟨.runtimeShader, Settings.standard⟩ source).toOption
  program.colors? 1 [] [.zero]

/-- The second argument is evaluated before the first one adds to `a`, other than with copies that
are made from left to right. -/
theorem greaterThan_evaluates_right_first :
    comparingColors? "bool2 r = greaterThan(a += float2(1), a);" = some [.splat Word.one] ∧
      comparingColors? "float2 x = a += float2(1); float2 y = a; bool2 r = greaterThan(x, y);" =
        some [.splat 0] := by
  decide +kernel

end Intrinsic

end RasterShader
