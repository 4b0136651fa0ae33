import Mathlib
import RasterShader.Proofs.Stack.Depth

/-!
# What emitting does to the depths of the stacks

Every call of a builder changes the depth of the current stack by what the call stands for, whatever
instructions are there to be joined, trimmed or replaced: the rewrites of `Code` keep the sums of
usages.  Depths of other stacks never change.
-/

namespace RasterShader

namespace Code

variable (stack t : Int)

/-! ## Joining -/

theorem stackDepth_pushConstant (count : Nat) (bits : UInt32) (code : Code) :
    stackDepth (pushConstant stack count bits code) t =
      stackDepth code t + if stack = t then (count : Int) else 0 := by
  fun_cases pushConstant stack count bits code with
  | case1 n b s rest h =>
    obtain ⟨rfl, rfl⟩ := h
    simp only [stackDepth_cons, Op.stackUsage]
    split <;> omega
  | case2 | case3 =>
    simp only [stackDepth_cons, Op.stackUsage]
    omega

theorem stackDepth_pushSlots (space : SlotSpace) (range : SlotRange) (code : Code) :
    stackDepth (pushSlots stack space range code) t =
      stackDepth code t + if stack = t then (range.count : Int) else 0 := by
  fun_cases pushSlots stack space range code with
  | case1 p r s rest h =>
    obtain ⟨rfl, rfl, -⟩ := h
    simp only [stackDepth_cons, Op.stackUsage]
    split <;> omega
  | case2 | case3 =>
    simp only [stackDepth_cons, Op.stackUsage]
    omega

theorem stackDepth_copySlots (target source count : Nat) (code : Code) :
    stackDepth (copySlots stack target source count code) t = stackDepth code t := by
  fun_cases copySlots stack target source count code <;> simp [stackDepth_cons, Op.stackUsage]

theorem stackDepth_zeroSlots (range : SlotRange) (code : Code) :
    stackDepth (zeroSlots stack range code) t = stackDepth code t := by
  fun_cases zeroSlots stack range code <;> simp [stackDepth_cons, Op.stackUsage]

theorem stackDepth_pushMask (mask : Mask) (code : Code) :
    stackDepth (pushMask stack mask code) t = stackDepth code t + if stack = t then 1 else 0 := by
  fun_cases pushMask stack mask code with
  | case1 | case2 | case3 =>
    simp only [stackDepth_cons, Op.stackUsage, Nat.cast_one]
    omega

/-! ## Discarding -/

/-- A trimmed push pushes what it says. -/
theorem stackUsage_trimmable {op : Op} {n : Nat} {push : Nat → Op}
    (h : trimmable? op = some (n, push)) :
    op.stackUsage = n ∧ ∀ k, (push k).stackUsage = k := by
  cases op <;> simp only [trimmable?, Option.some.injEq, Prod.mk.injEq, reduceCtorEq] at h
  all_goals
    obtain ⟨rfl, rfl⟩ := h
    exact ⟨rfl, fun _ => rfl⟩

theorem stackUsage_inPlace {op : Op} {n : Nat} (h : inPlace? op = some n) :
    op.stackUsage = 0 := by
  cases op with
  | unary | binaryImm => rfl
  | _ => simp [inPlace?] at h

theorem stackDepth_storeDirectly {target : SlotRange} {code code' : Code}
    (h : storeDirectly? stack target code = some code') :
    stackDepth code' t = stackDepth code t - if stack = t then (target.count : Int) else 0 := by
  revert h
  fun_cases storeDirectly? stack target code with
  | case1 source s rest hs hi =>
    rintro ⟨⟩
    obtain ⟨rfl, hcount⟩ := hs
    simp only [stackDepth_cons, Op.stackUsage, hcount]
    omega
  | case2 | case4 | case6 | case7 => simp
  | case3 source s rest hs hi ho =>
    rintro ⟨⟩
    obtain ⟨rfl, hcount⟩ := hs
    simp only [stackDepth_copySlots, stackDepth_cons, Op.stackUsage, hcount]
    omega
  | case5 op ty count bits s source s' rest hs =>
    rintro ⟨⟩
    obtain ⟨rfl, rfl, rfl, rfl⟩ := hs
    simp only [stackDepth_cons, Op.stackUsage]
    split <;> omega

theorem stackDepth_discard (count : Nat) (code : Code) :
    stackDepth (discard stack count code) t =
      stackDepth code t - if stack = t then (count : Int) else 0 := by
  fun_induction discard stack count code with
  | case1 code => simp
  | case2 | case3 | case8 | case10 | case11 | case12 =>
    simp only [stackDepth_cons, stackDepth_nil, Op.stackUsage]
    split <;> omega
  | case4 count hc i rest hs n hop =>
    obtain rfl := not_not.1 hs
    simp only [stackDepth_cons, hop, Op.stackUsage]
    split <;> omega
  | case5 count hc i rest hs n push hpush hn _ ih =>
    obtain rfl := not_not.1 hs
    rw [ih, stackDepth_cons, (stackUsage_trimmable hpush).1]
    split <;> omega
  | case6 count hc i rest hs n push hpush hn _ =>
    obtain rfl := not_not.1 hs
    obtain ⟨husage, hpushed⟩ := stackUsage_trimmable hpush
    rw [stackDepth_cons, stackDepth_cons, husage, hpushed]
    split <;> omega
  | case7 count hc i rest hs n hn hle _ _ ih =>
    rw [ih, stackDepth_cons, stackUsage_inPlace hn]
    simp
  | case9 count hc i rest hs target distance hop hd code' hcode' _ _ ih =>
    rw [ih, stackDepth_cons, hop, stackDepth_storeDirectly stack t hcode']
    simp only [Op.stackUsage]
    split <;> omega

/-! ## Immediates -/

theorem stackUsage_immediate (op : BinaryOp) (ty : NumType) (count : Nat) (bits : UInt32) :
    (immediate op ty count bits).stackUsage = 0 := by
  fun_cases immediate op ty count bits <;> rfl

theorem stackDepth_dropConstants {n count : Nat} (h : count ≤ n) (bits : UInt32) (rest : Code) :
    stackDepth (dropConstants stack n count bits rest) t =
      stackDepth rest t + if stack = t then (n : Int) - count else 0 := by
  fun_cases dropConstants stack n count bits rest with
  | case1 hn =>
    rw [hn]
    simp
  | case2 =>
    simp only [stackDepth_cons, Op.stackUsage]
    split <;> omega

theorem stackDepth_foldImmediate {op : BinaryOp} {ty : NumType} {count : Nat} {code code' : Code}
    (h : foldImmediate? stack op ty count code = some code') :
    stackDepth code' t = stackDepth code t - if stack = t then (count : Int) else 0 := by
  revert h
  fun_cases foldImmediate? stack op ty count code with
  | case1 n bits s rest hs =>
    rintro ⟨⟩
    obtain ⟨rfl, hle, -⟩ := hs
    simp only [stackDepth_cons, stackUsage_immediate, stackDepth_dropConstants _ _ hle]
    simp only [Op.stackUsage]
    split <;> omega
  | case3 space range s n bits s' rest hs =>
    rintro ⟨⟩
    obtain ⟨rfl, rfl, -, -, hle, -⟩ := hs
    simp only [stackDepth_cons, stackUsage_immediate, stackDepth_dropConstants _ _ hle]
    simp only [Op.stackUsage]
    split <;> omega
  | case2 | case4 | case5 => simp

/-! ## Swizzles -/

theorem stackUsage_selection (consumed : Nat) (components : List Nat) :
    (selection consumed components).stackUsage = (components.length : Int) - consumed := by
  fun_cases selection consumed components <;> rfl

/-- What holds of a swizzle and is kept when a first component that stays where it is is left out
holds of what remains. -/
theorem trimIdentity_induction {P : Nat × List Nat → Prop} {consumed : Nat} {components : List Nat}
    (start : P (consumed, components))
    (step : ∀ consumed rest, 0 ∉ rest → P (consumed, 0 :: rest) →
      P (consumed - 1, rest.map (· - 1))) :
    P (trimIdentity consumed components) := by
  induction hn : components.length generalizing consumed components with
  | zero =>
    obtain rfl := List.length_eq_zero_iff.1 hn
    rw [trimIdentity]
    · exact start
    · simp
  | succ n ih =>
    rw [trimIdentity.eq_def]
    split
    · rename_i rest
      split
      · exact start
      · rename_i hzero
        exact ih (step consumed rest (by simpa using hzero) start) (by simpa using hn)
    · exact start

/-- Leaving out components that stay where they are leaves out words that are consumed. -/
theorem trimIdentity_usage {consumed : Nat} {components : List Nat}
    (h : ∀ c ∈ components, c < consumed) :
    ((trimIdentity consumed components).2.length : Int) - (trimIdentity consumed components).1 =
      (components.length : Int) - consumed ∧
    ∀ c ∈ (trimIdentity consumed components).2, c < (trimIdentity consumed components).1 := by
  refine trimIdentity_induction (P := fun r =>
    (r.2.length : Int) - r.1 = (components.length : Int) - consumed ∧ ∀ c ∈ r.2, c < r.1)
    ⟨rfl, h⟩ ?_
  rintro k rest hzero ⟨husage, hlt⟩
  have hk := hlt 0 (List.mem_cons_self ..)
  refine ⟨?_, ?_⟩
  · simp only [List.length_map, List.length_cons] at husage ⊢
    omega
  · intro c hc
    obtain ⟨d, hd, rfl⟩ := List.mem_map.1 hc
    have hlt := hlt d (List.mem_cons_of_mem _ hd)
    have hpos : d ≠ 0 := fun hd0 => hzero (hd0 ▸ hd)
    simp only at hlt ⊢
    omega

/-! ## Branches -/

theorem stackDepth_dropWhile (p : Instruction → Bool) (code : Code)
    (hp : ∀ i, p i = true → ∃ label, i.op.branchTarget? = some label) :
    stackDepth (code.dropWhile p) t = stackDepth code t := by
  induction code with
  | nil => rfl
  | cons i rest ih =>
    rw [List.dropWhile_cons]
    split
    · rename_i hi
      obtain ⟨label, hlabel⟩ := hp i hi
      have husage : i.op.stackUsage = 0 := by
        obtain ⟨op, s⟩ := i
        cases op with
        | branch => rfl
        | _ => simp [Op.branchTarget?] at hlabel
      rw [ih, stackDepth_cons, husage]
      simp
    · rfl

theorem stackDepth_withoutBranchesTo (label : Int) (code : Code) :
    stackDepth (withoutBranchesTo label code) t = stackDepth code t := by
  apply stackDepth_dropWhile
  intro i hi
  exact ⟨label, by simpa using hi⟩

theorem stackDepth_withoutConditionalsTo (label : Int) (code : Code) :
    stackDepth (withoutConditionalsTo label code) t = stackDepth code t := by
  apply stackDepth_dropWhile
  intro i hi
  simp only [Bool.and_eq_true, beq_iff_eq] at hi
  exact ⟨label, hi.2⟩

end Code

end RasterShader
