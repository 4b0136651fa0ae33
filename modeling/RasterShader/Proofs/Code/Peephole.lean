import Mathlib
import RasterShader.Proofs.Arithmetic.Float
import RasterShader.Proofs.Code.Outcome

/-!
# The rewrites of a builder keep what code does

For every function on code there is a lemma that says: the code it gives improves the code in which
the instruction is just added (`Code.Improves`).  The lemmas hold for whatever code is there before,
so the rewrites may follow each other in any order.

The states before and after are compared on the stack machine, where a push followed by a pop, or
an operation on words that are popped afterwards, is an equation between changes of one list
(`StackMachine.replace_replace_of_le`, `StackMachine.replace_replace_of_ge`).
-/

namespace RasterShader

variable {lanes : Nat}

/-! ## Changes of the top of a stack, one after the other -/

namespace StackMachine

theorem ext_stack {σ τ : StackMachine lanes} (memory : σ.memory = τ.memory)
    (stack : σ.stack = τ.stack) : σ = τ := by
  cases σ
  cases τ
  simp_all

/-- A change of the top after one that put at least as many words there. -/
theorem replace_replace_of_le (σ : StackMachine lanes) (s : Int) (a : Nat) {b : Nat}
    {ws : List (Vector UInt32 lanes)} (vs : List (Vector UInt32 lanes)) (h : b ≤ ws.length) :
    (σ.replace s a ws).replace s b vs = σ.replace s a (ws.take (ws.length - b) ++ vs) := by
  refine ext_stack rfl ?_
  simp only [replace, Function.update_self, Function.update_idem, List.length_append]
  congr 1
  rw [List.take_append, List.take_of_length_le (by omega), List.append_assoc]
  congr 3
  omega

/-- A change of the top that reaches below what the one before has put there. -/
theorem replace_replace_of_ge (σ : StackMachine lanes) (s : Int) {a b : Nat}
    {ws : List (Vector UInt32 lanes)} (vs : List (Vector UInt32 lanes)) (h : ws.length ≤ b)
    (ha : a ≤ (σ.stack s).length) :
    (σ.replace s a ws).replace s b vs = σ.replace s (a + (b - ws.length)) vs := by
  refine ext_stack rfl ?_
  simp only [replace, Function.update_self, Function.update_idem, List.length_append,
    List.length_take]
  congr 2
  rw [List.take_append_of_le_length (by simp; omega), List.take_take]
  congr 1
  omega

/-- Nothing is replaced by nothing. -/
theorem replace_zero_nil (σ : StackMachine lanes) (s : Int) : σ.replace s 0 [] = σ := by
  refine ext_stack rfl ?_
  simp [replace]

theorem push_push (σ : StackMachine lanes) (s : Int) (ws vs : List (Vector UInt32 lanes)) :
    (σ.push s ws).push s vs = σ.push s (ws ++ vs) := by
  rw [push, push, replace_replace_of_le _ _ _ _ (Nat.zero_le _)]
  simp [push]

theorem pop_pop (σ : StackMachine lanes) (s : Int) {a : Nat} (b : Nat)
    (ha : a ≤ (σ.stack s).length) : (σ.pop s a).pop s b = σ.pop s (a + b) := by
  rw [pop, pop, replace_replace_of_ge _ _ _ (Nat.zero_le _) ha]
  rfl

theorem pop_push_of_le (σ : StackMachine lanes) (s : Int) {n : Nat}
    {ws : List (Vector UInt32 lanes)} (h : n ≤ ws.length) :
    (σ.push s ws).pop s n = σ.push s (ws.take (ws.length - n)) := by
  rw [push, pop, replace_replace_of_le _ _ _ _ h, List.append_nil]
  rfl

theorem pop_push_of_ge (σ : StackMachine lanes) (s : Int) {n : Nat}
    {ws : List (Vector UInt32 lanes)} (h : ws.length ≤ n) :
    (σ.push s ws).pop s n = σ.pop s (n - ws.length) := by
  rw [push, pop, replace_replace_of_ge _ _ _ h (Nat.zero_le _), Nat.zero_add]
  rfl

/-- Words that were replaced one by one do not matter when they are popped. -/
theorem pop_replace (σ : StackMachine lanes) (s : Int) {n m : Nat}
    {ws : List (Vector UInt32 lanes)} (hws : ws.length = n) (h : n ≤ m)
    (hn : n ≤ (σ.stack s).length) : (σ.replace s n ws).pop s m = σ.pop s m := by
  rw [pop, replace_replace_of_ge _ _ _ (by omega) hn, hws, Nat.add_sub_cancel' h]
  rfl

/-- The words that a push reaches below itself, and its own. -/
theorem peek_push (σ : StackMachine lanes) (s : Int) {n : Nat} (ws : List (Vector UInt32 lanes))
    (hn : n ≤ (σ.stack s).length) :
    (σ.push s ws).peek s (n + ws.length) (n + ws.length) = σ.peek s n n ++ ws := by
  have hlen : ((σ.stack s).drop ((σ.stack s).length - n)).length = n := by
    rw [List.length_drop]
    omega
  simp only [peek, push, replace, Function.update_self, Nat.sub_zero, List.take_length,
    List.length_append]
  rw [List.drop_append_of_le_length (by omega), Nat.add_sub_add_right,
    List.take_of_length_le (by rw [List.length_append, hlen]), List.take_of_length_le hlen.le]

/-- What was just pushed. -/
theorem peek_push_self (σ : StackMachine lanes) (s : Int) (ws : List (Vector UInt32 lanes)) :
    (σ.push s ws).peek s ws.length ws.length = ws := by
  have h := σ.peek_push s (n := 0) ws (Nat.zero_le _)
  rw [Nat.zero_add] at h
  rw [h]
  simp [peek]

/-- An operation on words of which the upper ones were just pushed. -/
theorem transform_push (σ : StackMachine lanes) (s : Int) {n m : Nat}
    {ws : List (Vector UInt32 lanes)}
    (f : List (Vector UInt32 lanes) → List (Vector UInt32 lanes)) (hm : m = n + ws.length)
    (hn : n ≤ (σ.stack s).length) :
    (σ.push s ws).transform s m f = σ.replace s n (f (σ.peek s n n ++ ws)) := by
  subst hm
  rw [transform, σ.peek_push s ws hn, push, replace_replace_of_ge _ _ _ (by omega) (Nat.zero_le _)]
  congr 1
  omega

/-- Words that are pushed, stored to slots and popped again are written to the slots. -/
theorem pop_store_push (σ : StackMachine lanes) (s : Int) {n : Nat} (t : Nat)
    {ws : List (Vector UInt32 lanes)} (hws : ws.length = n) :
    ((σ.push s ws).onMemory (·.store false t ((σ.push s ws).peek s n n))).pop s n =
      σ.onMemory (·.overwrite t ws) := by
  subst hws
  rw [peek_push_self]
  have hpop := σ.pop_push_of_ge s (le_refl ws.length)
  rw [Nat.sub_self, pop, pop, replace_zero_nil] at hpop
  refine ext_stack ?_ ?_
  · simp [Machine.store]
  · have hstack : ((σ.push s ws).replace s ws.length []).stack = σ.stack := by rw [hpop]
    exact hstack

/-- The deepest of the words that are replaced may be left where it is. -/
theorem replace_succ_cons (σ : StackMachine lanes) (s : Int) {n : Nat}
    (hn : n + 1 ≤ (σ.stack s).length) (ws : List (Vector UInt32 lanes)) :
    ∃ w, σ.peek s (n + 1) (n + 1) = w :: σ.peek s n n ∧
      σ.replace s (n + 1) (w :: ws) = σ.replace s n ws := by
  have hlt : (σ.stack s).length - (n + 1) < (σ.stack s).length := by omega
  have hsucc : (σ.stack s).length - (n + 1) + 1 = (σ.stack s).length - n := by omega
  refine ⟨(σ.stack s)[(σ.stack s).length - (n + 1)], ?_, ?_⟩
  · rw [peek, List.drop_eq_getElem_cons hlt, List.take_succ_cons, hsucc]
    rfl
  · refine ext_stack rfl ?_
    simp only [replace]
    congr 1
    rw [← hsucc, List.take_add_one, List.getElem?_eq_getElem hlt, Option.toList_some,
      List.append_assoc]
    rfl

end StackMachine

/-! ## Joined changes of slots -/

namespace Machine

theorem forEach_add (m : Machine lanes) (n k : Nat) (f : Nat → Machine lanes → Machine lanes) :
    m.forEach (n + k) f = (m.forEach n f).forEach k fun i => f (n + i) := by
  induction k with
  | zero => rfl
  | succ k ih => rw [← Nat.add_assoc, forEach_succ, ih, forEach_succ]

theorem copy_add (m : Machine lanes) (target source n k : Nat) (masked : Bool) :
    m.copy target source (n + k) masked =
      (m.copy target source n masked).copy (target + n) (source + n) k masked := by
  rw [copy, forEach_add]
  simp only [copy, Nat.add_assoc]

theorem fill_add (m : Machine lanes) (target n k : Nat) (w : Vector UInt32 lanes) :
    m.fill target (n + k) (fun _ => w) =
      (m.fill target n fun _ => w).fill (target + n) k fun _ => w := by
  rw [fill, forEach_add]
  simp only [fill, Nat.add_assoc]

end Machine

/-! ## Packed components -/

/-- Up to eight components are the digits of the word they are packed into. -/
theorem toNat_packNybbles {components : List Nat} (hlt : ∀ c ∈ components, c < 16)
    (hlen : components.length ≤ 8) :
    (packNybbles components).toNat = Nat.ofDigits 16 components := by
  rw [packNybbles, List.take_of_length_le hlen]
  induction components with
  | nil => rfl
  | cons c rest ih =>
    simp only [List.mem_cons, forall_eq_or_imp, List.length_cons] at hlt hlen
    have hc := hlt.1
    have hrest := Nat.ofDigits_lt_base_pow_length (by norm_num : 1 < 16) hlt.2
    have hpow : 16 ^ rest.length ≤ 16 ^ 7 := Nat.pow_le_pow_right (by norm_num) (by omega)
    have hshift : Nat.ofDigits 16 rest <<< 4 < 2 ^ 32 := by
      rw [Nat.shiftLeft_eq]
      omega
    rw [List.foldr_cons, UInt32.toNat_or, UInt32.toNat_shiftLeft, ih hlt.2 (by omega),
      Nat.mod_eq_of_lt hc, UInt32.toNat_ofNat_of_lt' (hc.trans (by decide)), Nat.ofDigits_cons]
    rw [show (4 : UInt32).toNat % 32 = 4 from rfl, Nat.mod_eq_of_lt hshift,
      ← Nat.shiftLeft_add_eq_or_of_lt (by omega), Nat.shiftLeft_eq]
    omega

/-- The first eight components are found again in the word they are packed into. -/
theorem unpackNybbles_packNybbles {components : List Nat} (hlt : ∀ c ∈ components, c < 16) :
    unpackNybbles (packNybbles components) components.length = components.take 8 := by
  have hlt : ∀ c ∈ components.take 8, c < 16 := fun c hc => hlt c (List.mem_of_mem_take hc)
  have hpack : packNybbles components = packNybbles (components.take 8) := by
    simp [packNybbles, List.take_take]
  rw [unpackNybbles, hpack, toNat_packNybbles hlt (by simp)]
  apply List.ext_getElem
  · simp [Nat.min_comm]
  · intro i hi hi'
    rw [List.getElem_map, List.getElem_range, Nat.shiftRight_eq_div_pow, Nat.pow_mul,
      show 2 ^ 4 = 16 from rfl, Nat.ofDigits_div_pow_eq_ofDigits_drop i (by norm_num) _ hlt,
      List.drop_eq_getElem_cons hi', Nat.ofDigits_cons]
    have := hlt _ (List.getElem_mem hi')
    omega

/-! ## Words and places -/

namespace Words

/-- A word that is the same in all lanes, as the right operand of words. -/
theorem combine_append_replicate (f : UInt32 → UInt32 → UInt32) {n : Nat} (bits : UInt32)
    {ws : List (Vector UInt32 lanes)} (h : ws.length = n) :
    combine n (Vector.zipWith f) (ws ++ List.replicate n (Vector.replicate lanes bits)) =
      ws.map (Vector.map fun x => f x bits) := by
  subst h
  rw [combine, List.take_left, List.drop_left]
  apply List.ext_getElem
  · simp
  · intro i _ _
    ext j hj
    simp

/-- A word that is the same in all lanes, as the left operand of words. -/
theorem combine_replicate_append (f : UInt32 → UInt32 → UInt32) {n : Nat} (bits : UInt32)
    {ws : List (Vector UInt32 lanes)} (h : ws.length = n) :
    combine n (Vector.zipWith f) (List.replicate n (Vector.replicate lanes bits) ++ ws) =
      ws.map (Vector.map fun x => f bits x) := by
  subst h
  have hlen : (List.replicate ws.length (Vector.replicate lanes bits)).length = ws.length :=
    List.length_replicate
  rw [combine, List.take_append_of_le_length hlen.ge, List.take_of_length_le hlen.le,
    List.drop_append_of_le_length hlen.ge, List.drop_of_length_le hlen.le, List.nil_append]
  apply List.ext_getElem
  · simp
  · intro i _ _
    ext j hj
    simp

/-- A first word that is chosen once, and first, stays where it is. -/
theorem choose_cons {components : List Nat} (h : 0 ∉ components) (w : Vector UInt32 lanes)
    (ws : List (Vector UInt32 lanes)) :
    choose (0 :: components) (w :: ws) = w :: choose (components.map (· - 1)) ws := by
  simp only [choose, List.map_cons, List.getD_cons_zero, List.map_map, List.cons.injEq, true_and]
  apply List.map_congr_left
  intro c hc
  obtain ⟨d, rfl⟩ := Nat.exists_eq_succ_of_ne_zero fun hc0 => h (hc0 ▸ hc)
  simp

end Words

namespace Code

variable {valueSlots : Nat} {stack : Int}

/-! ## Joining with what was emitted last -/

theorem improves_pushConstant (count : Nat) (bits : UInt32) (code : Code) :
    Improves valueSlots (pushConstant stack count bits code)
      (⟨.pushConstant count bits, stack⟩ :: code) := by
  fun_cases pushConstant stack count bits code with
  | case1 n b s rest h =>
    obtain ⟨rfl, rfl⟩ := h
    refine improves_front (a := [⟨.pushConstant (n + count) b, s⟩])
      (b := [⟨.pushConstant count b, s⟩, ⟨.pushConstant n b, s⟩])
      (plain_of_all rfl) (plain_of_all rfl) ?_ ?_
    · intro t
      simp only [stackDepth_cons, stackDepth_nil, Op.stackUsage]
      split <;> omega
    · rintro ⟨⟨valid, -⟩, hstack, -⟩
      refine ⟨⟨valid, hstack, trivial, by simp⟩, ?_⟩
      intro lanes host batch τ _
      simp only [execs, Op.exec, StackMachine.push_push, List.replicate_append_replicate]
  | case2 | case3 => exact Improves.refl _

theorem improves_pushSlots (space : SlotSpace) (range : SlotRange) (code : Code) :
    Improves valueSlots (pushSlots stack space range code)
      (⟨.pushSlots space range, stack⟩ :: code) := by
  fun_cases pushSlots stack space range code with
  | case1 p r s rest h =>
    obtain ⟨rfl, rfl, hstop⟩ := h
    refine improves_front (a := [⟨.pushSlots p ⟨r.index, r.count + range.count⟩, s⟩])
      (b := [⟨.pushSlots p range, s⟩, ⟨.pushSlots p r, s⟩])
      (plain_of_all rfl) (plain_of_all rfl) ?_ ?_
    · intro t
      simp only [stackDepth_cons, stackDepth_nil, Op.stackUsage]
      split <;> omega
    · rintro ⟨⟨valid, -⟩, hstack, finds, -⟩
      refine ⟨⟨valid, hstack, ?_, by simp⟩, ?_⟩
      · intro hspace
        have := finds hspace
        simp only [SlotRange.stop] at this hstop ⊢
        omega
      · intro lanes host batch τ _
        simp only [execs, Op.exec, StackMachine.push_push, StackMachine.memory_push, ← hstop,
          SlotRange.stop, List.range_add, List.map_append, List.map_map, Function.comp_def,
          Nat.add_assoc]
  | case2 | case3 => exact Improves.refl _

theorem improves_copySlots (target source count : Nat) (code : Code) :
    Improves valueSlots (copySlots stack target source count code)
      (⟨.copySlots false target source count, stack⟩ :: code) := by
  fun_cases copySlots stack target source count code with
  | case1 t r n s rest h =>
    obtain ⟨rfl, rfl, rfl⟩ := h
    refine improves_front (a := [⟨.copySlots false t r (n + count), s⟩])
      (b := [⟨.copySlots false (t + n) (r + n) count, s⟩, ⟨.copySlots false t r n, s⟩])
      (plain_of_all rfl) (plain_of_all rfl) ?_ ?_
    · intro t
      simp [stackDepth_cons, Op.stackUsage]
    · rintro ⟨⟨valid, -⟩, hstack, finds, -⟩
      refine ⟨⟨valid, hstack, ?_, by simp⟩, ?_⟩
      · simp only [Op.Finds] at finds ⊢
        omega
      · intro lanes host batch τ _
        simp only [execs, Op.exec, StackMachine.onMemory, Machine.apply, Machine.copy_add]
  | case2 | case3 => exact Improves.refl _

theorem improves_zeroSlots (range : SlotRange) (code : Code) :
    Improves valueSlots (zeroSlots stack range code) (⟨.zeroSlots range, stack⟩ :: code) := by
  fun_cases zeroSlots stack range code with
  | case1 r s rest h =>
    obtain ⟨rfl, hstop⟩ := h
    refine improves_front (a := [⟨.zeroSlots ⟨r.index, r.count + range.count⟩, s⟩])
      (b := [⟨.zeroSlots range, s⟩, ⟨.zeroSlots r, s⟩])
      (plain_of_all rfl) (plain_of_all rfl) ?_ ?_
    · intro t
      simp [stackDepth_cons, Op.stackUsage]
    · rintro ⟨⟨valid, -⟩, hstack, finds, -⟩
      refine ⟨⟨valid, hstack, ?_, by simp⟩, ?_⟩
      · simp only [Op.Finds, SlotRange.stop] at finds hstop ⊢
        omega
      · intro lanes host batch τ _
        simp only [execs, Op.exec, StackMachine.onMemory, Machine.apply, Machine.fill_add, ← hstop,
          SlotRange.stop]
  | case2 | case3 => exact Improves.refl _

/-- A pad over a mask that was just popped is a push of that mask. -/
theorem improves_pad (mask : Mask) (rest : Code) :
    Improves valueSlots (⟨.pad 1, stack⟩ :: ⟨.popMask mask, stack⟩ :: rest)
      (⟨.pushMask mask, stack⟩ :: ⟨.popMask mask, stack⟩ :: rest) := by
  rintro ⟨valid, hstack, -⟩
  refine ⟨⟨valid, hstack, trivial, ?_⟩, ?_, rfl, ?_⟩
  · rintro n ⟨⟩
    exact ⟨rfl, mask, rest, rfl⟩
  · rfl
  · intro lanes host batch σ _
    rw [outcome, outcome, meaning_pad, meaning_of_ne_pad (by simp)]
    rfl

theorem improves_pushMask (mask : Mask) (code : Code) :
    Improves valueSlots (pushMask stack mask code) (⟨.pushMask mask, stack⟩ :: code) := by
  fun_cases pushMask stack mask code with
  | case1 m s rest h =>
    obtain ⟨rfl, rfl⟩ := h
    exact improves_pad m rest
  | case2 | case3 => exact Improves.refl _

/-! ## Discarding -/

theorem stackUsage_discard (count : Nat) : (Op.discard count).stackUsage = -count := rfl

theorem plain_singleton {op : Op} (hpad : ∀ n, op ≠ .pad n) (hfault : op.fault? = none)
    (hfixed : isFixed op = false) : Plain [⟨op, stack⟩] := by
  intro i hi
  obtain rfl := List.mem_singleton.1 hi
  exact ⟨hpad, hfault, hfixed⟩

/-- A push that may be trimmed is plain, unless it is a pad, and so are those it is trimmed to. -/
theorem plain_trimmable {op : Op} {n : Nat} {push : Nat → Op}
    (h : trimmable? op = some (n, push)) (hpad : ∀ n, op ≠ .pad n) :
    Plain [⟨op, stack⟩] ∧ ∀ k, Plain [⟨push k, stack⟩] := by
  cases op with
  | pad n => exact absurd rfl (hpad n)
  | pushConstant | pushSlots | pushClone | pushCloneFromStack =>
    simp only [trimmable?, Option.some.injEq, Prod.mk.injEq] at h
    obtain ⟨-, rfl⟩ := h
    exact ⟨plain_singleton (by simp) rfl rfl, fun k => plain_singleton (by simp) rfl rfl⟩
  | _ => simp [trimmable?] at h

/-- A push of fewer words finds its operands, and pushes the first of the words. -/
theorem exec_trimmable {op : Op} {n : Nat} {push : Nat → Op} {depth : Int → Int}
    (h : trimmable? op = some (n, push)) (hpad : ∀ n, op ≠ .pad n)
    (finds : op.Finds valueSlots depth stack) :
    (∀ k ≤ n, (push k).Finds valueSlots depth stack) ∧
      ∀ {lanes : Nat} (host : HostCall → Registers lanes → Registers lanes) (batch : Batch lanes)
        (τ : StackMachine lanes), τ.depth = depth →
        ∃ ws, ws.length = n ∧ op.exec host batch stack τ = τ.push stack ws ∧
          ∀ k ≤ n, (push k).exec host batch stack τ = τ.push stack (ws.take k) := by
  cases op with
  | pad n => exact absurd rfl (hpad n)
  | pushConstant count bits =>
    obtain ⟨rfl, rfl⟩ := Prod.mk.inj (Option.some.inj h)
    refine ⟨fun _ _ => trivial, ?_⟩
    intro lanes host batch τ _
    refine ⟨_, List.length_replicate, rfl, ?_⟩
    intro k hk
    rw [List.take_replicate, Nat.min_eq_left hk]
    rfl
  | pushSlots space range =>
    obtain ⟨rfl, rfl⟩ := Prod.mk.inj (Option.some.inj h)
    refine ⟨?_, ?_⟩
    · intro k hk hspace
      have := finds hspace
      simp only [SlotRange.stop] at this ⊢
      omega
    · intro lanes host batch τ _
      refine ⟨_, by simp, rfl, ?_⟩
      intro k hk
      rw [← List.map_take, List.take_range, Nat.min_eq_left hk]
      rfl
  | pushClone count distance =>
    obtain ⟨rfl, rfl⟩ := Prod.mk.inj (Option.some.inj h)
    simp only [Op.Finds] at finds
    refine ⟨?_, ?_⟩
    · intro k hk
      simp only [Op.Finds]
      omega
    · rintro lanes host batch τ rfl
      refine ⟨_, τ.length_peek stack finds.1 (by simpa [StackMachine.depth] using finds.2), rfl, ?_⟩
      intro k hk
      rw [StackMachine.peek, List.take_take, Nat.min_eq_left hk]
      rfl
  | pushCloneFromStack count other distance =>
    obtain ⟨rfl, rfl⟩ := Prod.mk.inj (Option.some.inj h)
    simp only [Op.Finds] at finds
    refine ⟨?_, ?_⟩
    · intro k hk
      simp only [Op.Finds]
      omega
    · rintro lanes host batch τ rfl
      refine ⟨_, τ.length_peek other finds.1 (by simpa [StackMachine.depth] using finds.2), rfl, ?_⟩
      intro k hk
      rw [StackMachine.peek, List.take_take, Nat.min_eq_left hk]
      rfl
  | _ => simp [trimmable?] at h

/-- Words that were pushed last are discarded by pushing fewer of them. -/
theorem improves_trim {op : Op} {n count : Nat} {push : Nat → Op}
    (h : trimmable? op = some (n, push)) (hpad : ∀ n, op ≠ .pad n) (hn : count < n)
    (rest : Code) :
    Improves valueSlots (⟨push (n - count), stack⟩ :: rest)
      (⟨.discard count, stack⟩ :: ⟨op, stack⟩ :: rest) := by
  obtain ⟨plain, plains⟩ := plain_trimmable h hpad
  obtain ⟨husage, husages⟩ := stackUsage_trimmable h
  refine improves_front (a := [⟨push (n - count), stack⟩])
    (b := [⟨.discard count, stack⟩, ⟨op, stack⟩]) (plains _) ?_ ?_ ?_
  · intro i hi
    rcases List.mem_cons.1 hi with rfl | hi
    · exact ⟨by simp, rfl, rfl⟩
    · exact plain i hi
  · intro t
    simp only [stackDepth_cons, stackDepth_nil, husage, husages, stackUsage_discard]
    split <;> omega
  · rintro ⟨⟨valid, hstack, finds, -⟩, -⟩
    obtain ⟨hfinds, hexec⟩ := exec_trimmable h hpad finds
    refine ⟨⟨valid, hstack, hfinds _ (Nat.sub_le ..), ?_⟩, ?_⟩
    · intro m hm
      exact absurd hm ((plains _ _ (List.mem_singleton_self _)).1 m)
    · intro lanes host batch τ hτ
      obtain ⟨ws, hws, hop, hpush⟩ := hexec host batch τ hτ
      simp only [execs, hop, hpush _ (Nat.sub_le ..)]
      rw [Op.exec, τ.pop_push_of_le stack (by omega), hws]

/-- A push is taken back when all that it pushed is discarded. -/
theorem improves_unpush {op : Op} {n count : Nat} {push : Nat → Op}
    (h : trimmable? op = some (n, push)) (hpad : ∀ n, op ≠ .pad n) (hn : n ≤ count)
    (rest : Code) :
    Improves valueSlots (⟨.discard (count - n), stack⟩ :: rest)
      (⟨.discard count, stack⟩ :: ⟨op, stack⟩ :: rest) := by
  obtain ⟨plain, -⟩ := plain_trimmable h hpad
  obtain ⟨husage, -⟩ := stackUsage_trimmable h
  refine improves_front (a := [⟨.discard (count - n), stack⟩])
    (b := [⟨.discard count, stack⟩, ⟨op, stack⟩]) (plain_singleton (by simp) rfl rfl) ?_ ?_ ?_
  · intro i hi
    rcases List.mem_cons.1 hi with rfl | hi
    · exact ⟨by simp, rfl, rfl⟩
    · exact plain i hi
  · intro t
    simp only [stackDepth_cons, stackDepth_nil, husage, stackUsage_discard]
    split <;> omega
  · rintro ⟨⟨valid, hstack, finds, -⟩, -, hcount, -⟩
    obtain ⟨-, hexec⟩ := exec_trimmable h hpad finds
    refine ⟨⟨valid, hstack, ?_, by simp⟩, ?_⟩
    · have hcount : (count : Int) ≤ stackDepth (⟨op, stack⟩ :: rest) stack := hcount
      rw [stackDepth_cons_self, husage] at hcount
      show ((count - n : Nat) : Int) ≤ stackDepth rest stack
      omega
    · intro lanes host batch τ hτ
      obtain ⟨ws, hws, hop, -⟩ := hexec host batch τ hτ
      simp only [execs, hop]
      rw [Op.exec, Op.exec, τ.pop_push_of_ge stack (by omega), hws]

/-- Discards one after the other are one discard. -/
theorem improves_joined_discard (n count : Nat) (rest : Code) :
    Improves valueSlots (⟨.discard (n + count), stack⟩ :: rest)
      (⟨.discard count, stack⟩ :: ⟨.discard n, stack⟩ :: rest) := by
  refine improves_front (a := [⟨.discard (n + count), stack⟩])
    (b := [⟨.discard count, stack⟩, ⟨.discard n, stack⟩])
    (plain_of_all rfl) (plain_of_all rfl) ?_ ?_
  · intro t
    simp only [stackDepth_cons, stackDepth_nil, stackUsage_discard]
    split <;> omega
  · rintro ⟨⟨valid, hstack, hn, -⟩, -, hcount, -⟩
    have hn : (n : Int) ≤ stackDepth rest stack := hn
    have hcount : (count : Int) ≤ stackDepth (⟨.discard n, stack⟩ :: rest) stack := hcount
    rw [stackDepth_cons_self, stackUsage_discard] at hcount
    refine ⟨⟨valid, hstack, ?_, by simp⟩, ?_⟩
    · show ((n + count : Nat) : Int) ≤ stackDepth rest stack
      omega
    · intro lanes host batch τ hτ
      rw [← hτ] at hn
      simp only [execs, Op.exec]
      rw [τ.pop_pop stack count (by simpa [StackMachine.depth] using hn)]

/-- A discard may be made in two steps. -/
theorem improves_split_discard (n count : Nat) (rest : Code) :
    Improves valueSlots (⟨.discard count, stack⟩ :: ⟨.discard n, stack⟩ :: rest)
      (⟨.discard (n + count), stack⟩ :: rest) := by
  refine improves_front (a := [⟨.discard count, stack⟩, ⟨.discard n, stack⟩])
    (b := [⟨.discard (n + count), stack⟩])
    (plain_of_all rfl) (plain_of_all rfl) ?_ ?_
  · intro t
    simp only [stackDepth_cons, stackDepth_nil, stackUsage_discard]
    split <;> omega
  · rintro ⟨valid, hstack, hcount, -⟩
    have hcount : ((n + count : Nat) : Int) ≤ stackDepth rest stack := hcount
    refine ⟨⟨⟨valid, hstack, ?_, by simp⟩, hstack, ?_, by simp⟩, ?_⟩
    · show (n : Int) ≤ stackDepth rest stack
      omega
    · show (count : Int) ≤ stackDepth (⟨.discard n, stack⟩ :: rest) stack
      rw [stackDepth_cons_self, stackUsage_discard]
      omega
    · intro lanes host batch τ hτ
      rw [← hτ] at hcount
      simp only [execs, Op.exec]
      rw [τ.pop_pop stack count (by simp only [StackMachine.depth] at hcount; omega)]

/-- Nothing is discarded. -/
theorem improves_discard_zero (rest : Code) :
    Improves valueSlots rest (⟨.discard 0, stack⟩ :: rest) := by
  refine improves_front (a := []) (b := [⟨.discard 0, stack⟩]) (plain_of_all rfl)
    (plain_of_all rfl) ?_ ?_
  · intro t
    simp [stackDepth_cons, stackUsage_discard]
  · rintro ⟨valid, -⟩
    refine ⟨valid, ?_⟩
    intro lanes host batch τ _
    simp only [execs, Op.exec, StackMachine.pop, StackMachine.replace_zero_nil]

/-- A pad that pushes a mask again is taken back when the mask is discarded. -/
theorem improves_unpad {n count : Nat} (hcount : count ≠ 0) (rest : Code) :
    Improves valueSlots (⟨.discard (count - n), stack⟩ :: rest)
      (⟨.discard count, stack⟩ :: ⟨.pad n, stack⟩ :: rest) := by
  intro valid
  obtain ⟨rfl, mask, before, rfl⟩ := valid.1.2.2.2 n rfl
  refine (?_ : Improves valueSlots _
    (⟨.discard count, stack⟩ :: ⟨.pad 1, stack⟩ :: ⟨.popMask mask, stack⟩ :: before)) valid
  refine Improves.trans (d := ⟨.discard count, stack⟩ :: ⟨.pushMask mask, stack⟩ ::
    ⟨.popMask mask, stack⟩ :: before) ?_ (Improves.cons (by simp) ?_)
  · refine improves_front (a := [⟨.discard (count - 1), stack⟩])
      (b := [⟨.discard count, stack⟩, ⟨.pushMask mask, stack⟩])
      (plain_of_all rfl) (plain_of_all rfl) ?_ ?_
    · intro t
      simp only [stackDepth_cons, stackDepth_nil, Op.stackUsage]
      split <;> omega
    · rintro ⟨⟨valid, hstack, -⟩, -, hdepth, -⟩
      have hdepth : (count : Int) ≤ stackDepth
        (⟨.pushMask mask, stack⟩ :: ⟨.popMask mask, stack⟩ :: before) stack := hdepth
      rw [stackDepth_cons_self] at hdepth
      refine ⟨⟨valid, hstack, ?_, by simp⟩, ?_⟩
      · show ((count - 1 : Nat) : Int) ≤ stackDepth (⟨.popMask mask, stack⟩ :: before) stack
        simp only [Op.stackUsage] at hdepth
        omega
      · intro lanes host batch τ _
        simp only [execs, Op.exec]
        rw [τ.pop_push_of_ge stack (by simp; omega)]
        rfl
  · rintro ⟨valid, hstack, -, -⟩
    obtain ⟨-, same⟩ := improves_pad mask before
      (⟨valid, hstack, trivial, by simp⟩ : Valid valueSlots
        (⟨.pushMask mask, stack⟩ :: ⟨.popMask mask, stack⟩ :: before))
    exact ⟨⟨valid, hstack, trivial, by simp⟩, same.depth.symm, same.fixed.symm,
      fun host batch σ empty => (same.outcome host batch σ empty).symm⟩

/-- An operation in place is taken back when all that it changed is discarded. -/
theorem improves_inPlace {op : Op} {n count : Nat} (h : inPlace? op = some n) (hn : n ≤ count)
    (rest : Code) :
    Improves valueSlots (⟨.discard count, stack⟩ :: rest)
      (⟨.discard count, stack⟩ :: ⟨op, stack⟩ :: rest) := by
  have hexec : (∀ m, op ≠ .pad m) ∧ op.fault? = none ∧ isFixed op = false ∧
      (∀ depth, op.Finds valueSlots depth stack → (n : Int) ≤ depth stack) ∧
      ∀ {lanes : Nat} (host : HostCall → Registers lanes → Registers lanes) (batch : Batch lanes)
        (τ : StackMachine lanes), ∃ f, (∀ ws, (f ws).length = ws.length) ∧
        op.exec host batch stack τ = τ.transform stack n f := by
    cases op with
    | unary op ty k =>
      obtain rfl := Option.some.inj h
      exact ⟨by simp, rfl, rfl, fun _ finds => finds, fun _ _ _ => ⟨_, fun _ => List.length_map _, rfl⟩⟩
    | binaryImm op ty k bits slot =>
      cases slot with
      | some slot => simp [inPlace?] at h
      | none =>
        obtain rfl := Option.some.inj h
        exact ⟨by simp, rfl, rfl, fun _ finds => finds,
          fun _ _ _ => ⟨_, fun _ => List.length_map _, rfl⟩⟩
    | _ => simp [inPlace?] at h
  obtain ⟨hpad, hfault, hfixed, hfinds, hexec⟩ := hexec
  have husage := stackUsage_inPlace h
  refine improves_front (a := [⟨.discard count, stack⟩])
    (b := [⟨.discard count, stack⟩, ⟨op, stack⟩]) (plain_of_all rfl) ?_ ?_ ?_
  · intro i hi
    rcases List.mem_cons.1 hi with rfl | hi
    · exact ⟨by simp, rfl, rfl⟩
    · exact plain_singleton hpad hfault hfixed i hi
  · intro t
    simp [stackDepth_cons, husage]
  · rintro ⟨⟨valid, hstack, finds, -⟩, -, hcount, -⟩
    have hcount : (count : Int) ≤ stackDepth (⟨op, stack⟩ :: rest) stack := hcount
    rw [stackDepth_cons_self, husage, zero_add] at hcount
    refine ⟨⟨valid, hstack, hcount, by simp⟩, ?_⟩
    intro lanes host batch τ hτ
    obtain ⟨f, hf, hop⟩ := hexec host batch τ
    rw [← hτ] at hcount
    simp only [StackMachine.depth] at hcount
    have hlen := τ.length_peek stack (le_refl n) (by omega)
    simp only [execs, hop]
    rw [Op.exec, Op.exec, StackMachine.transform,
      τ.pop_replace stack (by rw [hf, hlen]) hn (by omega)]

/-- A value that is stored to slots and popped need not be on the stack. -/
theorem improves_storeDirectly {target : SlotRange} {code code' : Code}
    (h : storeDirectly? stack target code = some code') :
    Improves valueSlots code' (⟨.discard target.count, stack⟩ ::
      ⟨.copyToSlots false target target.count, stack⟩ :: code) := by
  revert h
  fun_cases storeDirectly? stack target code with
  | case1 source s rest hs hindex =>
    -- the slots are written back to themselves
    rintro ⟨⟩
    obtain ⟨rfl, hcount⟩ := hs
    refine improves_front (a := []) (b := [⟨.discard target.count, s⟩,
      ⟨.copyToSlots false target target.count, s⟩, ⟨.pushSlots .value source, s⟩])
      (plain_of_all rfl) (plain_of_all rfl) ?_ ?_
    · intro t
      simp only [stackDepth_cons, stackDepth_nil, Op.stackUsage, hcount]
      split <;> omega
    · rintro ⟨⟨⟨valid, -⟩, -⟩, -⟩
      refine ⟨valid, ?_⟩
      intro lanes host batch τ _
      simp only [execs, Op.exec, ← Machine.window_eq_read]
      rw [τ.pop_store_push s target.index (by simp [hcount]), hcount, hindex]
      refine StackMachine.ext_stack ?_ rfl
      exact (Machine.overwrite_window ..).symm
  | case3 source s rest hs hindex hoverlap =>
    rintro ⟨⟩
    obtain ⟨rfl, hcount⟩ := hs
    refine (improves_copySlots target.index source.index target.count rest).trans ?_
    refine improves_front (a := [⟨.copySlots false target.index source.index target.count, s⟩])
      (b := [⟨.discard target.count, s⟩,
        ⟨.copyToSlots false target target.count, s⟩, ⟨.pushSlots .value source, s⟩])
      (plain_of_all rfl) (plain_of_all rfl) ?_ ?_
    · intro t
      simp only [stackDepth_cons, stackDepth_nil, Op.stackUsage, hcount]
      split <;> omega
    · rintro ⟨⟨⟨valid, hstack, hsource, -⟩, -, htarget, -⟩, -⟩
      have hsource : source.stop ≤ valueSlots := hsource rfl
      have htarget : target.stop ≤ valueSlots := htarget.2.2
      simp only [SlotRange.overlaps, Bool.and_eq_true, decide_eq_true_eq] at hoverlap
      simp only [SlotRange.stop] at hsource htarget hoverlap
      refine ⟨⟨valid, hstack, ?_, by simp⟩, ?_⟩
      · simp only [Op.Finds]
        omega
      · intro lanes host batch τ _
        simp only [execs, Op.exec, ← Machine.window_eq_read]
        rw [τ.pop_store_push s target.index (by simp [hcount]), hcount]
        simp only [Machine.apply]
        refine StackMachine.ext_stack ?_ rfl
        simp only [StackMachine.memory_onMemory]
        rw [Machine.copy_eq_store _ (by omega)]
        rfl
  | case5 op ty count bits s source s' rest hs =>
    rintro ⟨⟩
    obtain ⟨rfl, rfl, rfl, rfl⟩ := hs
    refine improves_front (a := [⟨.binaryImm op ty source.count bits (some source.index), s'⟩])
      (b := [⟨.discard source.count, s'⟩, ⟨.copyToSlots false source source.count, s'⟩,
        ⟨.binaryImm op ty source.count bits none, s'⟩, ⟨.pushSlots .value source, s'⟩])
      (plain_of_all rfl) (plain_of_all rfl) ?_ ?_
    · intro t
      simp only [stackDepth_cons, stackDepth_nil, Op.stackUsage]
      split <;> omega
    · rintro ⟨⟨⟨⟨valid, hstack, hsource, -⟩, -⟩, -⟩, -⟩
      refine ⟨⟨valid, hstack, hsource rfl, by simp⟩, ?_⟩
      intro lanes host batch τ _
      simp only [execs, Op.exec, ← Machine.window_eq_read]
      rw [τ.transform_push s' (n := 0) _ (by simp) (Nat.zero_le _), StackMachine.peek, List.take_zero,
        List.nil_append]
      rw [show ∀ ws, τ.replace s' 0 ws = τ.push s' ws from fun _ => rfl,
        τ.pop_store_push s' source.index (by simp)]
      simp only [Machine.apply_binaryImm]
      rfl
  | case2 | case4 | case6 | case7 => simp

/-- Discarding takes back what only served to compute the words. -/
theorem improves_discard (count : Nat) (code : Code) :
    Improves valueSlots (discard stack count code) (⟨.discard count, stack⟩ :: code) := by
  fun_induction discard stack count code with
  | case1 code => exact improves_discard_zero code
  | case2 | case3 | case8 | case10 | case11 | case12 => exact Improves.refl _
  | case4 count hc i rest hs n hop =>
    obtain ⟨op, s⟩ := i
    obtain rfl : op = _ := hop
    obtain rfl := not_not.1 hs
    exact improves_joined_discard n count rest
  | case5 count hc i rest hs n push hpush hn _ ih =>
    obtain ⟨op, s⟩ := i
    obtain rfl := not_not.1 hs
    refine ih.trans ?_
    by_cases hpad : ∃ k, op = .pad k
    · obtain ⟨k, rfl⟩ := hpad
      obtain ⟨rfl, -⟩ := Prod.mk.inj (Option.some.inj hpush)
      exact improves_unpad hc rest
    · exact improves_unpush hpush (fun k hk => hpad ⟨k, hk⟩) hn rest
  | case6 count hc i rest hs n push hpush hn _ =>
    obtain ⟨op, s⟩ := i
    obtain rfl := not_not.1 hs
    by_cases hpad : ∃ k, op = .pad k
    · -- a pad is of one word
      obtain ⟨k, rfl⟩ := hpad
      obtain ⟨rfl, -⟩ := Prod.mk.inj (Option.some.inj hpush)
      intro valid
      obtain ⟨rfl, -⟩ := valid.1.2.2.2 k rfl
      omega
    · exact improves_trim hpush (fun k hk => hpad ⟨k, hk⟩) (by omega) rest
  | case7 count hc i rest hs n hn hle _ _ ih =>
    obtain ⟨op, s⟩ := i
    obtain rfl := not_not.1 hs
    exact ih.trans (improves_inPlace hn hle rest)
  | case9 count hc i rest hs target distance hop hd code' hcode' _ _ ih =>
    obtain ⟨op, s⟩ := i
    obtain rfl : op = _ := hop
    obtain rfl := not_not.1 hs
    obtain ⟨rfl, hle⟩ := hd
    have hsplit : Improves valueSlots
        (⟨.discard (count - target.count), s⟩ :: ⟨.discard target.count, s⟩ ::
          ⟨.copyToSlots false target target.count, s⟩ :: rest)
        (⟨.discard (target.count + (count - target.count)), s⟩ ::
          ⟨.copyToSlots false target target.count, s⟩ :: rest) :=
      improves_split_discard target.count (count - target.count) _
    rw [Nat.add_sub_cancel' hle] at hsplit
    exact ih.trans (((improves_storeDirectly hcode').cons (by simp)).trans hsplit)

/-! ## Immediates -/

theorem immediate_ne_pad (op : BinaryOp) (ty : NumType) (count : Nat) (bits : UInt32) (n : Nat) :
    immediate op ty count bits ≠ .pad n := by
  fun_cases immediate op ty count bits <;> simp

theorem plain_immediate (op : BinaryOp) (ty : NumType) (count : Nat) (bits : UInt32) :
    Plain [⟨immediate op ty count bits, stack⟩] := by
  refine plain_singleton (immediate_ne_pad op ty count bits) ?_ ?_ <;>
    fun_cases immediate op ty count bits <;> rfl

theorem finds_immediate {op : BinaryOp} {ty : NumType} {count : Nat} {bits : UInt32}
    {depth : Int → Int} (h : (count : Int) ≤ depth stack) :
    (immediate op ty count bits).Finds valueSlots depth stack := by
  fun_cases immediate op ty count bits <;> exact h

/-- The immediate form applies the operation with the constant on the right. -/
theorem exec_immediate {op : BinaryOp} {ty : NumType} {bits : UInt32} (count : Nat)
    (hsub : op = .sub → isOrderSensitive ty bits = false)
    (host : HostCall → Registers lanes → Registers lanes) (batch : Batch lanes)
    (τ : StackMachine lanes) :
    (immediate op ty count bits).exec host batch stack τ =
      τ.transform stack count (List.map (Vector.map fun x => op.eval ty x bits)) := by
  by_cases hop : op = .sub
  · subst hop
    have heval : (fun x => BinaryOp.sub.eval ty x bits) =
        fun x => BinaryOp.add.eval ty x (negated ty bits) := by
      funext x
      exact BinaryOp.eval_sub (hsub rfl) x
    rw [heval]
    rfl
  · cases op <;> first | rfl | exact absurd rfl hop

/-- A push of constants is made in two steps. -/
theorem improves_dropConstants {n count : Nat} (h : count ≤ n) (bits : UInt32) (rest : Code) :
    Improves valueSlots (⟨.pushConstant count bits, stack⟩ :: dropConstants stack n count bits rest)
      (⟨.pushConstant n bits, stack⟩ :: rest) := by
  fun_cases dropConstants stack n count bits rest with
  | case1 hn =>
    subst hn
    exact Improves.refl _
  | case2 hn =>
    refine improves_front
      (a := [⟨.pushConstant count bits, stack⟩, ⟨.pushConstant (n - count) bits, stack⟩])
      (b := [⟨.pushConstant n bits, stack⟩]) (plain_of_all rfl)
      (plain_of_all rfl) ?_ ?_
    · intro t
      simp only [stackDepth_cons, stackDepth_nil, Op.stackUsage]
      split <;> omega
    · rintro ⟨valid, hstack, -⟩
      refine ⟨⟨⟨valid, hstack, trivial, by simp⟩, hstack, trivial, by simp⟩, ?_⟩
      intro lanes host batch τ _
      simp only [execs, Op.exec, StackMachine.push_push, List.replicate_append_replicate]
      rw [Nat.sub_add_cancel h]

/-- A constant right operand that was just pushed. -/
theorem improves_immediate {op : BinaryOp} {ty : NumType} {count : Nat} {bits : UInt32}
    (hsub : op = .sub → isOrderSensitive ty bits = false) (rest : Code) :
    Improves valueSlots (⟨immediate op ty count bits, stack⟩ :: rest)
      (⟨.binary op ty count, stack⟩ :: ⟨.pushConstant count bits, stack⟩ :: rest) := by
  refine improves_front (a := [⟨immediate op ty count bits, stack⟩])
    (b := [⟨.binary op ty count, stack⟩, ⟨.pushConstant count bits, stack⟩])
    (plain_immediate op ty count bits) (plain_of_all rfl) ?_ ?_
  · intro t
    rw [stackDepth_cons, stackUsage_immediate]
    simp only [stackDepth_cons, stackDepth_nil, Op.stackUsage]
    split <;> omega
  · rintro ⟨⟨valid, hstack, -⟩, -, hcount, -⟩
    have hcount : 2 * (count : Int) ≤ stackDepth (⟨.pushConstant count bits, stack⟩ :: rest) stack :=
      hcount
    rw [stackDepth_cons_self] at hcount
    simp only [Op.stackUsage] at hcount
    refine ⟨⟨valid, hstack, finds_immediate ?_, ?_⟩, ?_⟩
    · show (count : Int) ≤ stackDepth rest stack
      omega
    · intro n hn
      exact absurd hn (immediate_ne_pad op ty count bits n)
    · intro lanes host batch τ hτ
      have hlen : count ≤ (τ.stack stack).length := by
        have : τ.depth stack = (τ.stack stack).length := rfl
        rw [← hτ] at hcount
        omega
      simp only [execs]
      rw [exec_immediate count hsub, Op.exec, Op.exec,
        τ.transform_push stack _ (by rw [List.length_replicate]; omega) hlen,
        Words.combine_append_replicate _ _ (τ.length_peek stack le_rfl hlen)]
      rfl

/-- A constant left operand that was pushed before slots. -/
theorem improves_immediate_comm {op : BinaryOp} {ty : NumType} {bits : UInt32}
    (space : SlotSpace) (range : SlotRange) (hop : op.isCommutative = true)
    (hbits : isOrderSensitive ty bits = false) (rest : Code) :
    Improves valueSlots
      (⟨immediate op ty range.count bits, stack⟩ :: ⟨.pushSlots space range, stack⟩ :: rest)
      (⟨.binary op ty range.count, stack⟩ :: ⟨.pushSlots space range, stack⟩ ::
        ⟨.pushConstant range.count bits, stack⟩ :: rest) := by
  refine improves_front
    (a := [⟨immediate op ty range.count bits, stack⟩, ⟨.pushSlots space range, stack⟩])
    (b := [⟨.binary op ty range.count, stack⟩, ⟨.pushSlots space range, stack⟩,
      ⟨.pushConstant range.count bits, stack⟩]) ?_ (plain_of_all rfl) ?_ ?_
  · intro i hi
    rcases List.mem_cons.1 hi with rfl | hi
    · exact plain_immediate op ty range.count bits _ (List.mem_singleton_self _)
    · exact plain_singleton (by simp) rfl rfl i hi
  · intro t
    rw [stackDepth_cons, stackUsage_immediate]
    simp only [stackDepth_cons, stackDepth_nil, Op.stackUsage]
    split <;> omega
  · rintro ⟨⟨⟨valid, hstack, -⟩, -, hslots, -⟩, -, hcount, -⟩
    refine ⟨⟨⟨valid, hstack, hslots, by simp⟩, hstack, finds_immediate ?_, ?_⟩, ?_⟩
    · have hrest : 0 ≤ stackDepth rest stack := by
        have hcount : 2 * (range.count : Int) ≤ stackDepth (⟨.pushSlots space range, stack⟩ ::
          ⟨.pushConstant range.count bits, stack⟩ :: rest) stack := hcount
        rw [stackDepth_cons_self, stackDepth_cons_self] at hcount
        simp only [Op.stackUsage] at hcount
        omega
      show (range.count : Int) ≤ stackDepth (⟨.pushSlots space range, stack⟩ :: rest) stack
      rw [stackDepth_cons_self]
      simp only [Op.stackUsage]
      omega
    · intro n hn
      exact absurd hn (immediate_ne_pad op ty range.count bits n)
    · intro lanes host batch τ hτ
      have heval : (fun x => op.eval ty bits x) = fun x => op.eval ty x bits := by
        funext x
        exact BinaryOp.eval_comm hop hbits x
      have hsub : op = .sub → isOrderSensitive ty bits = false := fun _ => hbits
      simp only [execs]
      rw [exec_immediate range.count hsub]
      simp only [Op.exec, StackMachine.push_push, StackMachine.memory_push]
      rw [τ.transform_push stack (n := 0) _ (by simp) (Nat.zero_le _),
        τ.transform_push stack (n := 0) _ (by simp; omega) (Nat.zero_le _)]
      simp only [StackMachine.peek, List.take_zero, List.nil_append]
      rw [Words.combine_replicate_append _ _ (by simp), heval]

/-- Folding a constant operand into an operation. -/
theorem improves_foldImmediate {op : BinaryOp} {ty : NumType} {count : Nat} {code code' : Code}
    (h : foldImmediate? stack op ty count code = some code') :
    Improves valueSlots code' (⟨.binary op ty count, stack⟩ :: code) := by
  revert h
  fun_cases foldImmediate? stack op ty count code with
  | case1 n bits s rest hs =>
    rintro ⟨⟩
    obtain ⟨rfl, hle, hsub⟩ := hs
    refine (improves_immediate ?_ _).trans ((improves_dropConstants hle bits rest).cons (by simp))
    rintro rfl
    simpa using hsub
  | case3 space range s n bits s' rest hs =>
    rintro ⟨⟩
    obtain ⟨rfl, rfl, hop, rfl, hle, hbits⟩ := hs
    refine (improves_immediate_comm space range hop (by simpa using hbits) _).trans ?_
    exact ((improves_dropConstants hle bits rest).cons (by simp)).cons (by simp)
  | case2 | case4 | case5 => simp

/-! ## Swizzles -/

/-- A selection chooses words by their places. -/
theorem exec_selection {consumed : Nat} {components : List Nat} (hlt : ∀ c ∈ components, c < 16)
    (hlen : components.length ≤ 16) (host : HostCall → Registers lanes → Registers lanes)
    (batch : Batch lanes) (τ : StackMachine lanes) :
    (selection consumed components).exec host batch stack τ =
      τ.transform stack consumed (Words.choose components) := by
  fun_cases selection consumed components with
  | case1 h =>
    rw [Op.exec, unpackNybbles_packNybbles hlt, List.take_of_length_le (by omega)]
  | case2 =>
    have hdrop : unpackNybbles (packNybbles (components.drop 8)) (components.length - 8) =
        components.drop 8 := by
      have h := unpackNybbles_packNybbles
        (show ∀ c ∈ components.drop 8, c < 16 from fun c hc => hlt c (List.mem_of_mem_drop hc))
      rw [List.length_drop, List.take_of_length_le (by rw [List.length_drop]; omega)] at h
      exact h
    rw [Op.exec, unpackNybbles_packNybbles hlt, hdrop, List.take_append_drop]

theorem selection_ne_pad (consumed : Nat) (components : List Nat) (n : Nat) :
    selection consumed components ≠ .pad n := by
  fun_cases selection consumed components <;> simp

theorem plain_selection (consumed : Nat) (components : List Nat) :
    Plain [⟨selection consumed components, stack⟩] := by
  refine plain_singleton (selection_ne_pad consumed components) ?_ ?_ <;>
    fun_cases selection consumed components <;> rfl

theorem finds_selection {consumed : Nat} {components : List Nat} {depth : Int → Int}
    (hlen : components.length ≤ 16) :
    (selection consumed components).Finds valueSlots depth stack ↔ (consumed : Int) ≤ depth stack := by
  fun_cases selection consumed components with
  | case1 h =>
    simp only [Op.Finds, and_iff_left_iff_imp]
    omega
  | case2 => simp only [Op.Finds, hlen, and_true]
/-- A first component that stays where it is is left out. -/
theorem improves_trimmed {consumed : Nat} {rest : List Nat} (hzero : 0 ∉ rest)
    (hlt : ∀ c ∈ 0 :: rest, c < consumed ∧ c < 16) (hlen : (0 :: rest).length ≤ 16)
    (code : Code) :
    Improves valueSlots (⟨selection (consumed - 1) (rest.map (· - 1)), stack⟩ :: code)
      (⟨selection consumed (0 :: rest), stack⟩ :: code) := by
  obtain ⟨n, rfl⟩ : ∃ n, consumed = n + 1 :=
    Nat.exists_eq_succ_of_ne_zero (hlt 0 (List.mem_cons_self ..)).1.ne'
  have hlt' : ∀ c ∈ rest.map (· - 1), c < 16 := by
    intro c hc
    obtain ⟨d, hd, rfl⟩ := List.mem_map.1 hc
    exact (Nat.sub_le d 1).trans_lt (hlt d (List.mem_cons_of_mem _ hd)).2
  have hlen' : (rest.map (· - 1)).length ≤ 16 := by
    simp only [List.length_map, List.length_cons] at hlen ⊢
    omega
  refine improves_front (a := [⟨selection (n + 1 - 1) (rest.map (· - 1)), stack⟩])
    (b := [⟨selection (n + 1) (0 :: rest), stack⟩]) (plain_selection _ _) (plain_selection _ _)
    ?_ ?_
  · intro t
    simp only [stackDepth_cons, stackDepth_nil, stackUsage_selection, List.length_map,
      List.length_cons]
    split <;> omega
  · rintro ⟨valid, hstack, finds, -⟩
    have hdepth : ((n + 1 : Nat) : Int) ≤ stackDepth code stack := (finds_selection hlen).1 finds
    refine ⟨⟨valid, hstack, (finds_selection hlen').2 ?_, ?_⟩, ?_⟩
    · show ((n + 1 - 1 : Nat) : Int) ≤ stackDepth code stack
      omega
    · intro k hk
      exact absurd hk (selection_ne_pad _ _ k)
    · intro lanes host batch τ hτ
      have hn : n + 1 ≤ (τ.stack stack).length := by
        have : τ.depth stack = (τ.stack stack).length := rfl
        rw [← hτ] at hdepth
        omega
      simp only [execs]
      rw [exec_selection (fun c hc => (hlt c hc).2) hlen, exec_selection hlt' hlen',
        Nat.add_sub_cancel]
      obtain ⟨w, hpeek, hreplace⟩ := τ.replace_succ_cons stack hn
        (Words.choose (rest.map (· - 1)) (τ.peek stack n n))
      rw [StackMachine.transform, StackMachine.transform, hpeek, Words.choose_cons hzero, hreplace]

/-- Leaving out the leading components that stay where they are. -/
theorem improves_trimIdentity {consumed : Nat} {components : List Nat}
    (hlt : ∀ c ∈ components, c < consumed ∧ c < 16) (hlen : components.length ≤ 16) (code : Code) :
    Improves valueSlots
      (⟨selection (trimIdentity consumed components).1 (trimIdentity consumed components).2, stack⟩ ::
        code)
      (⟨selection consumed components, stack⟩ :: code) := by
  have h := trimIdentity_induction (P := fun r =>
    (∀ c ∈ r.2, c < r.1 ∧ c < 16) ∧ r.2.length ≤ 16 ∧
      Improves valueSlots (⟨selection r.1 r.2, stack⟩ :: code)
        (⟨selection consumed components, stack⟩ :: code))
    ⟨hlt, hlen, Improves.refl _⟩ ?_
  · exact h.2.2
  · rintro k rest hzero ⟨hlt, hlen, improves⟩
    refine ⟨?_, ?_, (improves_trimmed hzero hlt hlen code).trans improves⟩
    · intro c hc
      obtain ⟨d, hd, rfl⟩ := List.mem_map.1 hc
      have hpos : d ≠ 0 := fun hd0 => hzero (hd0 ▸ hd)
      have hd := hlt d (List.mem_cons_of_mem _ hd)
      simp only at hd ⊢
      omega
    · simp only [List.length_map, List.length_cons] at hlen ⊢
      omega

/-- A selection of nothing discards. -/
theorem improves_selection_nil (consumed : Nat) (code : Code) :
    Improves valueSlots (⟨.discard consumed, stack⟩ :: code)
      (⟨selection consumed [], stack⟩ :: code) := by
  refine improves_front (a := [⟨.discard consumed, stack⟩])
    (b := [⟨selection consumed [], stack⟩]) (plain_singleton (by simp) rfl rfl)
    (plain_selection _ _) ?_ ?_
  · intro t
    simp [stackDepth_cons, stackUsage_selection, stackUsage_discard]
  · rintro ⟨valid, hstack, finds, -⟩
    refine ⟨⟨valid, hstack, (finds_selection (by simp)).1 finds, by simp⟩, ?_⟩
    intro lanes host batch τ _
    simp only [execs]
    rw [exec_selection (by simp) (by simp)]
    rfl

end Code

end RasterShader
