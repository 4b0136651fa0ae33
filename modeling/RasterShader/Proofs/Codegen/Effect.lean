import Mathlib
import RasterShader.Proofs.Codegen.Builder

/-!
# Effects of generating code

The effect of a computation that generates code is how much deeper it leaves every stack, and how
many more times every stack is in use. `Affects` bounds a computation by such an effect, for all
states that agree with some `Widths`: the number of slots of every variable, and of the result of
the function that is being written.

A proof that a computation has an effect follows the computation.  Each step takes its own effect
away from what is left to show (`Affects.bind`), and the last one has to have just that.  A
computation that enters a construct in which lanes may be inactive owes an exit from it, which the
parameter `closed` counts.

Where a computation works on another stack, or with other targets of jumps, it works in another
`Context`.  Steps do not depend on the context (`Step.inContext`), so that it can be set and put
back around them.
-/

namespace RasterShader

/-- Change of the depth of every stack, and of how often it is in use. -/
abbrev Effect := (Int → Int) × (Int → Int)

namespace Effect

/-- One more word on a stack. -/
def onTop (s : Int) : Effect := (word s, 0)

/-- One more use of a stack. -/
def taken (s : Int) : Effect := (0, word s)

@[simp] theorem fst_onTop (s : Int) : (onTop s).1 = word s := rfl
@[simp] theorem snd_onTop (s : Int) : (onTop s).2 = 0 := rfl
@[simp] theorem fst_taken (s : Int) : (taken s).1 = 0 := rfl
@[simp] theorem snd_taken (s : Int) : (taken s).2 = word s := rfl

end Effect

/-- How many slots variables have, by their identity, and how many the result has of the function
that is being written. -/
structure Widths where
  slots : Nat → Nat
  result : Nat

/-- Every range of a table has the slots of its variable. -/
structure SlotTable.Agrees (slots : Nat → Nat) (table : SlotTable) : Prop where
  ranges : ∀ entry ∈ table.ranges, entry.2.count = slots entry.1
  lent : ∀ entry ∈ table.lent, entry.2.count = slots entry.1

namespace Gen

/-- What a piece of code is generated in: the stack it works on, where jumps lead to, and the
function it belongs to. -/
structure Context where
  stack : Int
  breakTarget : Option Int
  continueStack : Option Int
  frame : Option Frame

/-- The context of a state. -/
def context (g : Gen) : Context := ⟨g.builder.stack, g.breakTarget, g.continueStack, g.frame⟩

/-- The state in another context. -/
def inContext (g : Gen) (c : Context) : Gen :=
  { g with
    builder := { g.builder with stack := c.stack }
    breakTarget := c.breakTarget
    continueStack := c.continueStack
    frame := c.frame }

/-- How often a stack is in use: once if it has been created, less the times it was given free. -/
def inUse (g : Gen) (s : Int) : Int :=
  (if s ≤ g.lastStack then 1 else 0) - g.freeStacks.count s

/-- The slots that a state has handed out are as many as the widths say. -/
structure Agrees (W : Widths) (g : Gen) : Prop where
  values : g.values.Agrees W.slots
  uniforms : g.uniforms.Agrees W.slots
  immutableVars : ∀ entry ∈ g.immutableVars, entry.2.count = W.slots entry.1
  frame : ∀ frame ∈ g.frame, ∀ range ∈ frame.result, range.count = W.result

/-- From one state to another, with a given effect and with `closed` constructs left in which lanes
may be inactive. -/
structure Step (W : Widths) (closed : Nat) (g g' : Gen) (ε : Effect) : Prop where
  context : g'.context = g.context
  maskDepth : g'.builder.maskDepth = g.builder.maskDepth - closed
  depth : g'.builder.depth = g.builder.depth + ε.1
  inUse : g'.inUse = g.inUse + ε.2
  lastStack : g.lastStack ≤ g'.lastStack
  agrees : g'.Agrees W

variable {W : Widths} {g g' g'' : Gen} {ε ε' : Effect} {closed : Nat} {c : Context}

@[simp] theorem context_inContext (g : Gen) (c : Context) : (g.inContext c).context = c := rfl

@[simp] theorem inContext_context (g : Gen) : g.inContext g.context = g := rfl

@[simp] theorem inContext_inContext (g : Gen) (c d : Context) :
    (g.inContext c).inContext d = g.inContext d := rfl

theorem Agrees.inContext (h : g.Agrees W) {V : Widths} (hslots : V.slots = W.slots)
    (hframe : ∀ frame ∈ c.frame, ∀ range ∈ frame.result, range.count = V.result) :
    (g.inContext c).Agrees V where
  values := hslots ▸ h.values
  uniforms := hslots ▸ h.uniforms
  immutableVars := hslots ▸ h.immutableVars
  frame := hframe

theorem Agrees.withBuilder (h : g.Agrees W) (b : Builder) : Agrees W { g with builder := b } :=
  ⟨h.values, h.uniforms, h.immutableVars, h.frame⟩

theorem Agrees.withStacks (h : g.Agrees W) (last : Int) (free : List Int) :
    Agrees W { g with lastStack := last, freeStacks := free } :=
  ⟨h.values, h.uniforms, h.immutableVars, h.frame⟩

namespace Step

theorem refl (h : g.Agrees W) : g.Step W 0 g 0 :=
  ⟨rfl, rfl, (add_zero _).symm, (add_zero _).symm, le_rfl, h⟩

theorem stack (h : g.Step W closed g' ε) : g'.builder.stack = g.builder.stack :=
  congrArg Context.stack h.context

theorem trans (h : g.Step W 0 g' ε) (h' : g'.Step W closed g'' ε') :
    g.Step W closed g'' (ε + ε') where
  context := h'.context.trans h.context
  maskDepth := by rw [h'.maskDepth, h.maskDepth, Nat.sub_zero]
  depth := by rw [h'.depth, h.depth, Prod.fst_add, add_assoc]
  inUse := by rw [h'.inUse, h.inUse, Prod.snd_add, add_assoc]
  lastStack := h.lastStack.trans h'.lastStack
  agrees := h'.agrees

theorem of_eq (h : g.Step W closed g' ε) (hε : ε = ε') : g.Step W closed g' ε' := hε ▸ h

/-- A step can be made in any context, also in that of another function. -/
theorem inContext (h : g.Step W closed g' ε) {V : Widths} (hslots : V.slots = W.slots)
    (hframe : ∀ frame ∈ c.frame, ∀ range ∈ frame.result, range.count = V.result) :
    (g.inContext c).Step V closed (g'.inContext c) ε where
  context := rfl
  maskDepth := h.maskDepth
  depth := h.depth
  inUse := h.inUse
  lastStack := h.lastStack
  agrees := h.agrees.inContext hslots hframe

/-- A step that leaves the builder and the stacks as they are. -/
theorem of_builder_eq (hbuilder : g'.builder = g.builder) (hlast : g'.lastStack = g.lastStack)
    (hfree : g'.freeStacks = g.freeStacks) (hcontext : g'.context = g.context)
    (hagrees : g'.Agrees W) : g.Step W 0 g' 0 where
  context := hcontext
  maskDepth := by rw [hbuilder, Nat.sub_zero]
  depth := by rw [hbuilder, Prod.fst_zero, add_zero]
  inUse := by
    funext s
    simp [Gen.inUse, hlast, hfree]
  lastStack := hlast.ge
  agrees := hagrees

/-- A step of the builder alone. -/
theorem of_adds {b : Builder} {n : Int} (hg : g.Agrees W) (h : g.builder.Adds b n) :
    g.Step W 0 { g with builder := b } (n • Effect.onTop g.builder.stack) where
  context := by simp [Gen.context, h.stack]
  maskDepth := h.maskDepth
  depth := h.depth
  inUse := by
    funext s
    simp [Gen.inUse]
  lastStack := le_rfl
  agrees := hg.withBuilder b

/-- When no more stacks are in use than before, those that were created since have been given
free, and so have those that were taken from the free ones. -/
theorem count_freeStacks (h : g.Step W closed g' ε) (hε : ε.2 = 0) (s : Int) :
    g'.freeStacks.count s =
      g.freeStacks.count s + if g.lastStack < s ∧ s ≤ g'.lastStack then 1 else 0 := by
  have hin := congrFun h.inUse s
  have hlast := h.lastStack
  rw [hε] at hin
  simp only [Gen.inUse, Pi.add_apply, Pi.zero_apply] at hin
  split at hin <;> split at hin <;> split <;> omega

end Step

end Gen

/-! ## Computations -/

/-- Whenever the computation ends, its effect is `ε`, given the current stack and its result, and
its result satisfies `Q`. -/
def Affects {α : Type} (W : Widths) (closed : Nat) (act : GenM α) (ε : Int → α → Effect)
    (Q : α → Prop) : Prop :=
  ∀ g a g', g.Agrees W → act g = .ok (a, g') →
    g.Step W closed g' (ε g.builder.stack a) ∧ Q a

/-- The computation leaves `n` more words on the current stack. -/
def Moves (W : Widths) (act : GenM Unit) (n : Int) : Prop :=
  Affects W 0 act (fun s _ => n • Effect.onTop s) fun _ => True

namespace GenM

variable {α β : Type} {g g' : Gen}

theorem bind_eq_ok {x : GenM α} {f : α → GenM β} {b : β} :
    (x >>= f) g = .ok (b, g') ↔ ∃ a g₁, x g = .ok (a, g₁) ∧ f a g₁ = .ok (b, g') := by
  constructor
  · intro h
    rcases hx : x g with e | ⟨a, g₁⟩
    · simp [bind, StateT.bind, Except.bind, hx] at h
    · refine ⟨a, g₁, rfl, ?_⟩
      simpa [bind, StateT.bind, Except.bind, hx] using h
  · rintro ⟨a, g₁, hx, hf⟩
    simpa [bind, StateT.bind, Except.bind, hx] using hf

theorem pure_eq_ok {a b : α} : (pure a : GenM α) g = .ok (b, g') ↔ b = a ∧ g' = g := by
  simp [pure, StateT.pure, Except.pure, eq_comm]

theorem throw_ne_ok {e : Unsupported} {b : α} : (throw e : GenM α) g ≠ .ok (b, g') := by
  simp [throw, throwThe, MonadExceptOf.throw, StateT.lift, bind, Except.bind]

theorem get_eq_ok {s : Gen} : (get : GenM Gen) g = .ok (s, g') ↔ s = g ∧ g' = g := by
  simp [get, getThe, MonadStateOf.get, StateT.get, pure, Except.pure, eq_comm]

theorem modifyGet_eq_ok {f : Gen → α × Gen} {b : α} :
    (modifyGet f : GenM α) g = .ok (b, g') ↔ (f g) = (b, g') := by
  simp [modifyGet, MonadStateOf.modifyGet, StateT.modifyGet, pure, Except.pure]

theorem modify_eq_ok {f : Gen → Gen} {u : PUnit} :
    (modify f : GenM PUnit) g = .ok (u, g') ↔ g' = f g := by
  unfold modify
  rw [modifyGet_eq_ok]
  simp [eq_comm]

theorem lift_eq_ok {x : Except Unsupported α} {b : α} :
    (liftM x : GenM α) g = .ok (b, g') ↔ x = .ok b ∧ g' = g := by
  cases x <;> simp [liftM, monadLift, MonadLift.monadLift, StateT.lift, bind, Except.bind, pure,
    Except.pure, eq_comm]

end GenM

namespace Affects

open GenM

variable {α β : Type} {W : Widths} {closed : Nat} {x : GenM α} {f : α → GenM β}
  {ε ε₁ : Int → α → Effect} {ε₂ : Int → β → Effect} {P : α → Prop} {Q : β → Prop}

/-- One computation after another: the second one has what the first one leaves of the effect. -/
theorem bind (hx : Affects W 0 x ε₁ P)
    (hf : ∀ a, P a → Affects W closed (f a) (fun s b => ε₂ s b - ε₁ s a) Q) :
    Affects W closed (x >>= f) ε₂ Q := by
  intro g b g' hg h
  obtain ⟨a, g₁, hxa, hfa⟩ := bind_eq_ok.1 h
  obtain ⟨step₁, hP⟩ := hx g a g₁ hg hxa
  obtain ⟨step₂, hQ⟩ := hf a hP g₁ b g' step₁.agrees hfa
  refine ⟨(step₁.trans step₂).of_eq ?_, hQ⟩
  rw [step₁.stack]
  exact add_sub_cancel _ _

theorem pure {a : α} (ha : P a) (hε : ∀ s, ε s a = 0) : Affects W 0 (Pure.pure a : GenM α) ε P := by
  intro g b g' hg h
  obtain ⟨rfl, rfl⟩ := pure_eq_ok.1 h
  exact ⟨(Gen.Step.refl hg).of_eq (hε _).symm, ha⟩

theorem throw {e : Unsupported} : Affects W closed (MonadExcept.throw e : GenM α) ε P :=
  fun _ _ _ _ h => absurd h throw_ne_ok

theorem throw_bind {e : Unsupported} :
    Affects W closed ((MonadExcept.throw e : GenM α) >>= f) ε₂ Q := by
  intro g b g' _ h
  obtain ⟨a, g₁, hthrow, -⟩ := bind_eq_ok.1 h
  exact absurd hthrow throw_ne_ok

/-- Reading the state: all that is known of it is that it agrees with the widths. -/
theorem get_bind {f : Gen → GenM β} (hf : ∀ g : Gen, g.Agrees W → Affects W closed (f g) ε₂ Q) :
    Affects W closed (get >>= f) ε₂ Q := by
  intro g b g' hg h
  obtain ⟨s, g₁, hs, hfa⟩ := bind_eq_ok.1 h
  obtain ⟨rfl, rfl⟩ := get_eq_ok.1 hs
  exact hf _ hg _ b g' hg hfa

theorem lift_bind {x : Except Unsupported α} (hf : ∀ a, x = .ok a → Affects W closed (f a) ε₂ Q) :
    Affects W closed ((liftM x : GenM α) >>= f) ε₂ Q := by
  intro g b g' hg h
  obtain ⟨a, g₁, hlift, hfa⟩ := bind_eq_ok.1 h
  obtain ⟨ha, rfl⟩ := lift_eq_ok.1 hlift
  exact hf a ha _ b g' hg hfa

theorem mono {P' : α → Prop} (h : Affects W closed x ε P) (hε : ∀ s a, P a → ε s a = ε₁ s a)
    (hP : ∀ a, P a → P' a) : Affects W closed x ε₁ P' := by
  intro g a g' hg hx
  obtain ⟨step, ha⟩ := h g a g' hg hx
  exact ⟨step.of_eq (hε _ a ha), hP a ha⟩

theorem of_eq (h : Affects W closed x ε P) (hε : ∀ s a, ε s a = ε₁ s a) :
    Affects W closed x ε₁ P :=
  h.mono (fun s a _ => hε s a) fun _ ha => ha

end Affects

namespace Moves

variable {β : Type} {W : Widths} {closed : Nat} {x : GenM Unit} {y : GenM β} {m n : Int}
  {ε : Int → β → Effect} {Q : β → Prop}

theorem of_eq (h : Moves W x m) (hmn : m = n) : Moves W x n := hmn ▸ h

/-- A step within a computation of any effect. -/
theorem bind (hx : Moves W x m)
    (hy : Affects W closed y (fun s b => ε s b - m • Effect.onTop s) Q) :
    Affects W closed (x >>= fun _ => y) ε Q :=
  Affects.bind hx fun _ _ => hy

theorem seq {y : GenM Unit} (hx : Moves W x m) (hy : Moves W y n) :
    Moves W (x >>= fun _ => y) (m + n) :=
  hx.bind <| Affects.of_eq hy fun s _ => by module

theorem pure : Moves W (Pure.pure ()) 0 := Affects.pure trivial fun s => by simp

theorem throw {e : Unsupported} : Moves W (MonadExcept.throw e) n := Affects.throw

/-- A step that is taken under a condition, and leaves no words. -/
theorem bind_of_cond {c : Prop} [Decidable c] {rest : Unit → GenM β} (hx : Moves W x 0)
    (hrest : Affects W closed (rest ()) ε Q) :
    Affects W closed (if c then x >>= rest else rest ()) ε Q := by
  split
  · exact Affects.bind hx fun _ _ => hrest.of_eq fun s _ => by simp
  · exact hrest

/-- A last step that is taken under a condition, and leaves no words. -/
theorem of_cond {c : Prop} [Decidable c] (hx : Moves W x 0) :
    Moves W (if c then x else Pure.pure ()) 0 := by
  split
  · exact hx
  · exact Moves.pure

end Moves

namespace Gen

open GenM

variable {W : Widths} {closed : Nat}

/-! ## Calls of the builder -/

theorem moves_build {f : Builder → Builder} {n : Int} (h : ∀ b : Builder, b.Adds (f b) n) :
    Moves W (build f) n := by
  intro g a g' hg hrun
  obtain rfl := modify_eq_ok.1 hrun
  exact ⟨.of_adds hg (h g.builder), trivial⟩

/-- What is entered here is left at the end of what follows. -/
theorem affects_enable_bind {β : Type} {f : Builder → Builder} {n : Int} {act : GenM β}
    {ε : Int → β → Effect} {Q : β → Prop} (h : ∀ b : Builder, b.Adds (f b) n)
    (hact : Affects W (closed + 1) act (fun s b => ε s b - n • Effect.onTop s) Q) :
    Affects W closed (build (fun b => f b.enableMaskWrites) >>= fun _ => act) ε Q := by
  intro g b g' hg hrun
  obtain ⟨_, g₁, hbuild, hrest⟩ := bind_eq_ok.1 hrun
  obtain rfl := modify_eq_ok.1 hbuild
  have hadds := h g.builder.enableMaskWrites
  have hmask : (f g.builder.enableMaskWrites).maskDepth = g.builder.maskDepth + 1 := hadds.maskDepth
  have hstack : (f g.builder.enableMaskWrites).stack = g.builder.stack := hadds.stack
  obtain ⟨step, hQ⟩ := hact _ b g' (hg.withBuilder _) hrest
  simp only [hstack] at step
  refine ⟨⟨?_, ?_, ?_, ?_, step.lastStack, step.agrees⟩, hQ⟩
  · rw [step.context]
    simp [context, hstack]
  · rw [step.maskDepth, hmask, Nat.add_sub_add_right]
  · rw [step.depth, hadds.depth]
    simp only [Builder.depth, Builder.enableMaskWrites, Prod.fst_sub, Prod.smul_fst,
      Effect.fst_onTop]
    abel
  · rw [step.inUse]
    simp only [Prod.snd_sub, Prod.smul_snd, Effect.snd_onTop, smul_zero, sub_zero]
    rfl

theorem affects_disable {f : Builder → Builder} {n : Int} (h : ∀ b : Builder, b.Adds (f b) n) :
    Affects W 1 (build fun b => (f b).disableMaskWrites) (fun s _ => n • Effect.onTop s)
      fun _ => True := by
  intro g a g' hg hrun
  obtain rfl := modify_eq_ok.1 hrun
  have step := Step.of_adds hg (h g.builder)
  refine ⟨⟨step.context, ?_, step.depth, step.inUse, step.lastStack, hg.withBuilder _⟩, trivial⟩
  exact congrArg (· - 1) step.maskDepth

theorem affects_newLabel : Affects W 0 newLabel (fun _ _ => 0) fun _ => True := by
  intro g a g' hg hrun
  obtain ⟨rfl, rfl⟩ := Prod.mk.inj (modifyGet_eq_ok.1 hrun)
  refine ⟨(Step.of_adds hg Builder.adds_setLabelCount).of_eq ?_, trivial⟩
  rw [zero_smul]

/-! ## Stacks -/

theorem affects_createStack :
    Affects W 0 createStack (fun _ t => Effect.taken t) fun _ => True := by
  intro g t g' hg hrun
  have hrun := modifyGet_eq_ok.1 hrun
  rcases hfree : g.freeStacks with _ | ⟨u, rest⟩
  · simp only [hfree] at hrun
    obtain ⟨rfl, rfl⟩ := Prod.mk.inj hrun
    refine ⟨⟨rfl, rfl, by simp, ?_, by simp, hg.withStacks _ _⟩, trivial⟩
    funext s
    simp only [inUse, hfree, Effect.snd_taken, Pi.add_apply]
    rw [← one_smul Int (word _), smul_word_apply]
    simp only [List.count_nil]
    split <;> split <;> split <;> omega
  · simp only [hfree] at hrun
    obtain ⟨rfl, rfl⟩ := Prod.mk.inj hrun
    refine ⟨⟨rfl, rfl, by simp, ?_, le_rfl, hg.withStacks _ _⟩, trivial⟩
    funext s
    simp only [inUse, hfree, Effect.snd_taken, Pi.add_apply, List.count_cons]
    rw [← one_smul Int (word _), smul_word_apply]
    simp only [beq_iff_eq]
    split <;> split <;> omega

theorem affects_recycleStack (t : Int) :
    Affects W 0 (recycleStack t) (fun _ _ => -Effect.taken t) fun _ => True := by
  intro g a g' hg hrun
  obtain rfl := modify_eq_ok.1 hrun
  refine ⟨⟨rfl, rfl, by simp, ?_, le_rfl, hg.withStacks _ _⟩, trivial⟩
  funext s
  simp only [inUse, Prod.snd_neg, Effect.snd_taken, Pi.add_apply, Pi.neg_apply, List.count_cons]
  rw [← one_smul Int (word _), smul_word_apply]
  simp only [beq_iff_eq]
  split <;> split <;> omega

theorem onStack_eq_ok {t : Int} {act : GenM Unit} {u : Unit} {g g' : Gen}
    (h : onStack t act g = .ok (u, g')) :
    ∃ g₁, act (g.inContext { g.context with stack := t }) = .ok ((), g₁) ∧
      g' = g₁.inContext { g₁.context with stack := g.builder.stack } := by
  obtain ⟨s, g₀, hget, hrest⟩ := bind_eq_ok.1 h
  obtain ⟨rfl, rfl⟩ := get_eq_ok.1 hget
  obtain ⟨_, g₁, hset, hinner⟩ := bind_eq_ok.1 hrest
  obtain rfl := modify_eq_ok.1 hset
  obtain ⟨_, g₂, hact, hback⟩ := bind_eq_ok.1 hinner
  obtain rfl := modify_eq_ok.1 hback
  exact ⟨g₂, hact, rfl⟩

/-- On another stack, a computation leaves its words there. -/
theorem affects_onStack {t : Int} {act : GenM Unit} {n : Int} (h : Moves W act n) :
    Affects W 0 (onStack t act) (fun _ _ => n • Effect.onTop t) fun _ => True := by
  intro g a g' hg hrun
  obtain ⟨g₁, hact, rfl⟩ := onStack_eq_ok hrun
  obtain ⟨step, -⟩ := h _ _ g₁ (hg.inContext rfl hg.frame) hact
  have hback := step.inContext (c := g.context) rfl hg.frame
  rw [inContext_inContext, inContext_context] at hback
  refine ⟨?_, trivial⟩
  rw [step.context]
  exact hback

end Gen

/-- What is done for each element of a list adds up. -/
theorem Affects.forIn {α : Type} {W : Widths} {xs : List α}
    {body : α → PUnit → GenM (ForInStep PUnit)} {ε : Int → α → Effect}
    (h : ∀ x ∈ xs, Affects W 0 (body x ⟨⟩) (fun s _ => ε s x) (· = .yield ⟨⟩)) :
    Affects W 0 (ForIn.forIn xs PUnit.unit body) (fun s _ => (xs.map (ε s)).sum)
      fun _ => True := by
  induction xs with
  | nil => exact Affects.pure trivial fun _ => rfl
  | cons x rest ih =>
    rw [List.forIn_cons]
    refine Affects.bind (h x (List.mem_cons_self ..)) ?_
    rintro _ rfl
    refine (ih fun y hy => h y (List.mem_cons_of_mem _ hy)).of_eq ?_
    intro s a
    rw [List.map_cons, List.sum_cons]
    abel

end RasterShader
