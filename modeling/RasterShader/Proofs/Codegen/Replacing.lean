import Mathlib
import RasterShader.Proofs.Code.Leads
import RasterShader.Proofs.Codegen.Effect

/-!
# Code that replaces the words on top of the stack

A step of the builder turns some words on top of the current stack into others (`Builder.Turns`)
when, wherever the instructions so far lead with the former on top, they lead to the same state with
the latter on top once the step has been added.  The words are the same in all lanes.  A computation
that does no more than add such steps replaces the words (`Replaces`).

Words below those that are replaced do not matter (`Builder.Turns.below`, `Replaces.below`), so that
steps compose.
-/

namespace RasterShader

open Builder

/-! ## Steps of the builder -/

/-- A step of the builder makes the words `vs` of the words `ws` on top of the current stack. -/
structure Builder.Turns (f : Builder → Builder) (ws vs : List UInt32) : Prop where
  stack : ∀ b, (f b).stack = b.stack
  leads : ∀ {lanes : Nat} {r : Start lanes} {b : Builder} {τ : StackMachine lanes},
    b.Leads r (τ.push b.stack (Words.alike ws)) → (f b).Leads r (τ.push b.stack (Words.alike vs))

namespace Builder.Turns

variable {f f' : Builder → Builder} {us vs ws xs ys : List UInt32} {n : Nat}

theorem refl (ws : List UInt32) : Turns id ws ws := ⟨fun _ => rfl, fun h => h⟩

theorem comp (h : Turns f ws vs) (h' : Turns f' vs us) : Turns (fun b => f' (f b)) ws us where
  stack b := (h'.stack _).trans (h.stack b)
  leads {lanes r b τ} hb := by
    have := h'.leads (τ := τ) (by rw [h.stack]; exact h.leads hb)
    rwa [h.stack] at this

/-- Words further down stay where they are. -/
theorem below (h : Turns f ws vs) (us : List UInt32) : Turns f (us ++ ws) (us ++ vs) where
  stack := h.stack
  leads hb := by
    rw [Words.alike_append, ← StackMachine.push_push] at hb ⊢
    exact h.leads hb

theorem pushConstant (bits : UInt32) (n : Nat) :
    Turns (·.pushConstant bits n) [] (List.replicate n bits) where
  stack _ := adds_pushConstant.stack
  leads hb := by
    rw [show Words.alike [] = [] from rfl, StackMachine.push_nil] at hb
    exact hb.pushConstant bits n

theorem unary (op : UnaryOp) (ty : NumType) (hn : ws.length = n) :
    Turns (·.unary op ty n) ws (ws.map (op.eval ty)) where
  stack _ := adds_unary.stack
  leads hb := hn ▸ hb.unary op ty

theorem binary (op : BinaryOp) (ty : NumType) (hxs : xs.length = n) (hys : ys.length = n) :
    Turns (·.binary op ty n) (xs ++ ys) (List.zipWith (op.eval ty) xs ys) where
  stack _ := adds_binary.stack
  leads hb := by
    subst hxs
    exact hb.binary op ty hys.symm

theorem discard (ws : List UInt32) (hvs : vs.length = n) : Turns (·.discard n) (ws ++ vs) ws where
  stack _ := adds_discard.stack
  leads hb := by
    rw [Words.alike_append] at hb
    have hdiscard := hb.discard
    rwa [Words.length_alike, hvs] at hdiscard

theorem pushClone {count distance : Nat} (hcount : count ≤ distance)
    (hdistance : distance ≤ ws.length) :
    Turns (·.pushClone count distance) ws
      (ws ++ (ws.drop (ws.length - distance)).take count) where
  stack _ := adds_pushClone.stack
  leads hb := by
    have hclone := hb.pushClone hcount (by rwa [Words.length_alike])
    rwa [Words.length_alike, Words.alike, ← List.map_drop, ← List.map_take, ← List.map_append]
      at hclone

theorem swizzle {components : List Nat} (hn : ws.length = n)
    (hlt : ∀ c ∈ components, c < n ∧ c < 16) (hlength : components.length ≤ 16) :
    Turns (·.swizzle n components) ws (components.map fun c => ws.getD c 0) where
  stack _ := (adds_swizzle fun c hc => (hlt c hc).1).stack
  leads {lanes _ _ _} hb := by
    rw [← hn, ← @Words.length_alike lanes ws] at hlt
    have hswizzle := hb.swizzle hlt hlength
    rwa [Words.length_alike, hn, Words.choose_alike] at hswizzle

theorem pushDuplicates (word : UInt32) (n : Nat) :
    Turns (·.pushDuplicates n) [word] (List.replicate (n + 1) word) where
  stack _ := adds_pushDuplicates.stack
  leads hb := by
    rw [Words.alike_replicate]
    exact hb.pushDuplicates n

theorem diagonal (word : UInt32) (shape : Shape) :
    Turns (·.emit (.diagonal shape)) [word] (Matrix.diagonal shape word).toList where
  stack _ := rfl
  leads hb := hb.diagonal shape

theorem resize (source target : Shape) (hlength : ws.length = source.size) :
    Turns (·.emit (.resize source target)) ws
      (Matrix.resize source target ws.toArray).toList where
  stack _ := rfl
  leads hb := hb.resize target hlength

/-- Words that are pushed one after the other. -/
theorem pushWords (ws : List UInt32) :
    Turns (fun b => ws.foldl (fun b word => b.pushConstant word 1) b) [] ws := by
  induction ws with
  | nil => exact .refl []
  | cons w ws ih =>
    have hrest := ih.below [w]
    rw [List.append_nil] at hrest
    exact (pushConstant w 1).comp hrest

end Builder.Turns

/-! ## Computations -/

/-- The computation makes the words `vs` of the words `ws` on top of the current stack, and changes
nothing else of the state of code generation than the instructions. -/
def Replaces (act : GenM Unit) (ws vs : List UInt32) : Prop :=
  ∃ f : Builder → Builder, Builder.Turns f ws vs ∧
    ∀ g : Gen, act g = .ok ((), { g with builder := f g.builder })

namespace Replaces

variable {α : Type} {f : Builder → Builder} {us vs ws : List UInt32} {x y : GenM Unit}

theorem build (h : Builder.Turns f ws vs) : Replaces (Gen.build f) ws vs := ⟨f, h, fun _ => rfl⟩

theorem pure (ws : List UInt32) : Replaces (Pure.pure ()) ws ws := ⟨id, .refl ws, fun _ => rfl⟩

theorem seq (hx : Replaces x ws vs) (hy : Replaces y vs us) :
    Replaces (x >>= fun _ => y) ws us := by
  obtain ⟨f, hf, hx⟩ := hx
  obtain ⟨f', hf', hy⟩ := hy
  refine ⟨_, hf.comp hf', fun g => ?_⟩
  exact GenM.bind_eq_ok.2 ⟨(), _, hx g, hy _⟩

theorem lift_bind {e : Except Unsupported α} {a : α} {k : α → GenM Unit} (he : e = .ok a)
    (h : Replaces (k a) ws vs) : Replaces ((liftM e : GenM α) >>= k) ws vs := by
  obtain ⟨f, hf, h⟩ := h
  exact ⟨f, hf, fun g => GenM.bind_eq_ok.2 ⟨a, g, GenM.lift_eq_ok.2 ⟨he, rfl⟩, h g⟩⟩

/-- Words further down stay where they are. -/
theorem below (h : Replaces x ws vs) (us : List UInt32) : Replaces x (us ++ ws) (us ++ vs) := by
  obtain ⟨f, hf, h⟩ := h
  exact ⟨f, hf.below us, h⟩

/-- A computation makes only one thing of words. -/
theorem unique (h : Replaces x ws vs) (h' : Replaces x ws us) : vs = us := by
  obtain ⟨f, hf, h⟩ := h
  obtain ⟨f', hf', h'⟩ := h'
  let r : Start 1 := default
  let b := ws.foldl (fun b word => b.pushConstant word 1) Builder.empty
  have hwords : b.Leads r (r.state.push 0 (Words.alike ws)) :=
    (Turns.pushWords ws).leads (by simpa [Words.alike] using Leads.empty r)
  have hstack : b.stack = 0 := (Turns.pushWords ws).stack Builder.empty
  rw [← hstack] at hwords
  let g : Gen := { Gen.start false with builder := b }
  have hsame : f b = f' b := by
    have hboth := (h g).symm.trans (h' g)
    simp only [Except.ok.injEq, Prod.mk.injEq, true_and] at hboth
    exact congrArg Gen.builder hboth
  have hvs := hf.leads hwords
  have hus := hf'.leads hwords
  rw [hsame] at hvs
  have hstates := congrArg Prod.fst (hvs.outcome.symm.trans hus.outcome)
  have htop := congrArg (fun τ : StackMachine 1 => τ.stack b.stack) hstates
  simp only [StackMachine.push, StackMachine.replace, Function.update_self,
    List.append_cancel_left_eq] at htop
  exact Words.alike_injective vs us Nat.one_pos htop

end Replaces

end RasterShader
