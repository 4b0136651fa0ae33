import Mathlib
import RasterShader.Proofs.Code.Fixed
import RasterShader.Proofs.Code.Words

/-!
# Swizzles and duplicates, from the call to the run

A swizzle of up to sixteen words leaves those that its components name, and nothing else changes,
however the call is put into code: components that stay where they are are trimmed, the others are
packed into one word or two and unpacked when the code is lowered.  A word can be repeated any
number of times, though one swizzle repeats it fifteen times at most.

Both are statements about the end of the way (`Builder.selections_run`): what is compared with the
words on the stack is the memory of the machine after the stages of the lowered pipeline have run.
-/

namespace RasterShader

variable {lanes : Nat}

/-- Words that are there are chosen by their places. -/
theorem Words.choose_eq_pmap {components : List Nat} {ws : List (Vector UInt32 lanes)}
    (inside : ∀ c ∈ components, c < ws.length) :
    choose components ws = components.pmap (fun c hc => ws.get ⟨c, hc⟩) inside := by
  rw [choose, ← List.pmap_eq_map inside]
  refine List.pmap_congr_left components fun c _ hc _ => ?_
  rw [List.getD_eq_getElem _ _ hc]
  rfl

namespace Code

theorem isFixed_of_mem_duplicates {count : Nat} :
    ∀ op ∈ Call.duplicates count, isFixed op = false := by
  induction count using Nat.strong_induction_on with
  | _ count ih =>
    rw [Call.duplicates]
    split
    · simp
    · exact List.forall_mem_cons.2 ⟨isFixed_selection _ _, ih _ (by omega)⟩

/-- Operations that are not fixed add none. -/
theorem fixed_addAll {ops : List Op} (h : ∀ op ∈ ops, isFixed op = false) (b : Builder) :
    fixed (Call.addAll b ops).code = fixed b.code := by
  induction ops generalizing b with
  | nil => rfl
  | cons op ops ih =>
    obtain ⟨hop, hops⟩ := List.forall_mem_cons.1 h
    rw [Call.addAll, List.foldl_cons, ← Call.addAll, ih hops]
    simp [fixed, Builder.emit, hop]

end Code

namespace Builder

/-- The code of `b'` leads to a state.  Pipelines that hold it are lowered exactly if the host and
the immutable slots allow for what the code of `b` asks of them, and run without an error until the
words of the state are where the pipeline keeps them. -/
def RunsOn (r : Start lanes) (b b' : Builder) (τ : StackMachine lanes) : Prop :=
  b'.Leads r τ ∧
    ∀ (p : Pipeline) (immutableSlots : Nat) (host : Option Host) (tailCalls : Bool),
      p.Holds b' r.size immutableSlots → Host.OwnStages host → r.host = Host.effect host →
      ((∃ lowered, p.lower host tailCalls = .ok lowered) ↔
        ∀ op ∈ Code.fixed b.code, op.Accepted p host) ∧
      ∀ lowered, p.lower host tailCalls = .ok lowered → ∀ m, LaidOut p m r.state →
        ∀ fuel, lowered.stages.size ≤ fuel →
          (Machine.runFrom lowered.stages r.batch fuel 0 m).2 = none ∧
            LaidOut p (Machine.runFrom lowered.stages r.batch fuel 0 m).1 τ

variable {r : Start lanes} {b b' : Builder} {σ τ : StackMachine lanes}

/-- A call that follows operations on data, none of them fixed, runs to where they take the code
before. -/
theorem RunsOn.of_takes {ops : List Op} (h : b.Leads r σ)
    (takes : Op.Takes r.host r.batch r.size b.stack ops σ τ)
    (data : ∀ op ∈ ops, Call.isData op = true) (free : ∀ op ∈ ops, Code.isFixed op = false)
    (follows : Call.Follows r.size b' (Call.addAll b ops)) : RunsOn r b b' τ := by
  have added : (Call.addAll b ops).Leads r τ := h.addAll data takes
  have leads : b'.Leads r τ := added.of_follows follows
  have hfixed : Code.fixed b'.code = Code.fixed b.code :=
    (follows.code added.valid).2.fixed.trans (Code.fixed_addAll free b)
  refine ⟨leads, ?_⟩
  intro p immutableSlots host tailCalls holds own hhost
  obtain ⟨lowers, -⟩ := Code.runFrom_lowered tailCalls holds.fits holds.instructions
    (holds.valueSlots ▸ leads.valid) leads.straight own
  refine ⟨hfixed ▸ lowers, ?_⟩
  intro lowered hlower m lay fuel hfuel
  exact leads.runFrom holds own hhost hlower lay hfuel

/-- Of up to sixteen words on top of any stack, a swizzle leaves exactly those that its components
name, and the top word is repeated any number of times: after the code before and the call, and in
every run of what the pipeline is lowered to. -/
theorem selections_run {ws : List (Vector UInt32 lanes)} (h : b.Leads r (σ.push b.stack ws)) :
    (ws.length ≤ 16 → ∀ components : List Nat, components.length ≤ 16 →
      ∀ inside : ∀ c ∈ components, c < ws.length,
        RunsOn r b (b.swizzle ws.length components)
          (σ.push b.stack (components.pmap (fun c hc => ws.get ⟨c, hc⟩) inside))) ∧
    ∀ w, ws = [w] → ∀ n,
      RunsOn r b (b.pushDuplicates n) (σ.push b.stack (List.replicate (n + 1) w)) := by
  constructor
  · intro hws components hlength inside
    have small : ∀ c ∈ components, c < 16 := fun c hc => (inside c hc).trans_le hws
    rw [← Words.choose_eq_pmap inside]
    refine .of_takes h (.selection σ small hlength) ?_ ?_
      (Call.follows_swizzle b (fun c hc => ⟨inside c hc, small c hc⟩) hlength)
    · simpa using Call.isData_selection ws.length components
    · simpa using Code.isFixed_selection ws.length components
  · rintro w rfl n
    exact .of_takes h (.duplicates σ w n) Call.isData_of_mem_duplicates
      Code.isFixed_of_mem_duplicates (Call.follows_pushDuplicates b n)

/-- One lane with sixteen slots, each of which holds its own number. -/
def sixteenSlots : Start 1 where
  host := Host.effect none
  batch := ⟨1, #[], #[], #v[0], #v[0]⟩
  memory := { Machine.ofPixels #[] #[.zero] with
    values := Array.ofFn fun i : Fin 16 => #v[UInt32.ofNat i] }

/-- All places but the first from the last one back. -/
def turned : List Nat := [0, 15, 14, 13, 12, 11, 10, 9, 8, 7, 6, 5, 4, 3, 2, 1]

/-- The words of slots in the one lane. -/
def wordsOf (slots : List Nat) : List (Vector UInt32 1) := slots.map fun i => #v[UInt32.ofNat i]

/-- All sixteen words are turned round but for the first, whose place is trimmed; and the last one
is repeated forty times, by three swizzles. -/
theorem selections_run_sixteenSlots :
    let swizzled := (Builder.empty.pushSlots .value ⟨0, 16⟩).swizzle 16 turned
    ∃ p lowered, p.Holds (swizzled.pushDuplicates 40) 16 0 ∧ p.lower none false = .ok lowered ∧
      ∀ m, LaidOut p m sixteenSlots.state → ∀ fuel, lowered.stages.size ≤ fuel →
        (Machine.runFrom lowered.stages sixteenSlots.batch fuel 0 m).2 = none ∧
        LaidOut p (Machine.runFrom lowered.stages sixteenSlots.batch fuel 0 m).1
          (sixteenSlots.state.push 0 (wordsOf (turned ++ List.replicate 40 1))) := by
  intro swizzled
  have held : (Builder.empty.pushSlots .value ⟨0, 16⟩).Leads sixteenSlots
      (sixteenSlots.state.push 0 (wordsOf (List.range 16))) := by
    have hwindow : sixteenSlots.memory.window 0 16 = wordsOf (List.range 16) := by decide +kernel
    exact hwindow ▸ (Leads.empty sixteenSlots).pushSlots (by decide)
  have chosen : swizzled.Leads sixteenSlots
      ((sixteenSlots.state.push 0 (wordsOf turned.dropLast)).push swizzled.stack [#v[1]]) := by
    have run := (selections_run held).1 (by decide) turned (by decide) (by decide)
    have hstack : swizzled.stack = 0 := by decide +kernel
    rw [hstack, StackMachine.push_push]
    exact run.1
  have hstack : swizzled.stack = 0 := by decide +kernel
  have repeated := (selections_run chosen).2 _ rfl 40
  rw [hstack, StackMachine.push_push] at repeated
  have own : Host.OwnStages none := by
    intro call stages h
    cases call <;> cases h
  obtain ⟨p, hp⟩ : ∃ p : Pipeline, p.Holds (swizzled.pushDuplicates 40) 16 0 := by
    refine ⟨⟨(swizzled.pushDuplicates 40).instructions, 16, 0, 0, 0, [56], none⟩, rfl, rfl, rfl, ?_⟩
    have hcode : (swizzled.pushDuplicates 40).instructions =
        [⟨.pushSlots .value ⟨0, 16⟩, 0⟩, ⟨.shuffle 15 15 0x789ABCDE 0x0123456, 0⟩,
          ⟨.shuffle 1 16 0 0, 0⟩, ⟨.shuffle 1 16 0 0, 0⟩, ⟨.shuffle 1 11 0 0, 0⟩] := by
      decide +kernel
    have hafter : StackDepths.empty.after 0 (swizzled.pushDuplicates 40).instructions =
        .ok ⟨[56], [56]⟩ := by
      rw [hcode]
      rfl
    exact Pipeline.fits_of_after hafter rfl
  obtain ⟨lowers, run⟩ := repeated.2 p 0 none false hp own rfl
  have hfixed : Code.fixed swizzled.code = [] := by decide +kernel
  obtain ⟨lowered, hlower⟩ := lowers.2 (by simp [hfixed])
  exact ⟨p, lowered, hp, hlower, fun m lay fuel hfuel => run lowered hlower m lay fuel hfuel⟩

end Builder

end RasterShader
