import Mathlib
import RasterShader.Proofs.Flow.Basic

/-!
# Lowered instructions run as their flow

The flow of a list of instructions (`Flow.ofInstructions`) has a piece for each of them.  Lowering
lays the pieces out one after the other, with rewinds between them that do nothing
(`Lowering.lowerInstruction_piece`), and leads every branch to where its label was placed
(`Lowering.exists_of_placed`).  A run of the stages that ends is therefore a run of the flow
(`Pipeline.runs_flow`).

A host may supply any stages, as long as the branches among them stay among them
(`Host.Contained`).
-/

namespace RasterShader

variable {lanes : Nat}

/-! ## The flow of instructions -/

/-- The branches among the stages that a host supplies for a call stay among them. -/
def Host.Contained (host : Option Host) : Prop :=
  ∀ call stages, Host.stages? host call = some stages → RasterShader.Contained stages

/-- The next free slot of a stack, for given first slots and depths of stacks. -/
def nextFree (base : Nat → Nat) (depth : Int → Int) (stack : Int) : Nat :=
  base stack.toNat + (depth stack.toNat).toNat

/-- The piece of an instruction, for given first slots and depths of stacks. -/
def Piece.ofInstruction (base : Nat → Nat) (host : Option Host) (depth : Int → Int)
    (i : Instruction) : Piece :=
  match i.op with
  | .label l => .label l
  | .branch condition l => .branch (condition.toStage (nextFree base depth i.stack)) l
  | .invoke call => .row ((Host.stages? host call).getD [] ++ [.setBasePointer])
  | op => .row (op.stage? (nextFree base depth i.stack) (nextFree base depth)).toList

/-- The pieces of instructions that start with given depths of the stacks. -/
def Flow.ofInstructions (base : Nat → Nat) (host : Option Host) :
    (depth : Int → Int) → List Instruction → Flow
  | _, [] => []
  | depth, i :: rest =>
    .ofInstruction base host depth i :: ofInstructions base host (depth + stackDepth [i]) rest

/-- The flow of a pipeline. -/
def Pipeline.flow (p : Pipeline) (host : Option Host) : Flow :=
  .ofInstructions p.stackBase host 0 p.instructions

/-- What lowering emits for a piece. -/
def Piece.emitted : Piece → List Emitted
  | .row stages => stages.map .stage
  | .label _ => []
  | .branch condition l => [.branch condition l]

theorem Flow.ofInstructions_append (base : Nat → Nat) (host : Option Host) (depth : Int → Int)
    (first rest : List Instruction) :
    ofInstructions base host depth (first ++ rest) =
      ofInstructions base host depth first ++
        ofInstructions base host (depth + stackDepth first) rest := by
  induction first generalizing depth with
  | nil =>
    have : stackDepth [] = 0 := rfl
    simp [ofInstructions, this]
  | cons i first ih =>
    have hdepth : depth + stackDepth [i] + stackDepth first = depth + stackDepth (i :: first) := by
      funext s
      simp only [Pi.add_apply]
      rw [stackDepth_cons, stackDepth_cons, stackDepth_nil, add_zero, add_assoc]
    simp only [List.cons_append, ofInstructions, ih, hdepth]

/-! ## One instruction -/

namespace Lowering

variable {p : Pipeline} {host : Option Host} {tailCalls : Bool} {L L' : Lowering}
  {before : List Instruction} {i : Instruction}

theorem Counts.nextFree (counts : Counts p L before) (t : Int) :
    L.topOf p t = RasterShader.nextFree p.stackBase (stackDepth before) t := by
  have := counts.depth t.toNat
  rw [Lowering.topOf, RasterShader.nextFree, ← this, Int.toNat_natCast]

/-- A rewind, if there is one, is emitted and changes nothing else. -/
theorem rewind_cond (L : Lowering) (c : Bool) :
    ∃ rewinds : List Stage, (∀ stage ∈ rewinds, stage = .stackRewind) ∧
      (if c then L.rewind else L).emitted.toList = L.emitted.toList ++ rewinds.map .stage ∧
      (if c then L.rewind else L).depths = L.depths ∧
      (if c then L.rewind else L).labels = L.labels ∧
      (if c then L.rewind else L).immutable = L.immutable := by
  cases c with
  | true => exact ⟨[.stackRewind], by simp, by simp [rewind, emit], rfl, rfl, rfl⟩
  | false => exact ⟨[], by simp, by simp, rfl, rfl, rfl⟩

/-- Lowering an instruction emits its piece, perhaps after rewinds, and moves the top of its
stack. -/
theorem lowerInstruction_piece (counts : Counts p L before)
    (h : L.lowerInstruction p host tailCalls i = .ok L') :
    ∃ rewinds : List Stage, (∀ stage ∈ rewinds, stage = .stackRewind) ∧
      L'.emitted.toList = L.emitted.toList ++ rewinds.map .stage ++
        (Piece.ofInstruction p.stackBase host (stackDepth before) i).emitted ∧
      L'.depths = (L.moveTop i).depths := by
  have htop : L.topOf p = RasterShader.nextFree p.stackBase (stackDepth before) :=
    funext counts.nextFree
  by_cases hbranch : i.op.branchTarget? = none
  · obtain ⟨rewinds, hrewinds, hemitted, hdepths, -⟩ := lowerInstruction_eq_ok hbranch h
    refine ⟨rewinds, hrewinds, ?_, hdepths⟩
    have hpiece : (L.stagesOf p host i).map Emitted.stage =
        (Piece.ofInstruction p.stackBase host (stackDepth before) i).emitted := by
      rw [stagesOf, Piece.ofInstruction, htop]
      obtain ⟨op, s⟩ := i
      cases op with
      | branch => cases hbranch
      | _ => rfl
    rw [hemitted, List.map_append, hpiece, List.append_assoc]
  · obtain ⟨op, s⟩ := i
    cases op with
    | branch condition label =>
      obtain ⟨due, hdue, hemitted, hdepths, -⟩ := rewind_cond L
        (!tailCalls && decide (rewindInterval ≤ L.emitted.size - L.lastRewind))
      generalize hL₁ : (if (!tailCalls && decide (rewindInterval ≤ L.emitted.size - L.lastRewind))
        then L.rewind else L) = L₁ at hemitted hdepths
      obtain ⟨back, hback, hemitted', hdepths', -⟩ := rewind_cond L₁
        (!tailCalls && (L₁.placed? label).isSome)
      simp only [lowerInstruction, hL₁, lowerOp, bind, Except.bind, pure, Except.pure,
        Except.ok.injEq] at h
      subst h
      refine ⟨due ++ back, ?_, ?_, ?_⟩
      · intro stage hstage
        exact (List.mem_append.1 hstage).elim (hdue stage) (hback stage)
      · have htop₁ : L₁.topOf p s = RasterShader.nextFree p.stackBase (stackDepth before) s := by
          rw [← htop, topOf, topOf, hdepths]
        simp only [moveTop, Array.toList_push, hemitted', hemitted, Piece.ofInstruction,
          Piece.emitted, htop₁]
        simp
      · simp only [moveTop, hdepths', hdepths]
    | _ => exact absurd rfl hbranch

theorem labels_emitHost (L : Lowering) (stages : List Stage) :
    (L.emitHost stages).labels = L.labels := by
  have : (stages.foldl emit L).labels = L.labels := by
    induction stages generalizing L with
    | nil => rfl
    | cons stage stages ih => exact ih (L.emit stage)
  exact this

/-- Lowering an operation changes the labels only if it is a label, which must be one of those that
are in use. -/
theorem labels_lowerOp (h : L.lowerOp p host tailCalls i = .ok L') :
    (∃ n : Nat, i.op = .label n ∧ n < L.labels.size ∧
      L' = { L with labels := L.labels.setIfInBounds n (some L.emitted.size) }) ∨
    (∀ l, i.op ≠ .label l) ∧ L'.labels = L.labels := by
  obtain ⟨op, s⟩ := i
  cases op with
  | label l =>
    simp only [lowerOp] at h
    split at h
    · rename_i hrange
      cases h
      obtain ⟨n, rfl⟩ := Int.eq_ofNat_of_zero_le hrange.1
      exact .inl ⟨n, rfl, by simpa using hrange.2, by simp⟩
    · cases h
  | branch condition l =>
    simp only [lowerOp, Except.ok.injEq] at h
    obtain ⟨-, -, -, -, hlabels, -⟩ := rewind_cond L (!tailCalls && (L.placed? l).isSome)
    subst h
    exact .inr ⟨by simp, hlabels⟩
  | storeImmutable slot bits =>
    simp only [lowerOp] at h
    split at h
    · cases h
      exact .inr ⟨by simp, rfl⟩
    · cases h
  | invoke call =>
    refine .inr ⟨by simp, ?_⟩
    simp only [lowerOp] at h
    split at h
    · cases h
    · split at h
      · cases h
        exact labels_emitHost ..
      · cases h
    · cases h
      exact labels_emitHost ..
    · cases h
      exact labels_emitHost ..
  | _ =>
    refine .inr ⟨by simp, ?_⟩
    simp only [lowerOp] at h
    split at h
    · cases h
      rfl
    · cases h
      rfl

/-- A label is placed where the stages of its instruction end, and stays there until it is placed
again. -/
theorem placed?_lowerInstruction (h : L.lowerInstruction p host tailCalls i = .ok L') (l : Int) :
    L'.placed? l = if i.op = .label l then some L'.emitted.size else L.placed? l := by
  obtain ⟨-, -, -, -, hdue, -⟩ := rewind_cond L
    (!tailCalls && decide (rewindInterval ≤ L.emitted.size - L.lastRewind))
  simp only [lowerInstruction, bind, Except.bind, pure, Except.pure] at h
  split at h
  · cases h
  · rename_i L₁ hop
    cases h
    rcases labels_lowerOp hop with ⟨n, hn, hsize, hL₁⟩ | ⟨hne, hlabels⟩
    · subst hL₁
      rw [hdue] at hsize
      rw [hn]
      cases l with
      | ofNat k =>
        simp only [placed?, moveTop, hdue, Array.getElem?_setIfInBounds, Op.label.injEq,
          Int.ofNat_eq_natCast, Nat.cast_inj]
        by_cases hk : n = k
        · subst hk
          simp [hsize]
        · simp [hk]
      | negSucc k => simp [placed?]
    · rw [if_neg (hne l)]
      cases l with
      | ofNat n => simp only [placed?, moveTop, hlabels, hdue]
      | negSucc n => rfl

theorem placed?_start (l : Int) : (start p).placed? l = none := by
  cases l with
  | ofNat n =>
    simp only [placed?, start, Array.getElem?_replicate]
    split <;> rfl
  | negSucc n => rfl

/-- A label that has been placed was placed by one of the instructions. -/
theorem exists_of_placed {instructions : List Instruction}
    (h : instructions.foldlM (·.lowerInstruction p host tailCalls ·) L = .ok L') {l : Int}
    {target : Nat} (hplaced : L'.placed? l = some target) :
    L.placed? l = some target ∨
      ∃ before s after L₁, instructions = before ++ ⟨.label l, s⟩ :: after ∧
        (before ++ [⟨.label l, s⟩]).foldlM (·.lowerInstruction p host tailCalls ·) L = .ok L₁ ∧
        L₁.emitted.size = target := by
  induction instructions generalizing L with
  | nil =>
    cases h
    exact .inl hplaced
  | cons i rest ih =>
    simp only [List.foldlM_cons, bind, Except.bind] at h
    split at h
    · cases h
    · rename_i L₁ hL₁
      rcases ih h with hfirst | ⟨before, s, after, L₂, rfl, hL₂, hsize⟩
      · rw [placed?_lowerInstruction hL₁] at hfirst
        split at hfirst
        · rename_i hop
          obtain ⟨op, s⟩ := i
          obtain rfl : op = .label l := hop
          refine .inr ⟨[], s, rest, L₁, rfl, ?_, Option.some.inj hfirst⟩
          simp [hL₁]
        · exact .inl hfirst
      · refine .inr ⟨i :: before, s, after, L₂, rfl, ?_, hsize⟩
        simp only [List.cons_append, List.foldlM_cons, bind, Except.bind, hL₁]
        exact hL₂

/-! ## Resolved stages -/

theorem length_resolve {emitted : List Emitted} {place : Nat} {stages : List Stage}
    (h : (emitted.zipIdx place).mapM (fun (e, place) => L.resolve place e) = .ok stages) :
    stages.length = emitted.length := by
  induction emitted generalizing place stages with
  | nil =>
    cases h
    rfl
  | cons e emitted ih =>
    rw [List.zipIdx_cons, List.mapM_cons] at h
    simp only [bind, Except.bind, pure, Except.pure] at h
    split at h
    · cases h
    · split at h
      · cases h
      · rename_i others hothers
        cases h
        rw [List.length_cons, List.length_cons, ih hothers]

/-- Resolving what was emitted is done part by part. -/
theorem resolve_append {emitted rest : List Emitted} {place : Nat} {stages : List Stage}
    (h : ((emitted ++ rest).zipIdx place).mapM (fun (e, place) => L.resolve place e) = .ok stages) :
    ∃ first last, stages = first ++ last ∧ first.length = emitted.length ∧
      (emitted.zipIdx place).mapM (fun (e, place) => L.resolve place e) = .ok first ∧
      (rest.zipIdx (place + emitted.length)).mapM (fun (e, place) => L.resolve place e) =
        .ok last := by
  rw [List.zipIdx_append, List.mapM_append] at h
  simp only [bind, Except.bind, pure, Except.pure] at h
  split at h
  · cases h
  · rename_i first hfirst
    split at h
    · cases h
    · rename_i last hlast
      cases h
      exact ⟨first, last, rfl, length_resolve hfirst, hfirst, hlast⟩

end Lowering

/-! ## Running a lowered pipeline -/

/-- The stages of a piece that starts at a given place, with branches led to where their labels were
placed. -/
inductive Piece.LaidAt (L : Lowering) (place : Nat) : Piece → List Stage → Prop
  | row (stages : List Stage) : LaidAt L place (.row stages) stages
  | label (l : Int) : LaidAt L place (.label l) []
  | branch (condition : StageCondition) {l : Int} {target : Nat}
    (placed : L.placed? l = some target) :
    LaidAt L place (.branch condition l) [.branch condition (target - place)]

theorem Piece.laidAt_of_resolve {L : Lowering} {piece : Piece} {place : Nat} {stages : List Stage}
    (h : (piece.emitted.zipIdx place).mapM (fun (e, place) => L.resolve place e) = .ok stages) :
    piece.LaidAt L place stages := by
  cases piece with
  | row row =>
    rw [Piece.emitted, Pipeline.mapM_resolve] at h
    cases h
    exact .row _
  | label l =>
    cases h
    exact .label l
  | branch condition l =>
    simp only [Piece.emitted, List.zipIdx_cons, List.zipIdx_nil, List.mapM_cons, List.mapM_nil,
      Lowering.resolve, bind, Except.bind, pure, Except.pure] at h
    cases hplaced : L.placed? l with
    | none =>
      rw [hplaced] at h
      cases h
    | some target =>
      rw [hplaced] at h
      cases h
      exact .branch condition hplaced

/-- The stages of an instruction's piece are contained. -/
theorem Piece.contained_ofInstruction {base : Nat → Nat} {host : Option Host} {depth : Int → Int}
    {i : Instruction} {row : List Stage} (contained : Host.Contained host)
    (h : Piece.ofInstruction base host depth i = .row row) : Contained row := by
  obtain ⟨op, s⟩ := i
  cases op with
  | label l => cases h
  | branch condition l => cases h
  | invoke call =>
    cases h
    cases hstages : Host.stages? host call with
    | none => exact contained_of_straight (by simp [Stage.isBranch])
    | some stages =>
      intro j condition offset hj
      rw [Option.getD_some] at hj ⊢
      rcases Nat.lt_or_ge j stages.length with hlt | hge
      · rw [List.getElem?_append_left hlt] at hj
        have := contained call stages hstages j condition offset hj
        rw [List.length_append]
        omega
      · rw [List.getElem?_append_right hge] at hj
        simp [List.getElem?_singleton] at hj
  | pushSlots space range =>
    cases h
    cases space <;> exact contained_of_straight (by simp [Op.stage?, Stage.isBranch])
  | _ =>
    cases h
    exact contained_of_straight (by simp [Op.stage?, Stage.isBranch])

namespace Pipeline

variable {p : Pipeline} {host : Option Host} {tailCalls : Bool} {lowered : Lowered}

theorem stackDepth_concat (before : List Instruction) (i : Instruction) :
    stackDepth (before ++ [i]) = stackDepth before + stackDepth [i] := by
  funext s
  rw [stackDepth_append, Pi.add_apply]

/-- The lowering after one more instruction. -/
theorem foldlM_concat {before : List Instruction} {L : Lowering}
    (h : before.foldlM (·.lowerInstruction p host tailCalls ·) (Lowering.start p) = .ok L)
    (i : Instruction) :
    (before ++ [i]).foldlM (·.lowerInstruction p host tailCalls ·) (Lowering.start p) =
      L.lowerInstruction p host tailCalls i := by
  rw [List.foldlM_append, h]
  simp only [bind, Except.bind, List.foldlM_cons, List.foldlM_nil]
  cases L.lowerInstruction p host tailCalls i <;> rfl

theorem exists_of_foldlM_concat {before : List Instruction} {i : Instruction} {L : Lowering}
    (h : (before ++ [i]).foldlM (·.lowerInstruction p host tailCalls ·) (Lowering.start p) =
      .ok L) :
    ∃ L₁, before.foldlM (·.lowerInstruction p host tailCalls ·) (Lowering.start p) = .ok L₁ ∧
      L₁.lowerInstruction p host tailCalls i = .ok L := by
  cases hL₁ : before.foldlM (·.lowerInstruction p host tailCalls ·) (Lowering.start p) with
  | error e =>
    rw [List.foldlM_append, hL₁] at h
    cases h
  | ok L₁ => exact ⟨L₁, rfl, (foldlM_concat hL₁ i).symm.trans h⟩

/-- The lowering has counted the depths of the stacks wherever it has come. -/
theorem counts_foldlM (fits : p.Fits) {before after : List Instruction}
    (hp : p.instructions = before ++ after) {L : Lowering}
    (h : before.foldlM (·.lowerInstruction p host tailCalls ·) (Lowering.start p) = .ok L) :
    L.Counts p before := by
  induction before using List.reverseRecOn generalizing after L with
  | nil =>
    cases h
    exact Lowering.counts_start p
  | append_singleton before i ih =>
    obtain ⟨L₁, hL₁, hi⟩ := exists_of_foldlM_concat h
    rw [List.append_assoc] at hp
    have counts := ih hp hL₁
    obtain ⟨-, -, -, hdepths⟩ := Lowering.lowerInstruction_piece counts hi
    have moved := counts.moveTop fits (show p.instructions = before ++ i :: after from hp)
    exact ⟨by rw [hdepths]; exact moved.length, by rw [hdepths]; exact moved.depth⟩

/-- What has been emitted stays. -/
theorem emitted_foldlM (fits : p.Fits) {before rest : List Instruction} {L₁ L : Lowering}
    (hp : p.instructions = before ++ rest)
    (hL₁ : before.foldlM (·.lowerInstruction p host tailCalls ·) (Lowering.start p) = .ok L₁)
    (h : rest.foldlM (·.lowerInstruction p host tailCalls ·) L₁ = .ok L) :
    ∃ more, L.emitted.toList = L₁.emitted.toList ++ more := by
  induction rest generalizing before L₁ with
  | nil =>
    cases h
    exact ⟨[], by simp⟩
  | cons i rest ih =>
    simp only [List.foldlM_cons, bind, Except.bind] at h
    split at h
    · cases h
    · rename_i L₂ hL₂
      obtain ⟨rewinds, -, hemitted, -⟩ :=
        Lowering.lowerInstruction_piece (counts_foldlM fits hp hL₁) hL₂
      have hp' : p.instructions = (before ++ [i]) ++ rest := by simp [hp]
      obtain ⟨more, hmore⟩ := ih hp' ((foldlM_concat hL₁ i).trans hL₂) h
      exact ⟨_, by rw [hmore, hemitted, List.append_assoc, List.append_assoc]⟩

/-- The stages of the instructions come one after the other, each of them with its piece, perhaps
after rewinds. -/
theorem laidAt_of_lower (fits : p.Fits) {L L₁ : Lowering}
    (hL : p.instructions.foldlM (·.lowerInstruction p host tailCalls ·) (Lowering.start p) = .ok L)
    (hstages : L.emitted.toList.zipIdx.mapM (fun (e, place) => L.resolve place e) =
      .ok lowered.stages.toList)
    {before after : List Instruction} {i : Instruction}
    (hp : p.instructions = before ++ i :: after)
    (hL₁ : before.foldlM (·.lowerInstruction p host tailCalls ·) (Lowering.start p) = .ok L₁) :
    ∃ L₂ front rewinds row back,
      (before ++ [i]).foldlM (·.lowerInstruction p host tailCalls ·) (Lowering.start p) = .ok L₂ ∧
      lowered.stages.toList = front ++ rewinds ++ row ++ back ∧
      front.length = L₁.emitted.size ∧ (front ++ rewinds ++ row).length = L₂.emitted.size ∧
      (∀ stage ∈ rewinds, stage = .stackRewind) ∧
      (Piece.ofInstruction p.stackBase host (stackDepth before) i).LaidAt L
        (front ++ rewinds).length row := by
  have hp' : p.instructions = before ++ [i] ++ after := by simp [hp]
  obtain ⟨L₂, hL₂, hrest⟩ := foldlM_take hp' hL
  have hi : L₁.lowerInstruction p host tailCalls i = .ok L₂ := (foldlM_concat hL₁ i).symm.trans hL₂
  obtain ⟨rewinds, hrewinds, hemitted, -⟩ :=
    Lowering.lowerInstruction_piece (counts_foldlM fits hp hL₁) hi
  obtain ⟨more, hmore⟩ := emitted_foldlM fits hp' hL₂ hrest
  rw [hmore] at hstages
  obtain ⟨first, back, hfirst, hlength, hresolved, -⟩ := Lowering.resolve_append hstages
  rw [hemitted] at hresolved
  obtain ⟨first, row, rfl, hlength₁, hresolved₁, hrow⟩ := Lowering.resolve_append hresolved
  obtain ⟨front, rewinds', rfl, hlength₂, -, hresolved₂⟩ := Lowering.resolve_append hresolved₁
  rw [mapM_resolve] at hresolved₂
  cases hresolved₂
  rw [Nat.zero_add, ← hlength₁] at hrow
  exact ⟨L₂, front, rewinds, row, back, hL₂, hfirst, by simpa using hlength₂,
    by simpa using hlength, hrewinds, Piece.laidAt_of_resolve hrow⟩

/-- A branch is led to the stages of what follows its label. -/
theorem exists_target (fits : p.Fits) {L : Lowering}
    (hL : p.instructions.foldlM (·.lowerInstruction p host tailCalls ·) (Lowering.start p) = .ok L)
    {l : Int} {target : Nat} (placed : L.placed? l = some target) :
    ∃ before s after L₁, p.instructions = before ++ ⟨.label l, s⟩ :: after ∧
      (before ++ [⟨.label l, s⟩]).foldlM (·.lowerInstruction p host tailCalls ·)
        (Lowering.start p) = .ok L₁ ∧
      L₁.emitted.size = target ∧ target ≤ L.emitted.size := by
  obtain hstart | ⟨before, s, after, L₁, hlabel, hL₁, hsize⟩ := Lowering.exists_of_placed hL placed
  · rw [Lowering.placed?_start] at hstart
    cases hstart
  · refine ⟨before, s, after, L₁, hlabel, hL₁, hsize, ?_⟩
    have hp : p.instructions = (before ++ [⟨.label l, s⟩]) ++ after := by simp [hlabel]
    obtain ⟨L₂, hL₂, hrest⟩ := foldlM_take hp hL
    cases hL₁.symm.trans hL₂
    obtain ⟨more, hmore⟩ := emitted_foldlM fits hp hL₁ hrest
    rw [← hsize, ← Array.length_toList, ← Array.length_toList, hmore, List.length_append]
    omega

/-- Rewinds are passed without effect. -/
theorem runFrom_rewinds {batch : Batch lanes} {m : Machine lanes} {stages : Array Stage}
    {front rewinds back : List Stage} (h : stages.toList = front ++ rewinds ++ back)
    (hrewinds : ∀ stage ∈ rewinds, stage = .stackRewind) {fuel : Nat}
    (ended : Machine.Ended (Machine.runFrom stages batch fuel front.length m)) :
    ∃ fuel' ≤ fuel, Machine.runFrom stages batch fuel front.length m =
      Machine.runFrom stages batch fuel' (front ++ rewinds).length m := by
  induction rewinds generalizing front fuel with
  | nil => exact ⟨fuel, le_rfl, by simp⟩
  | cons stage rewinds ih =>
    obtain rfl := hrewinds stage (List.mem_cons_self ..)
    have hstage : stages[front.length]? = some .stackRewind := by
      rw [← Array.getElem?_toList, h]
      simp
    cases fuel with
    | zero =>
      rw [Machine.runFrom_zero hstage] at ended
      exact absurd rfl (ended Machine.maxSteps)
    | succ fuel =>
      have hnext : Machine.runFrom stages batch (fuel + 1) front.length m =
          Machine.runFrom stages batch fuel (front ++ [Stage.stackRewind]).length m := by
        rw [Machine.runFrom_stage batch hstage rfl, List.length_append]
        rfl
      rw [hnext] at ended ⊢
      obtain ⟨fuel', hle, heq⟩ := ih (by simpa using h)
        (fun stage hmem => hrewinds stage (List.mem_cons_of_mem _ hmem)) ended
      exact ⟨fuel', by omega, by simpa using heq⟩

/-- A run of a lowered pipeline that has ended and stands before some instructions is a run of their
pieces. -/
theorem runs_ofInstructions (fits : p.Fits) (contained : Host.Contained host) {L : Lowering}
    (hL : p.instructions.foldlM (·.lowerInstruction p host tailCalls ·) (Lowering.start p) = .ok L)
    (hstages : L.emitted.toList.zipIdx.mapM (fun (e, place) => L.resolve place e) =
      .ok lowered.stages.toList)
    {batch : Batch lanes} {m : Machine lanes} {fuel : Nat} {before rest : List Instruction}
    (hp : p.instructions = before ++ rest) {L₁ : Lowering}
    (hL₁ : before.foldlM (·.lowerInstruction p host tailCalls ·) (Lowering.start p) = .ok L₁)
    (ended : Machine.Ended (Machine.runFrom lowered.stages batch fuel L₁.emitted.size m)) :
    Flow.Runs batch (p.flow host) (.ofInstructions p.stackBase host (stackDepth before) rest) m
      (Machine.runFrom lowered.stages batch fuel L₁.emitted.size m) := by
  have hsize : lowered.stages.size = L.emitted.size := by
    simpa using Lowering.length_resolve hstages
  -- a branch that is taken uses up a step, any other instruction leaves fewer before the machine
  induction fuel using Nat.strong_induction_on generalizing before rest L₁ m with
  | _ fuel jumps =>
  induction rest generalizing before L₁ m with
  | nil =>
    rw [hp, List.append_nil, hL₁] at hL
    cases hL
    rw [Machine.runFrom_end (by simp [← hsize])]
    exact .done
  | cons i rest ih =>
    obtain ⟨L₂, front, rewinds, row, back, hL₂, hsplit, hfront, hend, hrewinds, laid⟩ :=
      laidAt_of_lower fits hL hstages hp hL₁
    have hp' : p.instructions = (before ++ [i]) ++ rest := by simp [hp]
    rw [← hfront] at ended ⊢
    have hstages' : lowered.stages.toList = front ++ rewinds ++ (row ++ back) := by simp [hsplit]
    obtain ⟨fuel₁, hle₁, heq₁⟩ := runFrom_rewinds hstages' hrewinds ended
    rw [heq₁] at ended ⊢
    -- what follows the piece is run with no more steps
    have next : ∀ {fuel'} {m' : Machine lanes}, fuel' ≤ fuel →
        Machine.Ended (Machine.runFrom lowered.stages batch fuel' L₂.emitted.size m') →
        Flow.Runs batch (p.flow host)
          (.ofInstructions p.stackBase host (stackDepth before + stackDepth [i]) rest) m'
          (Machine.runFrom lowered.stages batch fuel' L₂.emitted.size m') := by
      intro fuel' m' hle ended'
      rw [← stackDepth_concat]
      rcases Nat.lt_or_eq_of_le hle with hlt | rfl
      · exact jumps fuel' hlt hp' hL₂ ended'
      · exact ih hp' hL₂ ended'
    rw [Flow.ofInstructions]
    generalize hpiece : Piece.ofInstruction p.stackBase host (stackDepth before) i = piece at laid ⊢
    cases laid with
    | row =>
      have hrow := Piece.contained_ofInstruction contained hpiece
      rcases Machine.runFrom_row_within (i := 0) hsplit hrow (Nat.zero_le _) ended with
        ⟨m', fuel₂, fuel₃, hle₂, halone, hgo⟩ | ⟨m', e, fuel₃, halone, hgo⟩
      · rw [Nat.add_zero, hend] at hgo
        rw [hgo] at ended ⊢
        refine .row ⟨?_, fuel₃, halone⟩ (next (hle₂.trans hle₁) ended)
        simp [Machine.Ended]
      · rw [Nat.add_zero] at hgo
        rw [hgo] at ended ⊢
        exact .fault ⟨ended, fuel₃, halone⟩
    | label l =>
      rw [List.append_nil] at hend
      rw [hend] at ended ⊢
      exact .label (next hle₁ ended)
    | @branch condition l target placed =>
      obtain ⟨before', s, after', L₃, hlabel, hL₃, rfl, hinside⟩ := exists_target fits hL placed
      have hstage : lowered.stages[(front ++ rewinds).length]? =
          some (.branch condition (L₃.emitted.size - (front ++ rewinds).length)) := by
        rw [← Array.getElem?_toList, hsplit, List.append_assoc (front ++ rewinds)]
        simp
      obtain ⟨fuel₂, hlt₂, heq₂⟩ := Machine.runFrom_branch hstage (hsize ▸ hinside) ended
      rw [heq₂] at ended ⊢
      cases htakes : m.takes batch condition with
      | false =>
        rw [List.length_append, List.length_singleton] at hend
        simp only [htakes, Bool.false_eq_true, if_false, hend] at ended ⊢
        exact .skip htakes (next (by omega) ended)
      | true =>
        simp only [htakes, if_true] at ended ⊢
        have hp₃ : p.instructions = (before' ++ [⟨.label l, s⟩]) ++ after' := by simp [hlabel]
        have hflow : p.flow host =
            Flow.ofInstructions p.stackBase host 0 before' ++ .label l ::
              Flow.ofInstructions p.stackBase host (stackDepth (before' ++ [⟨.label l, s⟩]))
                after' := by
          rw [flow, hlabel, Flow.ofInstructions_append, Flow.ofInstructions, stackDepth_concat,
            zero_add]
          rfl
        exact .take htakes hflow (jumps fuel₂ (by omega) hp₃ hL₃ ended)

/-- A run of a lowered pipeline that has ended is a run of its flow. -/
theorem runs_flow (fits : p.Fits) (contained : Host.Contained host)
    (h : p.lower host tailCalls = .ok lowered) {batch : Batch lanes} {m : Machine lanes}
    {fuel : Nat} (ended : Machine.Ended (Machine.runFrom lowered.stages batch fuel 0 m)) :
    Flow.Runs batch (p.flow host) (p.flow host) m
      (Machine.runFrom lowered.stages batch fuel 0 m) := by
  obtain ⟨L, hL, hstages⟩ := lower_eq_ok h
  exact runs_ofInstructions fits contained hL hstages
    (show p.instructions = [] ++ p.instructions from rfl) rfl ended

end Pipeline

end RasterShader
