import Mathlib
import RasterShader.Proofs.Code.Reach
import RasterShader.Proofs.Flow.Instructions

/-!
# Dropped branches change nothing

A `FlowCall` is any call of a builder.  `FlowCall.apply` makes the call; `FlowCall.append` makes it
too, but adds labels and branches as they are.  Whatever calls are made, and wherever they branch
to, the instructions that result run alike (`FlowCall.dropped_branches_keep_runs`), if every label
that is branched to is placed by one call.

Calls look at the latest instructions only, and these may differ between the two builders.  What
carries the induction is that they differ before the latest label or branch only
(`FlowCall.Follows`): calls on data do not look beyond that, and a call that drops branches leaves
a label or branch in the end.
-/

namespace RasterShader

variable {lanes : Nat}

/-! ## Calls -/

/-- Calls of a builder. -/
inductive FlowCall where
  | data (call : Call)
  | nextLabel
  | label (label : Int)
  | jump (label : Int)
  | branch (condition : BranchCondition) (label : Int)

namespace FlowCall

/-- Makes a call. -/
def apply (b : Builder) : FlowCall → Builder
  | data call => call.apply b
  | nextLabel => b.nextLabel.2
  | label l => b.label l
  | jump l => b.jump l
  | branch condition l => b.branch condition l

/-- Makes a call, but adds labels and branches as they are. -/
def append (b : Builder) : FlowCall → Builder
  | data call => call.apply b
  | nextLabel => b.nextLabel.2
  | label l => b.emit (.label l)
  | jump l => b.emit (.branch .always l)
  | branch condition l => b.emit (.branch condition l)

/-- The instructions after calls. -/
def build (calls : List FlowCall) : Builder := calls.foldl apply .empty

/-- The instructions after calls, with all their labels and branches. -/
def spell (calls : List FlowCall) : Builder := calls.foldl append .empty

/-- The label or branch that a call adds. -/
def control? : FlowCall → Option Op
  | data call => call.control?
  | nextLabel => none
  | label l => some (.label l)
  | jump l => some (.branch .always l)
  | branch condition l => some (.branch condition l)

/-- Every label that a call branches to is placed by one call. -/
def Labelled (calls : List FlowCall) : Prop :=
  ∀ call ∈ calls, ∀ l, call.control?.bind Op.branchTarget? = some l →
    calls.countP (·.control? == some (.label l)) = 1

/-! ## Labels and branches of calls -/

theorem controls_append (call : FlowCall) (b : Builder) :
    (call.append b).code.controls = call.control?.toList ++ b.code.controls := by
  cases call with
  | data call => exact call.controls_apply b
  | nextLabel => rfl
  | label | jump | branch => rfl

theorem controls_foldl (calls : List FlowCall) (b : Builder) :
    (calls.foldl append b).code.controls =
      (calls.filterMap control?).reverse ++ b.code.controls := by
  induction calls generalizing b with
  | nil => rfl
  | cons call calls ih =>
    rw [List.foldl_cons, ih, controls_append, List.filterMap_cons]
    cases call.control? with
    | none => rfl
    | some op => simp

/-- Labels that are placed by one call are placed once. -/
theorem Labelled.spell {calls : List FlowCall} (h : Labelled calls) :
    (spell calls).code.Labelled := by
  have hcontrols : (FlowCall.spell calls).code.controls = (calls.filterMap control?).reverse := by
    rw [FlowCall.spell, controls_foldl]
    simp [Builder.empty, Code.controls]
  intro i hi l hl
  have hcontrol : i.op.isControl = true := by
    obtain ⟨op, s⟩ := i
    cases op with
    | branch => rfl
    | _ => cases hl
  have hmem : i.op ∈ (FlowCall.spell calls).code.controls :=
    List.mem_filter.2 ⟨List.mem_map_of_mem hi, hcontrol⟩
  rw [hcontrols, List.mem_reverse, List.mem_filterMap] at hmem
  obtain ⟨call, hcall, hop⟩ := hmem
  have once := h call hcall l (by rw [hop]; exact hl)
  have hcount : ((FlowCall.spell calls).code.map (·.op)).count (.label l) =
      (FlowCall.spell calls).code.controls.count (.label l) := by
    rw [Code.controls, List.count_filter rfl]
  rw [hcount, hcontrols, List.count_reverse, List.count_filterMap, once]

end FlowCall

/-! ## Dropping branches -/

namespace Code

/-- Branches right before their label are pruned. -/
theorem prunes_withoutBranchesTo (label stack : Int) (code : Code) :
    Relation.ReflTransGen Prunes (⟨.label label, stack⟩ :: code)
      (⟨.label label, stack⟩ :: code.withoutBranchesTo label) := by
  induction code with
  | nil => exact .refl
  | cons i rest ih =>
    rw [withoutBranchesTo, List.dropWhile_cons]
    split
    · rename_i htarget
      obtain ⟨op, s⟩ := i
      cases op with
      | branch condition l =>
        obtain rfl : l = label := by simpa [Op.branchTarget?] using htarget
        exact .head (.beforeLabel [] l stack condition s rest) ih
      | _ => simp [Op.branchTarget?] at htarget
    · exact .refl

/-- Conditional branches right before a jump to the same label are pruned. -/
theorem prunes_withoutConditionalsTo (label stack : Int) (code : Code) :
    Relation.ReflTransGen Prunes (⟨.branch .always label, stack⟩ :: code)
      (⟨.branch .always label, stack⟩ :: code.withoutConditionalsTo label) := by
  induction code with
  | nil => exact .refl
  | cons i rest ih =>
    rw [withoutConditionalsTo, List.dropWhile_cons]
    split
    · rename_i htarget
      rw [Bool.and_eq_true] at htarget
      obtain ⟨op, s⟩ := i
      cases op with
      | branch condition l =>
        obtain rfl : l = label := by simpa [Op.branchTarget?] using htarget.2
        exact .head (.beforeJump [] l stack condition s rest) ih
      | _ => simp [Op.branchTarget?] at htarget
    · exact .refl

/-- Code that ends in a jump. -/
theorem endsInJump_cases {code : Code} (h : code.endsInJump = true) :
    ∃ label stack rest, code = ⟨.branch .always label, stack⟩ :: rest := by
  rcases code with _ | ⟨⟨op, s⟩, rest⟩
  · cases h
  · cases op with
    | branch condition l =>
      cases condition with
      | always => exact ⟨l, s, rest, rfl⟩
      | _ => cases h
    | _ => cases h

end Code

namespace FlowCall

/-- One builder is in the same state as another, and has the same code after the latest label or
branch; before that, branches of the other may be missing. -/
def Follows (b c : Builder) : Prop :=
  ∃ (latest : Builder) (rest rest' : Code), b = latest.onto rest ∧ c = latest.onto rest' ∧
    rest.Stops ∧ rest'.Stops ∧ Relation.ReflTransGen Code.Prunes rest' rest

namespace Follows

variable {b c : Builder}

theorem refl_empty : Follows .empty .empty :=
  ⟨.empty, [], [], rfl, rfl, Code.stops_nil, Code.stops_nil, .refl⟩

theorem prunes (h : Follows b c) : Relation.ReflTransGen Code.Prunes c.code b.code := by
  obtain ⟨latest, rest, rest', rfl, rfl, -, -, prunes⟩ := h
  exact prunes.lift (latest.code ++ ·) fun _ _ step => step.append_left latest.code

theorem stack (h : Follows b c) : b.stack = c.stack := by
  obtain ⟨latest, rest, rest', rfl, rfl, -⟩ := h
  rfl

theorem labelCount (h : Follows b c) : b.labelCount = c.labelCount := by
  obtain ⟨latest, rest, rest', rfl, rfl, -⟩ := h
  rfl

/-- New code that ends with a label or branch in both builders. -/
theorem of_prunes (h : Follows b c) {code code' : Code} (stops : code.Stops) (stops' : code'.Stops)
    (prunes : Relation.ReflTransGen Code.Prunes code' code) :
    Follows { b with code } { c with code := code' } := by
  obtain ⟨latest, rest, rest', rfl, rfl, -, -, -⟩ := h
  exact ⟨{ latest with code := [] }, code, code', rfl, rfl, stops, stops', prunes⟩

/-- Both builders have more code after. -/
theorem prunes_cons (h : Follows b c) (i : Instruction) :
    Relation.ReflTransGen Code.Prunes (i :: c.code) (i :: b.code) :=
  h.prunes.lift ([i] ++ ·) fun _ _ step => step.append_left [i]

/-- A label or branch that is added in both builders, and before which branches are dropped in the
first. -/
theorem emit (h : Follows b c) {op : Op} (hop : op.isControl = true) {code : Code}
    (prunes : Relation.ReflTransGen Code.Prunes (⟨op, b.stack⟩ :: b.code) (⟨op, b.stack⟩ :: code)) :
    Follows { b with code := ⟨op, b.stack⟩ :: code } (c.emit op) := by
  have prunes' : Relation.ReflTransGen Code.Prunes (⟨op, c.stack⟩ :: c.code)
      (⟨op, b.stack⟩ :: code) := by
    rw [← h.stack]
    exact (h.prunes_cons _).trans prunes
  exact h.of_prunes (Code.stops_cons hop _) (Code.stops_cons hop _) prunes'

/-- A branch that is dropped after a jump. -/
theorem dropped (h : Follows b c) (hjump : b.code.endsInJump = true) (condition : BranchCondition)
    (label : Int) : Follows b (c.emit (.branch condition label)) := by
  obtain ⟨target, stack, rest, hcode⟩ := Code.endsInJump_cases hjump
  have step : Code.Prunes (⟨.branch condition label, c.stack⟩ :: b.code) b.code := by
    rw [hcode]
    exact .afterJump [] condition label c.stack target stack rest
  have stops : b.code.Stops := hcode ▸ Code.stops_cons rfl rest
  exact h.of_prunes stops (Code.stops_cons rfl _) ((h.prunes_cons _).tail step)

/-- A call that is made on both builders, but with all branches on the second. -/
theorem step (h : Follows b c) (call : FlowCall) : Follows (call.apply b) (call.append c) := by
  cases call with
  | data call =>
    obtain ⟨latest, rest, rest', rfl, rfl, stops, stops', prunes⟩ := h
    exact ⟨call.apply latest, rest, rest', call.apply_onto latest stops,
      call.apply_onto latest stops', stops, stops', prunes⟩
  | nextLabel =>
    obtain ⟨latest, rest, rest', rfl, rfl, stops, stops', prunes⟩ := h
    exact ⟨latest.nextLabel.2, rest, rest', rfl, rfl, stops, stops', prunes⟩
  | label l => exact h.emit rfl (Code.prunes_withoutBranchesTo l b.stack b.code)
  | jump l =>
    by_cases hjump : b.code.endsInJump = true
    · rw [apply, Builder.jump, if_pos hjump]
      exact h.dropped hjump .always l
    · rw [apply, Builder.jump, if_neg hjump]
      exact h.emit rfl (Code.prunes_withoutConditionalsTo l b.stack b.code)
  | branch condition l =>
    by_cases hjump : b.code.endsInJump = true
    · rw [apply, Builder.branch, if_pos hjump]
      exact h.dropped hjump condition l
    · rw [apply, Builder.branch, if_neg hjump]
      exact h.emit rfl .refl

end Follows

theorem follows_foldl (calls : List FlowCall) {b c : Builder} (h : Follows b c) :
    Follows (calls.foldl apply b) (calls.foldl append c) := by
  induction calls generalizing b c with
  | nil => exact h
  | cons call calls ih => exact ih (h.step call)

/-! ## Running -/

/-- Dropping branches changes nothing.  If the instructions after calls can be finished and lowered
with all their labels and branches, so can those that the builder holds, with as many slots and the
same immutable words; and from whatever machine the two are run, with whatever numbers of stages
that are enough for each, they end with the same machine and the same error or none. -/
theorem dropped_branches_keep_runs {calls : List FlowCall} (labelled : Labelled calls)
    {valueSlots uniformSlots immutableSlots : Nat} {debugTrace : Option DebugTrace} {q : Pipeline}
    (hq : Pipeline.ofBuilder (spell calls) valueSlots uniformSlots immutableSlots debugTrace =
      .ok q) :
    ∃ p, Pipeline.ofBuilder (build calls) valueSlots uniformSlots immutableSlots debugTrace =
        .ok p ∧ p.stackSlots = q.stackSlots ∧
      ∀ host tailCalls spelled, q.lower host tailCalls = .ok spelled →
        ∃ built, p.lower host tailCalls = .ok built ∧ built.immutable = spelled.immutable ∧
          (Host.Contained host →
            ∀ {lanes : Nat} (batch : Batch lanes) (m : Machine lanes) (fuel fuel' : Nat),
              Machine.Ended (Machine.runFrom built.stages batch fuel 0 m) →
              Machine.Ended (Machine.runFrom spelled.stages batch fuel' 0 m) →
              Machine.runFrom built.stages batch fuel 0 m =
                Machine.runFrom spelled.stages batch fuel' 0 m) := by
  have follows : Follows (build calls) (spell calls) := follows_foldl calls Follows.refl_empty
  rw [Pipeline.ofBuilder, ← follows.labelCount] at hq
  obtain ⟨p, hp, hbase, hslots⟩ := Pipeline.ofInstructions_of_prunes follows.prunes hq
  refine ⟨p, hp, hslots, ?_⟩
  intro host tailCalls spelled hspelled
  obtain ⟨fitsp, hip, -⟩ := Pipeline.fits_of_ofInstructions hp
  obtain ⟨fitsq, hiq, -⟩ := Pipeline.fits_of_ofInstructions hq
  obtain ⟨depths, -, -, hpeq⟩ := Pipeline.ofInstructions_eq_ok_iff.1 hp
  obtain ⟨depths', -, -, hqeq⟩ := Pipeline.ofInstructions_eq_ok_iff.1 hq
  obtain ⟨built, hbuilt, himmutable⟩ := Pipeline.lower_of_prunes follows.prunes labelled.spell fitsp
    hip hiq (by rw [hpeq, hqeq]) (by rw [hpeq, hqeq]) hspelled
  refine ⟨built, hbuilt, himmutable, ?_⟩
  intro contained lanes batch m fuel fuel' ended ended'
  exact Pipeline.runFrom_of_prunes follows.prunes labelled.spell fitsp fitsq hip hiq hbase contained
    hbuilt hspelled ended ended'

/-- A loop that all lanes leave in the first round.  After it come a branch and two jumps, none of
which is kept. -/
def leftLoop : List FlowCall :=
  [.nextLabel, .nextLabel, .data (.emit .initLaneMasks), .label 0, .data (.emit .maskOffLoop),
    .branch .anyLanesActive 0, .branch .noLanesActive 1, .jump 1, .jump 0, .label 1]

/-- One pixel in four lanes. -/
def onePixel : Batch 4 × Machine 4 :=
  (Machine.batchOf ⟨#[], #[], #[]⟩ #[.zero], Machine.ofPixels #[] #[.zero])

theorem dropped_branches_keep_runs_leftLoop :
    Labelled leftLoop ∧
      (build leftLoop).instructions.map (·.op) =
        [.initLaneMasks, .label 0, .maskOffLoop, .branch .anyLanesActive 0, .label 1] ∧
      (spell leftLoop).instructions.map (·.op) =
        [.initLaneMasks, .label 0, .maskOffLoop, .branch .anyLanesActive 0,
          .branch .noLanesActive 1, .branch .always 1, .branch .always 0, .label 1] ∧
      ∃ p q built spelled, Pipeline.ofBuilder (build leftLoop) 0 0 0 none = .ok p ∧
        Pipeline.ofBuilder (spell leftLoop) 0 0 0 none = .ok q ∧
        p.lower none false = .ok built ∧ q.lower none false = .ok spelled ∧
        (Machine.runFrom spelled.stages onePixel.1 6 0 onePixel.2).2 = none ∧
        Machine.runFrom built.stages onePixel.1 4 0 onePixel.2 =
          Machine.runFrom spelled.stages onePixel.1 6 0 onePixel.2 := by
  have labelled : Labelled leftLoop := by
    simp [Labelled, leftLoop, control?, Call.control?, Op.isControl, Op.branchTarget?]
  have contained : Host.Contained none := by
    intro call stages h
    cases call <;> cases h
  obtain ⟨q, hq⟩ : ∃ q, Pipeline.ofBuilder (spell leftLoop) 0 0 0 none = .ok q := ⟨_, rfl⟩
  obtain ⟨spelled, hspelled, ended⟩ : ∃ spelled, q.lower none false = .ok spelled ∧
      (Machine.runFrom spelled.stages onePixel.1 6 0 onePixel.2).2 = none := by
    cases hq
    exact ⟨_, rfl, by decide +kernel⟩
  obtain ⟨p, hp, -, run⟩ := dropped_branches_keep_runs labelled hq
  obtain ⟨built, hbuilt, -, same⟩ := run none false spelled hspelled
  have ended' : (Machine.runFrom built.stages onePixel.1 4 0 onePixel.2).2 = none := by
    cases hp
    cases hbuilt
    decide +kernel
  refine ⟨labelled, by decide +kernel, by decide +kernel, p, q, built, spelled, hp, hq, hbuilt,
    hspelled, ended, ?_⟩
  exact same contained onePixel.1 onePixel.2 4 6 (by simp [Machine.Ended, ended'])
    (by simp [Machine.Ended, ended])

end FlowCall

end RasterShader
