import Mathlib
import RasterShader.Proofs.Flow.Targets
import RasterShader.Proofs.Flow.Tracing
import RasterShader.Proofs.Machine.Lanes

/-!
# A lane without the others

A pipeline is run over as many pixels at a time as there are lanes, and the slots are not cleared
between batches.  So a lane goes over one pixel of every batch (`OfLane`), and finds again what it
has left in the slots before.

If no branch is taken against what the lane would do by itself (`Machine.runAccords`), it gives its
pixels the colors that they get when a machine with one lane runs over them and no others
(`Pipeline.evaluate_lane_alone`).  These colors then depend neither on the pixels of the other lanes
nor on how many other lanes there are.

A branch goes against a lane only where another lane would do otherwise (`Machine.takes_of_alike`).
Code without branches never does so, whatever the pixels (`Pipeline.runAccords_of_straight`).
-/

namespace RasterShader

variable {lanes width : Nat} {l : Fin lanes} {k : Fin width}

/-! ## What falls to a lane -/

section

variable {α : Type} {own all first rest : List α}

/-- The first of two lists has the members of the other one that fall to a lane, when these are
taken as many at a time as there are lanes. -/
def OfLane (l : Fin lanes) (own all : List α) : Prop :=
  ∀ i : Nat, own[i]? = all[lanes * i + l]?

/-- A batch and what comes after it: the batch is full, or the last one. -/
def IsBatch (lanes : Nat) (first rest : List α) : Prop :=
  first.length = lanes ∨ first.length ≤ lanes ∧ rest = []

theorem isBatch_take (l : Fin lanes) (x : α) (xs : List α) :
    IsBatch lanes (x :: xs.take (lanes - 1)) (xs.drop (lanes - 1)) := by
  have := l.isLt
  by_cases h : lanes - 1 ≤ xs.length
  · left
    rw [List.length_cons, List.length_take]
    omega
  · refine .inr ⟨?_, List.drop_eq_nil_iff.2 (by omega)⟩
    rw [List.length_cons, List.length_take]
    omega

/-- A lane has one member of a batch at most. -/
theorem IsBatch.getElem?_first (h : IsBatch lanes first rest) (l : Fin lanes) :
    (first ++ rest)[lanes * 0 + l]? = first[(l : Nat)]? := by
  rw [Nat.mul_zero, Nat.zero_add]
  obtain hfull | ⟨-, rfl⟩ := h
  · exact List.getElem?_append_left (by omega)
  · rw [List.append_nil]

/-- The other members are those that it has of what comes after the batch. -/
theorem IsBatch.getElem?_rest (h : IsBatch lanes first rest) (l : Fin lanes) (i : Nat) :
    (first ++ rest)[lanes * (i + 1) + l]? = rest[lanes * i + l]? := by
  have hplace : lanes * (i + 1) + l = lanes + (lanes * i + l) := by
    rw [Nat.mul_succ]
    omega
  rw [hplace]
  obtain hfull | ⟨hle, rfl⟩ := h
  · rw [List.getElem?_append_right (by omega), hfull, Nat.add_sub_cancel_left]
  · rw [List.append_nil, List.getElem?_eq_none (by omega), List.getElem?_nil]

theorem IsBatch.of_length {β : Type} {first' rest' : List β} (h : IsBatch lanes first rest)
    (hfirst : first'.length = first.length) (hrest : rest'.length = rest.length) :
    IsBatch lanes first' rest' := by
  obtain hfull | ⟨hle, rfl⟩ := h
  · exact .inl (hfirst.trans hfull)
  · exact .inr ⟨hfirst.trans_le hle, List.length_eq_zero_iff.1 hrest⟩

theorem OfLane.nil (l : Fin lanes) : OfLane l ([] : List α) [] := fun _ => by
  rw [List.getElem?_nil, List.getElem?_nil]

theorem OfLane.eq_nil (h : OfLane l own []) : own = [] := by
  cases own with
  | nil => rfl
  | cons x own => cases h 0

theorem OfLane.of_length_le (h : first.length ≤ l) : OfLane l [] first := fun i => by
  rw [List.getElem?_nil, List.getElem?_eq_none (Nat.le_add_left_of_le h)]

theorem OfLane.append (hbatch : IsBatch lanes first rest) (h : OfLane l own rest) :
    OfLane l (first[(l : Nat)]?.toList ++ own) (first ++ rest) := by
  intro i
  cases hl : first[(l : Nat)]? with
  | none =>
    have hshort := List.getElem?_eq_none_iff.1 hl
    have hlt := l.isLt
    obtain hfull | ⟨-, rfl⟩ := hbatch
    · omega
    · rw [List.append_nil, List.getElem?_eq_none (Nat.le_add_left_of_le hshort)]
      exact h i
  | some x =>
    cases i with
    | zero =>
      rw [hbatch.getElem?_first l, hl]
      rfl
    | succ i =>
      rw [hbatch.getElem?_rest l i]
      exact h i

/-- What a lane has is its member of the first batch, and then what it has of the others. -/
theorem OfLane.split (hbatch : IsBatch lanes first rest) (h : OfLane l own (first ++ rest)) :
    ∃ own', own = first[(l : Nat)]?.toList ++ own' ∧ OfLane l own' rest := by
  have hfirst : own[0]? = first[(l : Nat)]? := (h 0).trans (hbatch.getElem?_first l)
  have hrest (i : Nat) : own[i + 1]? = rest[lanes * i + l]? :=
    (h (i + 1)).trans (hbatch.getElem?_rest l i)
  cases own with
  | nil =>
    refine ⟨[], ?_, fun i => hrest i⟩
    rw [← hfirst]
    rfl
  | cons x own =>
    refine ⟨own, ?_, fun i => hrest i⟩
    rw [← hfirst]
    rfl

end

/-! ## Batches -/

/-- Memories for the same program, such that a lane finds in the one what a lane finds in the
other. -/
structure SlotData.LanesAgree (l : Fin lanes) (k : Fin width) (data : SlotData lanes)
    (data' : SlotData width) : Prop where
  values : data.values.map (·.get l) = data'.values.map (·.get k)
  immutable : data.immutable = data'.immutable
  uniforms : data.uniforms = data'.uniforms

namespace Machine

variable {data : SlotData lanes} {data' : SlotData width} {stages : Array Stage}

theorem channel_congr {pixels pixels' : Array Pixel}
    (h : pixels[(l : Nat)]? = pixels'[(k : Nat)]?) (f : Pixel → UInt32) :
    (channel lanes pixels f).get l = (channel width pixels' f).get k := by
  simp only [channel, Vector.get_ofFn, Array.getD_eq_getD_getElem?, h]

theorem lanesAgree_ofPixels {pixels pixels' : Array Pixel}
    (hdata : data.LanesAgree l k data') (h : pixels[(l : Nat)]? = pixels'[(k : Nat)]?) :
    (ofPixels data.values pixels).LanesAgree l k (ofPixels data'.values pixels') where
  values := hdata.values
  registers := by simp only [ofPixels, Registers.lane, Rgba.map, channel_congr h]
  condition := by simp only [ofPixels, Vector.get_replicate]
  loop := by simp only [ofPixels, Vector.get_replicate]
  returns := by simp only [ofPixels, Vector.get_replicate]

theorem lanesAgree_batchOf {pixels pixels' : Array Pixel}
    (hdata : data.LanesAgree l k data') (h : pixels[(l : Nat)]? = pixels'[(k : Nat)]?) :
    (batchOf data pixels).LanesAgree l k (batchOf data' pixels') where
  active := by
    have hnone : pixels.size ≤ l ↔ pixels'.size ≤ k := by
      rw [← Array.getElem?_eq_none_iff, h, Array.getElem?_eq_none_iff]
    simpa only [batchOf, Nat.not_le] using not_congr hnone
  immutable := hdata.immutable
  uniforms := hdata.uniforms
  deviceX := channel_congr h _
  deviceY := channel_congr h _

theorem getElem?_colors (m : Machine lanes) {count : Nat} (h : (l : Nat) < count) :
    (m.colors count)[(l : Nat)]? = some (m.registers.lane l).1 := by
  have hget (v : Vector UInt32 lanes) : v.toArray.getD l 0 = v.get l := by
    simp [Vector.get_eq_getElem, Array.getD]
  simp only [colors, List.getElem?_map, List.getElem?_range h, Option.map_some, hget,
    Registers.lane]

/-- A batch succeeds if its stages run to the end. -/
theorem runBatch_eq_ok {pixels : Array Pixel} {after : SlotData lanes} {batch : RunOutput} :
    runBatch stages data pixels = (after, .ok batch) ↔
      ∃ m, runFrom stages (batchOf data pixels) maxSteps 0 (ofPixels data.values pixels) =
          (m, none) ∧
        after = { data with values := m.values } ∧
        batch = ⟨m.colors pixels.size, m.trace.toList⟩ := by
  rw [runBatch_eq rfl]
  generalize runFrom stages (batchOf data pixels) maxSteps 0 (ofPixels data.values pixels) = r
  obtain ⟨m, _ | e⟩ := r
  · constructor
    · intro h
      cases h
      exact ⟨m, rfl, rfl, rfl⟩
    · rintro ⟨m', hm, rfl, rfl⟩
      cases hm
      rfl
  · constructor
    · intro h
      cases h
    · rintro ⟨m', hm, -, -⟩
      cases hm

theorem length_colors_of_runBatch {pixels : Array Pixel} {after : SlotData lanes}
    {batch : RunOutput} (h : runBatch stages data pixels = (after, .ok batch)) :
    batch.colors.length = pixels.size := by
  obtain ⟨m, -, -, rfl⟩ := runBatch_eq_ok.1 h
  simp [colors]

/-- Batches that have the same pixel in two lanes give it the same color and leave the same behind,
if no branch is taken against what the lanes would do. -/
theorem runBatch_agree (hdata : data.LanesAgree l k data') {pixels pixels' : Array Pixel}
    {pixel : Pixel} (hpixel : pixels[(l : Nat)]? = some pixel)
    (hpixel' : pixels'[(k : Nat)]? = some pixel)
    (hosts : ∀ own, Stage.host own ∈ stages → own.Relates l k)
    (accord :
      accords stages (batchOf data pixels) l maxSteps 0 (ofPixels data.values pixels) = true)
    (accord' :
      accords stages (batchOf data' pixels') k maxSteps 0 (ofPixels data'.values pixels') = true)
    {after : SlotData lanes} {batch : RunOutput}
    (h : runBatch stages data pixels = (after, .ok batch)) :
    ∃ after' batch', runBatch stages data' pixels' = (after', .ok batch') ∧
      after.LanesAgree l k after' ∧ batch.colors[(l : Nat)]? = batch'.colors[(k : Nat)]? := by
  have hsame : pixels[(l : Nat)]? = pixels'[(k : Nat)]? := hpixel.trans hpixel'.symm
  obtain ⟨herror, hagree⟩ := (lanesAgree_ofPixels hdata hsame).runFrom
    (lanesAgree_batchOf hdata hsame) hosts accord accord'
  obtain ⟨m, hrun, rfl, rfl⟩ := runBatch_eq_ok.1 h
  rw [hrun] at herror hagree
  refine ⟨_, _, runBatch_eq_ok.2 ⟨_, Prod.ext rfl herror.symm, rfl, rfl⟩,
    ⟨hagree.values, hdata.immutable, hdata.uniforms⟩, ?_⟩
  dsimp only
  rw [getElem?_colors _ (Array.getElem?_eq_some_iff.1 hpixel).1,
    getElem?_colors _ (Array.getElem?_eq_some_iff.1 hpixel').1, hagree.registers]

/-! ## Runs -/

/-- In every batch in which a lane has a pixel, no branch is taken against what the lane would do by
itself. -/
def runAccords (stages : Array Stage) (l : Fin lanes) (data : SlotData lanes) :
    List Pixel → Bool
  | [] => true
  | pixel :: rest =>
    let pixels := (pixel :: rest.take (lanes - 1)).toArray
    (decide (pixels.size ≤ l) ||
      accords stages (batchOf data pixels) l maxSteps 0 (ofPixels data.values pixels)) &&
        runAccords stages l (runBatch stages data pixels).1 (rest.drop (lanes - 1))
termination_by pixels => pixels.length

/-- Stages without branches do nothing against what a lane would do. -/
theorem runAccords_of_straight {stages : Array Stage}
    (straight : ∀ stage ∈ stages, stage.isBranch = false) (l : Fin lanes) (data : SlotData lanes)
    (pixels : List Pixel) : runAccords stages l data pixels = true := by
  fun_induction runAccords stages l data pixels with
  | case1 => rfl
  | case2 data pixel rest pixels ih =>
    rw [accords_of_straight straight, Bool.or_true, Bool.true_and]
    exact ih

/-- With one lane there is one pixel in every batch. -/
theorem run_single (stages : Array Stage) (data : SlotData 1) (output : RunOutput) (pixel : Pixel)
    (rest : List Pixel) {after : SlotData 1} {batch : RunOutput}
    (h : runBatch stages data #[pixel] = (after, .ok batch)) :
    run stages data output (pixel :: rest) = run stages after (output.append batch) rest := by
  rw [run]
  simp only [Nat.sub_self, List.take_zero, List.drop_zero, h]

/-- A lane gives its pixels the colors that they get on a machine of its own. -/
theorem run_lane_alone {data' : SlotData 1} (hdata : data.LanesAgree l 0 data')
    (hosts : ∀ own, Stage.host own ∈ stages → own.Relates l (0 : Fin 1)) {pixels own : List Pixel}
    (hown : OfLane l own pixels) (accord : runAccords stages l data pixels = true)
    {output result : RunOutput} (output' : RunOutput) {after : SlotData lanes}
    (h : run stages data output pixels = (after, .ok result)) :
    ∃ colors, result.colors = output.colors ++ colors ∧ colors.length = pixels.length ∧
      ∃ after' result' colors', run stages data' output' own = (after', .ok result') ∧
        result'.colors = output'.colors ++ colors' ∧ OfLane l colors' colors := by
  fun_induction run stages data output pixels generalizing own data' output' with
  | case1 data output =>
    cases h
    obtain rfl := hown.eq_nil
    exact ⟨[], by simp, rfl, data', output', [], by rw [run], by simp, .nil l⟩
  | case2 data output pixel rest data₁ e hbatch => cases h
  | case3 data output pixel rest data₁ batch hbatch ih =>
    simp only [runAccords, Bool.and_eq_true, hbatch] at accord
    obtain ⟨accord, accordLater⟩ := accord
    have hlength := length_colors_of_runBatch hbatch
    have hfirst := isBatch_take l pixel rest
    have hpixels : pixel :: rest =
        (pixel :: rest.take (lanes - 1)) ++ rest.drop (lanes - 1) := by simp
    rw [hpixels] at hown ⊢
    obtain ⟨later, rfl, hlater⟩ := hown.split hfirst
    generalize pixel :: rest.take (lanes - 1) = first at *
    generalize rest.drop (lanes - 1) = rest at *
    rw [List.size_toArray] at hlength
    cases hl : first[(l : Nat)]? with
    | none =>
      -- the lane has no pixel in this batch, which is the last one
      have hshort := List.getElem?_eq_none_iff.1 hl
      obtain rfl : rest = [] := by
        have hlt := l.isLt
        obtain hfull | ⟨-, hnil⟩ := hfirst
        · omega
        · exact hnil
      obtain rfl := hlater.eq_nil
      rw [run] at h
      cases h
      exact ⟨batch.colors, rfl, by simpa using hlength, data', output', [], by simp [run], by simp,
        .of_length_le (hlength.trans_le hshort)⟩
    | some pixel₁ =>
      have haccord : accords stages (batchOf data first.toArray) l maxSteps 0
          (ofPixels data.values first.toArray) = true := by
        have hlt := (List.getElem?_eq_some_iff.1 hl).1
        simpa [Nat.not_le.2 hlt] using accord
      obtain ⟨after₁, batch₁, hbatch₁, hagree, hcolor⟩ :=
        runBatch_agree hdata (by simpa using hl)
          (rfl : (#[pixel₁] : Array Pixel)[((0 : Fin 1) : Nat)]? = some pixel₁) hosts haccord
          (accords_alone Nat.zero_lt_one stages _ _ _) hbatch
      obtain ⟨colors, hcolors, hcount, after', result', colors', hrun, hcolors', hofLane⟩ :=
        ih hagree hlater accordLater (output'.append batch₁) h
      have hsingle : batch₁.colors = batch.colors[(l : Nat)]?.toList := by
        rw [hcolor]
        obtain ⟨color, hone⟩ := List.length_eq_one_iff.1 (length_colors_of_runBatch hbatch₁)
        rw [hone]
        rfl
      refine ⟨batch.colors ++ colors, ?_, ?_, after', result', batch₁.colors ++ colors', ?_, ?_, ?_⟩
      · rw [hcolors, RunOutput.append, List.append_assoc]
      · rw [List.length_append, List.length_append, hlength, hcount]
      · rw [Option.toList_some, List.singleton_append,
          run_single stages data' output' pixel₁ later hbatch₁]
        exact hrun
      · rw [hcolors', RunOutput.append, List.append_assoc]
      · rw [hsingle]
        exact hofLane.append (hfirst.of_length hlength hcount)

end Machine

/-! ## Pipelines -/

namespace Pipeline

/-- Instructions that are no branches become stages that are none, but for what a host supplies. -/
theorem straight_of_lowerOn {p : Pipeline} {data : SlotData lanes} {host : Option Host}
    {tailCalls : Bool} {lowered : Lowered}
    (branchless : ∀ i ∈ p.instructions, i.op.branchTarget? = none)
    (own : ∀ stage, Host.Supplies host stage → stage.isBranch = false)
    (h : p.lowerOn data host tailCalls = .ok lowered) :
    ∀ stage ∈ lowered.stages, stage.isBranch = false := by
  rw [← lowerWith_const] at h
  obtain ⟨L, hL, hstages⟩ := lowerWith_eq_ok h
  intro stage hmem
  cases stage with
  | branch condition offset =>
    obtain ⟨x, hx⟩ := Array.mem_iff_getElem?.1 hmem
    obtain ⟨k, i, row, hget, -, -, leaves, hrow⟩ := exists_row hL hstages hx (by simp)
    obtain ⟨call, stages, -, hsupply, hstage⟩ | ⟨c, l, hop⟩ := leaves.of_branch hrow
    · exact own _ ⟨call, stages, hsupply, hstage⟩
    · have htarget := branchless i (List.mem_of_getElem? hget)
      rw [hop] at htarget
      cases htarget
  | _ => rfl

/-- Code without branches, lowered for a host that supplies none, does nothing against what a lane
would do by itself, whatever the pixels. -/
theorem runAccords_of_straight {p : Pipeline} {host : Option Host} {lowered : Lowered}
    (branchless : ∀ i ∈ p.instructions, i.op.branchTarget? = none)
    (own : ∀ stage, Host.Supplies host stage → stage.isBranch = false)
    (h : p.lowerOn (p.allocate lanes) host false = .ok lowered) (l : Fin lanes)
    (uniforms : List UInt32) (pixels : List Pixel) :
    Machine.runAccords lowered.stages l (p.load lowered lanes uniforms) pixels = true :=
  Machine.runAccords_of_straight (straight_of_lowerOn branchless own h) l _ pixels

/-- The color of a pixel does not depend on the other lanes.  For every pipeline, number of lanes,
host whose stages act lane by lane, uniforms and pixels: if a run succeeds in which no branch is
taken against what a lane would do by itself, then it gives one color for every pixel, and a run
with one lane over the pixels of the lane succeeds as well and gives them the same colors. -/
theorem evaluate_lane_alone (p : Pipeline) (laneCount : Nat) (host : Option Host)
    (uniforms : List UInt32) {lowered : Lowered}
    (hlowered : p.lowerOn (p.allocate (max laneCount 1)) host false = .ok lowered)
    (hosts : ∀ own, Stage.host own ∈ lowered.stages → own.PerLane) (l : Fin (max laneCount 1))
    {pixels own : List Pixel} (hown : OfLane l own pixels)
    (accord : Machine.runAccords lowered.stages l (p.load lowered (max laneCount 1) uniforms)
      pixels = true) {output : RunOutput}
    (h : p.evaluate laneCount host uniforms pixels = .ok output) :
    output.colors.length = pixels.length ∧
      ∃ alone, p.evaluate 1 host uniforms own = .ok alone ∧
        OfLane l alone.colors output.colors := by
  have hdata : (p.load lowered (max laneCount 1) uniforms).LanesAgree l 0
      (p.load lowered 1 uniforms) := by
    refine ⟨?_, rfl, rfl⟩
    simp only [load, loadOn, allocate, SlotData.zero, Array.map_replicate, Vector.get_replicate]
  rw [evaluate_eq_of_lowerOn hlowered] at h
  obtain ⟨colors, hcolors, hcount, after, alone, colors', hrun, hcolors', hofLane⟩ :=
    Machine.run_lane_alone hdata (fun own hmem => hosts own hmem l 0) hown accord ⟨[], []⟩
      (Prod.ext rfl h)
  rw [List.nil_append] at hcolors hcolors'
  refine ⟨hcolors ▸ hcount, alone, ?_, by rwa [hcolors, hcolors']⟩
  have hlowered₁ : p.lowerOn (p.allocate (max 1 1)) host false = .ok lowered := hlowered
  rw [evaluate_eq_of_lowerOn hlowered₁]
  exact congrArg Prod.snd hrun

/-- Counts its batches in a loop that all lanes leave in the first round, and shows the count. -/
def countingLoop : Pipeline where
  instructions := [⟨.initLaneMasks, 0⟩, ⟨.label 0, 0⟩, ⟨.binaryImm .add .int 1 1 (some 0), 0⟩,
    ⟨.maskOffLoop, 0⟩, ⟨.branch .anyLanesActive 0, 0⟩, ⟨.loadColor .src ⟨0, 4⟩, 0⟩,
    ⟨.invoke .toLinearSrgb, 0⟩]
  valueSlots := 4
  uniformSlots := 0
  immutableSlots := 0
  labelCount := 1
  stackDepths := [0]
  debugTrace := none

/-- Exchanges two channels of each lane. -/
def exchange : HostStage := .ofLane "exchange" fun src _ => ⟨src.g, src.r, src.b, src.a⟩

/-- A host with such a stage. -/
def exchangingHost : Host := ⟨fun _ _ => none, [.host exchange], []⟩

/-- The first of two lanes has the first and the last of three pixels. -/
theorem evaluate_lane_alone_countingLoop :
    let pixels := [Pixel.ofCoords 0 0, .ofCoords 1 0, .ofCoords 0 1]
    let own := [Pixel.ofCoords 0 0, .ofCoords 0 1]
    OfLane (0 : Fin 2) own pixels ∧
      ∃ lowered output,
        countingLoop.lowerOn (countingLoop.allocate 2) exchangingHost false = .ok lowered ∧
        (∀ own, Stage.host own ∈ lowered.stages → own.PerLane) ∧
        Machine.runAccords lowered.stages (0 : Fin 2) (countingLoop.load lowered 2 []) pixels =
          true ∧
        countingLoop.evaluate 2 exchangingHost [] pixels = .ok output ∧
        output.colors = [⟨0, 1, 0, 0⟩, ⟨0, 1, 0, 0⟩, ⟨0, 2, 0, 0⟩] ∧
        ∃ alone, countingLoop.evaluate 1 exchangingHost [] own = .ok alone ∧
          OfLane (0 : Fin 2) alone.colors output.colors := by
  intro pixels own
  have hown : OfLane (0 : Fin 2) own pixels := by
    rintro (_ | _ | i)
    · rfl
    · rfl
    · rw [List.getElem?_eq_none (by simp [own]), List.getElem?_eq_none]
      simp only [pixels, List.length_cons, List.length_nil]
      omega
  have hcolors : (countingLoop.evaluate 2 exchangingHost [] pixels).map (·.colors) =
      .ok [⟨0, 1, 0, 0⟩, ⟨0, 1, 0, 0⟩, ⟨0, 2, 0, 0⟩] := by decide +kernel
  refine ⟨hown, ?_⟩
  cases hlowered : countingLoop.lowerOn (countingLoop.allocate 2) exchangingHost false with
  | error e => cases hlowered
  | ok lowered =>
    cases houtput : countingLoop.evaluate 2 exchangingHost [] pixels with
    | error e =>
      rw [houtput] at hcolors
      cases hcolors
    | ok output =>
      rw [houtput] at hcolors
      have accord : Machine.runAccords lowered.stages (0 : Fin 2) (countingLoop.load lowered 2 [])
          pixels = true := by
        cases hlowered
        decide +kernel
      have hosts : ∀ own, Stage.host own ∈ lowered.stages → own.PerLane := by
        have hstages : lowered.stages = #[.initLaneMasks, .binaryImm .add .int 0 1 1, .maskOffLoop,
            .stackRewind, .branch .anyLanesActive (-3), .loadColor .src 0, .host exchange,
            .setBasePointer] := by
          cases hlowered
          rfl
        rw [hstages]
        rintro own hmem
        obtain rfl : own = exchange := by simpa using hmem
        exact HostStage.perLane_ofLane _ _
      exact ⟨lowered, output, rfl, hosts, accord, rfl, Except.ok.inj hcolors,
        (countingLoop.evaluate_lane_alone 2 exchangingHost [] hlowered hosts (0 : Fin 2) hown accord
          houtput).2⟩

end Pipeline

end RasterShader
