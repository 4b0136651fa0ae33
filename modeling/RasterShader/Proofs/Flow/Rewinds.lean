import Mathlib
import RasterShader.Proofs.Flow.Shedding

/-!
# Rewinds change nothing

A host with tail calls is given the same stages as any other host, but no rewinds.  The main
result is `Pipeline.rewinds_change_nothing`: lowering succeeds for both hosts or fails for both with
the same error, the stages for the first are those for the second without the rewinds that lowering
has put in, and both run alike.
-/

namespace RasterShader

variable {lanes : Nat}

/-! ## Where rewinds come from -/

/-- A host gives a stage for one of its calls. -/
def Host.Supplies (host : Option Host) (stage : Stage) : Prop :=
  ∃ call stages, Host.stages? host call = some stages ∧ stage ∈ stages

theorem Op.stage?_ne_stackRewind (op : Op) (top : Nat) (topOf : Int → Nat) :
    op.stage? top topOf ≠ some .stackRewind := by
  cases op with
  | pushSlots space => cases space <;> simp [Op.stage?]
  | _ => simp [Op.stage?]

namespace Lowering

variable {p : Pipeline} {host : Option Host} {L L' : Lowering}

theorem stackRewind_notMem_stagesOf (own : ¬ Host.Supplies host .stackRewind) (L : Lowering)
    (i : Instruction) : .stackRewind ∉ L.stagesOf p host i := by
  intro h
  rw [stagesOf] at h
  split at h
  · rename_i call hcall
    rw [List.mem_append, List.mem_singleton] at h
    obtain h | h := h
    · cases hstages : Host.stages? host call with
      | none => simp [hstages] at h
      | some stages => exact own ⟨call, stages, hstages, by simpa [hstages] using h⟩
    · cases h
  · exact Op.stage?_ne_stackRewind _ _ _ (Option.mem_toList.1 h)

/-- With tail calls an instruction adds no rewind of its own. -/
theorem stackRewind_notMem_lowerInstruction (own : ¬ Host.Supplies host .stackRewind)
    {i : Instruction} (h : L.lowerInstruction p host true i = .ok L')
    (free : .stage .stackRewind ∉ L.emitted.toList) :
    .stage .stackRewind ∉ L'.emitted.toList := by
  simp only [lowerInstruction, Bool.not_true, Bool.false_and, Bool.false_eq_true, if_false, bind,
    Except.bind, pure, Except.pure] at h
  split at h
  · cases h
  rename_i K hK
  cases h
  change _ ∉ K.emitted.toList
  by_cases hbranch : i.op.branchTarget? = none
  · rw [(lowerOp_eq_ok hbranch hK).1, List.mem_append, not_or]
    refine ⟨free, fun hmem => ?_⟩
    obtain ⟨stage, hstage, hrewind⟩ := List.mem_map.1 hmem
    obtain rfl := Emitted.stage.inj hrewind
    exact stackRewind_notMem_stagesOf own L i hstage
  · obtain ⟨op, stack⟩ := i
    cases op with
    | branch condition label =>
      cases hK
      simpa using free
    | _ => exact absurd rfl hbranch

theorem stackRewind_notMem_foldlM (own : ¬ Host.Supplies host .stackRewind)
    {instructions : List Instruction}
    (h : instructions.foldlM (·.lowerInstruction p host true ·) L = .ok L')
    (free : .stage .stackRewind ∉ L.emitted.toList) :
    .stage .stackRewind ∉ L'.emitted.toList := by
  induction instructions generalizing L with
  | nil =>
    cases h
    exact free
  | cons i rest ih =>
    rw [List.foldlM_cons] at h
    cases hi : L.lowerInstruction p host true i with
    | error e =>
      rw [hi] at h
      cases h
    | ok K =>
      rw [hi] at h
      exact ih h (stackRewind_notMem_lowerInstruction own hi free)

end Lowering

/-- With tail calls there are no rewinds but those of the host. -/
theorem Pipeline.stackRewind_notMem_lowerOn {p : Pipeline} {data : SlotData lanes}
    {host : Option Host} (own : ¬ Host.Supplies host .stackRewind) {lowered : Lowered}
    (h : p.lowerOn data host true = .ok lowered) : .stackRewind ∉ lowered.stages.toList := by
  simp only [lowerOn, lowerFrom, bind, Except.bind, pure, Except.pure] at h
  split at h
  · cases h
  rename_i L hL
  split at h
  · cases h
  rename_i stages hstages
  cases h
  intro hmem
  obtain ⟨n, hn⟩ := List.mem_iff_getElem?.1 hmem
  obtain ⟨e, he, hresolve⟩ := Lowering.getElem?_resolve hstages hn
  have free := Lowering.stackRewind_notMem_foldlM own hL
    (by simp [Lowering.startOn, Lowering.start])
  cases e with
  | stage stage =>
    cases hresolve
    exact free (List.mem_of_getElem? he)
  | branch condition label =>
    simp only [Lowering.resolve] at hresolve
    split at hresolve <;> cases hresolve

/-! ## Running without rewinds -/

theorem Machine.idle_stackRewind (batch : Batch lanes) (R : Machine lanes → Machine lanes → Prop) :
    Idle batch R .stackRewind :=
  ⟨rfl, fun related => ⟨rfl, related⟩⟩

/-- The rewinds that lowering has put in are marked, and no other stages. -/
theorem Lowered.Sheds.marks_iff {host : Option Host} {marks : Marks} {plain tail : Lowered}
    (h : plain.Sheds host (· = .stackRewind) marks tail)
    (free : .stackRewind ∉ tail.stages.toList) (n : Nat) :
    marks[n]? = some true ↔ plain.stages[n]? = some .stackRewind := by
  refine ⟨fun hmark => ?_, fun hstage => ?_⟩
  · obtain ⟨_, rfl, hstage⟩ := h.marked n hmark
    exact hstage
  · cases hmark : marks[n]? with
    | none =>
      rw [List.getElem?_eq_none_iff, h.length] at hmark
      rw [Array.getElem?_eq_none hmark] at hstage
      cases hstage
    | some mark =>
      cases mark with
      | true => rfl
      | false =>
        rw [h.stages] at free
        exact absurd (Lowered.mem_without h.labels hmark hstage rfl) free

namespace Pipeline

/-- Rewinds change nothing.  A pipeline is lowered for a host with tail calls if and only if it is
lowered for one without, and fails with the same error otherwise.  The stages of the first are those
of the second without marked ones, with the branches that lead to labels led to where those have
moved; what is marked are rewinds, and all of them if the host supplies none of its own.  If the
branches of the host do not leave its own stages, then a run without tail calls that does not meet
the limit of stages ends in the same memory, colors and trace, or in the same error, with tail
calls. -/
theorem rewinds_change_nothing (p : Pipeline) (data : SlotData lanes) (host : Option Host) :
    (∃ e, p.lowerOn data host true = .error e ∧ p.lowerOn data host false = .error e) ∨
      ∃ (tail plain : Lowered) (marks : Marks),
        p.lowerOn data host true = .ok tail ∧ p.lowerOn data host false = .ok plain ∧
        marks.length = plain.stages.size ∧
        (∀ n : Nat, marks[n]? = some true → plain.stages[n]? = some .stackRewind) ∧
        (¬ Host.Supplies host .stackRewind →
          ∀ n : Nat, plain.stages[n]? = some .stackRewind → marks[n]? = some true) ∧
        tail.stages.toList = plain.without marks ∧
        tail.immutable = plain.immutable ∧
        (Host.Contained host →
          tail.stages.toList = marks.erase plain.stages.toList ∧
          ∀ (uniforms : List UInt32) (laneCount : Nat) (pixels : List Pixel),
            Machine.Finished (Machine.runOn laneCount plain.stages (p.loadOn plain data uniforms)
              pixels) →
            Machine.runOn laneCount tail.stages (p.loadOn tail data uniforms) pixels =
              Machine.runOn laneCount plain.stages (p.loadOn plain data uniforms) pixels) := by
  have hp : p.without (fun _ => false) = p := by simp [without]
  obtain ⟨e, hplain, htail⟩ | ⟨marks, plain, tail, hplain, htail, sheds⟩ :=
    p.lowerOn_sheds data host false (· = .stackRewind) rfl (fun _ => false) (by simp)
  · exact .inl ⟨e, hp ▸ htail, hplain⟩
  rw [hp] at htail
  refine .inr ⟨tail, plain, marks, htail, hplain, sheds.length, ?_, ?_, sheds.stages,
    sheds.immutable, fun contained => ⟨sheds.erase contained, ?_⟩⟩
  · intro n hmark
    obtain ⟨_, rfl, hstage⟩ := sheds.marked n hmark
    exact hstage
  · intro own n
    exact (sheds.marks_iff (stackRewind_notMem_lowerOn own htail) n).2
  · intro uniforms laneCount pixels finished
    have hdata : p.loadOn tail data uniforms = p.loadOn plain data uniforms := by
      rw [loadOn, loadOn, sheds.immutable]
    rw [hdata]
    simp only [Machine.runOn] at finished ⊢
    split
    · rename_i hlanes
      rw [if_pos hlanes] at finished
      exact (sheds.run contained (.equal lanes) (by
        rintro _ rfl batch
        exact Machine.idle_stackRewind batch Eq) rfl finished).eq
    · rfl

/-- A loop that all lanes leave in the first round, and then the color white, which a host
changes. -/
def whiteLoop : Pipeline where
  instructions := [⟨.initLaneMasks, 0⟩, ⟨.label 0, 0⟩, ⟨.trace (.line 7), 0⟩, ⟨.maskOffLoop, 0⟩,
    ⟨.branch .anyLanesActive 0, 0⟩, ⟨.pushConstant 4 Word.one, 0⟩, ⟨.popColor .src, 0⟩,
    ⟨.invoke .toLinearSrgb, 0⟩]
  valueSlots := 0
  uniformSlots := 0
  immutableSlots := 0
  labelCount := 1
  stackDepths := [4]
  debugTrace := none

/-- A host that goes on after its only stage. -/
def skippingHost : Host := ⟨fun _ _ => none, [.branch .always 1], []⟩

theorem stages_skippingHost {call : HostCall} {stages : List Stage}
    (h : Host.stages? skippingHost call = some stages) :
    stages = [.branch .always 1] ∨ stages = [] := by
  cases call with
  | child => cases h
  | toLinearSrgb => exact .inl (Option.some.inj h).symm
  | fromLinearSrgb => exact .inr (Option.some.inj h).symm

theorem contained_skippingHost : Host.Contained skippingHost := by
  intro call stages h n condition offset hn
  obtain rfl | rfl := stages_skippingHost h
  · rcases n with _ | n <;> cases hn
    decide
  · cases hn

theorem rewinds_change_nothing_whiteLoop :
    Host.Contained skippingHost ∧ ¬ Host.Supplies skippingHost .stackRewind ∧
      ∃ tail plain : Lowered,
        whiteLoop.lowerOn (whiteLoop.allocate 2) skippingHost true = .ok tail ∧
        whiteLoop.lowerOn (whiteLoop.allocate 2) skippingHost false = .ok plain ∧
        plain.stages = #[.initLaneMasks, .trace (.line 7), .maskOffLoop, .stackRewind,
          .branch .anyLanesActive (-3), .splat 0 4 Word.one, .loadColor .src 0,
          .branch .always 1, .setBasePointer] ∧
        tail.stages = #[.initLaneMasks, .trace (.line 7), .maskOffLoop,
          .branch .anyLanesActive (-2), .splat 0 4 Word.one, .loadColor .src 0,
          .branch .always 1, .setBasePointer] ∧
        (Machine.runOn 2 plain.stages (whiteLoop.loadOn plain (whiteLoop.allocate 2) [])
          [.zero]).2.toOption.map (·.trace) = some [⟨.line, 7, 0⟩] ∧
        Machine.runOn 2 tail.stages (whiteLoop.loadOn tail (whiteLoop.allocate 2) []) [.zero] =
          Machine.runOn 2 plain.stages (whiteLoop.loadOn plain (whiteLoop.allocate 2) [])
            [.zero] := by
  have own : ¬ Host.Supplies skippingHost .stackRewind := by
    rintro ⟨call, stages, h, hmem⟩
    obtain rfl | rfl := stages_skippingHost h <;> simp at hmem
  obtain ⟨e, he, -⟩ | ⟨tail, plain, marks, htail, hplain, -, -, -, -, -, run⟩ :=
    whiteLoop.rewinds_change_nothing (whiteLoop.allocate 2) skippingHost
  · cases he
  have htrace : (Machine.runOn 2 plain.stages (whiteLoop.loadOn plain (whiteLoop.allocate 2) [])
      [.zero]).2.toOption.map (·.trace) = some [⟨.line, 7, 0⟩] := by
    cases hplain
    decide +kernel
  refine ⟨contained_skippingHost, own, tail, plain, htail, hplain, ?_, ?_, htrace, ?_⟩
  · cases hplain
    rfl
  · cases htail
    rfl
  · refine (run contained_skippingHost).2 [] 2 [.zero] fun steps herror => ?_
    rw [herror] at htrace
    cases htrace

end Pipeline

end RasterShader
