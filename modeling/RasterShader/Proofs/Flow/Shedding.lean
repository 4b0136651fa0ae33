import Mathlib
import RasterShader.Proofs.Code.Running
import RasterShader.Proofs.Flow.Erasure
import RasterShader.Proofs.Flow.Lowering

/-!
# Lowering with and without idle stages

Two lowerings of the same instructions may differ in stages that do nothing that matters: rewinds,
which a host with tail calls is not given, and marks of a trace, which may be left out.  The two are
followed side by side.  At every point what one has emitted is what the other has, less the marked
places, and a label is placed by the one where the other's place ends up (`Lowering.Erases`).  In
the end one list of stages is the other without the marked ones (`Lowered.Sheds`).

Idle stages come between the stages of instructions only, so that a host's own branches, which stay
among the stages of one call, are not led elsewhere.
-/

namespace RasterShader

variable {lanes : Nat}

/-! ## Two lowerings side by side -/

namespace Lowering

/-- What the second lowering has emitted is what the first has, less stages of an idle sort at
marked places; labels are placed where their places end up. -/
structure Erases (host : Option Host) (idle : Stage → Prop) (marks : Marks) (L L' : Lowering) :
    Prop where
  length : marks.length = L.emitted.size
  marked : ∀ n : Nat, marks[n]? = some true →
    ∃ stage, idle stage ∧ L.emitted[n]? = some (.stage stage)
  emitted : L'.emitted.toList = marks.keep L.emitted.toList
  labels : L'.labels = L.labels.map (Option.map marks.place)
  placed : ∀ n : Nat, some n ∈ L.labels → n ≤ L.emitted.size
  depths : L'.depths = L.depths
  immutable : L'.immutable = L.immutable
  /-- Branches of a host lead as far as before. -/
  branches : Host.Contained host → ∀ (n : Nat) (condition : StageCondition) (offset : Int),
    L.emitted[n]? = some (.stage (.branch condition offset)) →
      ∃ target : Nat, n + offset = target ∧ target ≤ L.emitted.size ∧
        (marks.place target : Int) = marks.place n + offset

/-- Two lowerings have failed alike, or have emitted the same less the marked places. -/
inductive Follows (host : Option Host) (idle : Stage → Prop) :
    Except PipelineError Lowering → Except PipelineError Lowering → Prop
  | error (e : PipelineError) : Follows host idle (.error e) (.error e)
  | ok {marks : Marks} {L L' : Lowering} (erases : Erases host idle marks L L') :
    Follows host idle (.ok L) (.ok L')

variable {p : Pipeline} {host : Option Host} {idle : Stage → Prop} {marks : Marks}
  {L L' K K' : Lowering}

theorem Follows.bind {x x' : Except PipelineError Lowering}
    {f f' : Lowering → Except PipelineError Lowering} (h : Follows host idle x x')
    (hf : ∀ marks L L', Erases host idle marks L L' → Follows host idle (f L) (f' L')) :
    Follows host idle (x >>= f) (x' >>= f') := by
  cases h with
  | error e => exact .error e
  | ok erases => exact hf _ _ _ erases

/-- An instruction that leaves its stack as deep as it was does not move the top. -/
theorem moveTop_of_stackUsage_eq_zero {i : Instruction} (h : i.op.stackUsage = 0) (L : Lowering) :
    L.moveTop i = L := by
  have hdepth (d : Nat) : ((d : Int) + i.op.stackUsage).toNat = d := by omega
  have hdepths : L.depths.set i.stack.toNat (L.depths.getD i.stack.toNat 0) = L.depths := by
    refine List.ext_getElem? fun n => ?_
    rw [List.getElem?_set, List.getD_eq_getElem?_getD]
    split
    · rename_i hn
      subst hn
      split
      · rename_i hlt
        simp [hlt]
      · rename_i hge
        rw [List.getElem?_eq_none (Nat.le_of_not_lt hge)]
    · rfl
  simp only [moveTop, hdepth, hdepths]

namespace Erases

theorem size (h : Erases host idle marks L L') : L'.emitted.size = marks.place L.emitted.size := by
  have hlength : marks.length = L.emitted.toList.length := by simpa using h.length
  rw [← Array.length_toList, h.emitted, Marks.length_keep hlength, Array.length_toList]

theorem topOf (h : Erases host idle marks L L') : L'.topOf p = L.topOf p := by
  funext stack
  rw [Lowering.topOf, Lowering.topOf, h.depths]

/-- A place of the first lowering stays where it is when more is emitted. -/
theorem place_append (h : Erases host idle marks L L') {n : Nat} (hn : n ≤ L.emitted.size)
    (more : Marks) : Marks.place (marks ++ more) n = marks.place n :=
  Marks.place_append_of_le (h.length ▸ hn) more

theorem labels_append (h : Erases host idle marks L L') (more : Marks) :
    L'.labels = L.labels.map (Option.map (Marks.place (marks ++ more))) := by
  rw [h.labels]
  refine Array.map_congr_left fun label hlabel => ?_
  cases label with
  | none => rfl
  | some n => rw [Option.map_some, Option.map_some, h.place_append (h.placed n hlabel)]

theorem branches_append (h : Erases host idle marks L L') (contained : Host.Contained host)
    (more : Marks) {n : Nat} {condition : StageCondition} {offset : Int}
    (hn : L.emitted[n]? = some (.stage (.branch condition offset))) :
    ∃ target : Nat, n + offset = target ∧ target ≤ L.emitted.size ∧
      (Marks.place (marks ++ more) target : Int) = Marks.place (marks ++ more) n + offset := by
  obtain ⟨target, htarget, hle, hplace⟩ := h.branches contained n condition offset hn
  have hlt : n < L.emitted.size := by
    by_contra hge
    rw [Array.getElem?_eq_none (Nat.le_of_not_lt hge)] at hn
    cases hn
  exact ⟨target, htarget, hle, by rw [h.place_append hle, h.place_append hlt.le, hplace]⟩

/-- Both emit the same. -/
theorem append (h : Erases host idle marks L L') (more : List Emitted)
    (hemitted : K.emitted.toList = L.emitted.toList ++ more)
    (hemitted' : K'.emitted.toList = L'.emitted.toList ++ more) (hlabels : K.labels = L.labels)
    (hlabels' : K'.labels = L'.labels) (hdepths : K'.depths = K.depths)
    (himmutable : K'.immutable = K.immutable)
    (contained : Host.Contained host → ∀ (n : Nat) (condition : StageCondition) (offset : Int),
      more[n]? = some (.stage (.branch condition offset)) →
        0 ≤ n + offset ∧ n + offset ≤ more.length) :
    Erases host idle (marks ++ List.replicate more.length false) K K' := by
  have hlength : marks.length = L.emitted.toList.length := by simpa using h.length
  have hsize : K.emitted.size = L.emitted.size + more.length := by
    rw [← Array.length_toList, hemitted, List.length_append, Array.length_toList]
  -- what stands at a place of the longer program
  have hold {n : Nat} (hn : n < L.emitted.size) : K.emitted[n]? = L.emitted[n]? := by
    rw [← Array.getElem?_toList, ← Array.getElem?_toList, hemitted,
      List.getElem?_append_left (by simpa using hn)]
  have hnew (n : Nat) : K.emitted[L.emitted.size + n]? = more[n]? := by
    rw [← Array.getElem?_toList, hemitted, ← Array.length_toList,
      List.getElem?_append_right (Nat.le_add_right ..), Nat.add_sub_cancel_left]
  constructor
  · rw [List.length_append, List.length_replicate, hsize, h.length]
  · intro n hn
    rcases Nat.lt_or_ge n marks.length with hlt | hge
    · rw [List.getElem?_append_left hlt] at hn
      rw [hold (h.length ▸ hlt)]
      exact h.marked n hn
    · rw [List.getElem?_append_right hge, List.getElem?_replicate] at hn
      split at hn <;> cases hn
  · rw [hemitted', hemitted, h.emitted, Marks.keep_append hlength, Marks.keep_replicate_false]
  · rw [hlabels', hlabels]
    exact h.labels_append _
  · intro n hn
    rw [hlabels] at hn
    have := h.placed n hn
    omega
  · exact hdepths
  · exact himmutable
  · intro hcontained n condition offset hn
    rcases Nat.lt_or_ge n L.emitted.size with hlt | hge
    · rw [hold hlt] at hn
      obtain ⟨target, htarget, hle, hplace⟩ := h.branches_append hcontained
        (List.replicate more.length false) hn
      exact ⟨target, htarget, by omega, hplace⟩
    · obtain ⟨k, rfl⟩ := Nat.exists_eq_add_of_le hge
      rw [hnew] at hn
      obtain ⟨hlow, hhigh⟩ := contained hcontained k condition offset hn
      obtain ⟨target, htarget⟩ := Int.eq_ofNat_of_zero_le hlow
      have hk : k ≤ more.length := by
        by_contra hgt
        rw [List.getElem?_eq_none (by omega)] at hn
        cases hn
      have hle : target ≤ more.length := by omega
      refine ⟨L.emitted.size + target, by omega, by omega, ?_⟩
      rw [← h.length, Marks.place_append_length_add, Marks.place_append_length_add,
        Marks.place_replicate_false hle, Marks.place_replicate_false hk]
      omega

/-- Only the first emits a stage, of the idle sort. -/
theorem skip (h : Erases host idle marks L L') {stage : Stage} (hidle : idle stage)
    (hbranch : stage.isBranch = false)
    (hemitted : K.emitted.toList = L.emitted.toList ++ [.stage stage])
    (hlabels : K.labels = L.labels) (hdepths : K.depths = L.depths)
    (himmutable : K.immutable = L.immutable) :
    Erases host idle (marks ++ [true]) K L' := by
  have hlength : marks.length = L.emitted.toList.length := by simpa using h.length
  have hsize : K.emitted.size = L.emitted.size + 1 := by
    rw [← Array.length_toList, hemitted, List.length_append, Array.length_toList,
      List.length_singleton]
  have hold {n : Nat} (hn : n < L.emitted.size) : K.emitted[n]? = L.emitted[n]? := by
    rw [← Array.getElem?_toList, ← Array.getElem?_toList, hemitted,
      List.getElem?_append_left (by simpa using hn)]
  have hnew : K.emitted[L.emitted.size]? = some (.stage stage) := by
    rw [← Array.getElem?_toList, hemitted, ← Array.length_toList, List.getElem?_concat_length]
  constructor
  · rw [List.length_append, List.length_singleton, hsize, h.length]
  · intro n hn
    rcases Nat.lt_trichotomy n L.emitted.size with hlt | rfl | hgt
    · rw [List.getElem?_append_left (h.length ▸ hlt)] at hn
      rw [hold hlt]
      exact h.marked n hn
    · exact ⟨stage, hidle, hnew⟩
    · rw [List.getElem?_eq_none (by simp [h.length]; omega)] at hn
      cases hn
  · rw [hemitted, Marks.keep_append hlength, ← h.emitted]
    simp [Marks.keep]
  · rw [hlabels]
    exact h.labels_append _
  · intro n hn
    rw [hlabels] at hn
    have := h.placed n hn
    omega
  · rw [h.depths, hdepths]
  · rw [h.immutable, himmutable]
  · intro hcontained n condition offset hn
    rcases Nat.lt_trichotomy n L.emitted.size with hlt | rfl | hgt
    · rw [hold hlt] at hn
      obtain ⟨target, htarget, hle, hplace⟩ := h.branches_append hcontained [true] hn
      exact ⟨target, htarget, by omega, hplace⟩
    · rw [hnew] at hn
      cases hn
      cases hbranch
    · rw [Array.getElem?_eq_none (by omega)] at hn
      cases hn

/-- Both emit the same stage, which is no branch. -/
theorem emit (h : Erases host idle marks L L') {stage : Stage} (hbranch : stage.isBranch = false) :
    Erases host idle (marks ++ [false]) (L.emit stage) (L'.emit stage) := by
  refine h.append [.stage stage] (by simp [Lowering.emit]) (by simp [Lowering.emit]) rfl
    rfl h.depths h.immutable ?_
  intro _ n condition offset hn
  rcases n with _ | n
  · cases hn
    cases hbranch
  · cases hn

/-- Both emit the stages of a host call. -/
theorem emitHost (h : Erases host idle marks L L') {stages : List Stage} (call : HostCall)
    (hstages : Host.stages? host call = some stages) :
    ∃ marks', Erases host idle marks' (L.emitHost stages) (L'.emitHost stages) := by
  have hdepths (L : Lowering) : (L.emitHost stages).depths = L.depths :=
    (emitted_emitHost L stages).2
  refine ⟨_, h.append ((stages ++ [Stage.setBasePointer]).map .stage)
    (emitted_emitHost L stages).1 (emitted_emitHost L' stages).1 (labels_emitHost L stages)
    (labels_emitHost L' stages) (by rw [hdepths, hdepths, h.depths])
    (by rw [immutable_emitHost, immutable_emitHost, h.immutable]) ?_⟩
  intro contained n condition offset hn
  rw [List.getElem?_map, Option.map_eq_some_iff] at hn
  obtain ⟨stage, hstage, hbranch⟩ := hn
  obtain rfl := Emitted.stage.inj hbranch
  rcases Nat.lt_or_ge n stages.length with hlt | hge
  · rw [List.getElem?_append_left hlt] at hstage
    obtain ⟨hlow, hhigh⟩ := contained call stages hstages n condition offset hstage
    rw [List.length_map, List.length_append]
    exact ⟨hlow, by push_cast; omega⟩
  · rw [List.getElem?_append_right hge] at hstage
    generalize n - stages.length = k at hstage
    rcases k with _ | k <;> cases hstage

/-- Only the first may emit a rewind. -/
theorem rewind_cond (h : Erases host idle marks L L') (hidle : idle .stackRewind) (c : Bool) :
    ∃ marks', Erases host idle marks' (if c then L.rewind else L) L' := by
  cases c with
  | true => exact ⟨_, h.skip hidle rfl (by simp [rewind, Lowering.emit]) rfl rfl rfl⟩
  | false => exact ⟨marks, h⟩

/-- Both place a label. -/
theorem place (h : Erases host idle marks L L') (label : Nat) :
    Erases host idle marks
      { L with labels := L.labels.setIfInBounds label (some L.emitted.size) }
      { L' with labels := L'.labels.setIfInBounds label (some L'.emitted.size) } where
  length := h.length
  marked := h.marked
  emitted := h.emitted
  labels := by simp only [h.labels, h.size, Array.map_setIfInBounds, Option.map_some]
  placed := by
    intro n hn
    rcases Array.mem_or_eq_of_mem_setIfInBounds hn with hn | hn
    · exact h.placed n hn
    · exact (Option.some.inj hn).le
  depths := h.depths
  immutable := h.immutable
  branches := h.branches

/-- An operation is lowered alike, or fails alike, with and without rewinds. -/
theorem lowerOp (h : Erases host idle marks L L') (hidle : idle .stackRewind) (p : Pipeline)
    (tailCalls : Bool) (i : Instruction) :
    Follows host idle (L.lowerOp p host tailCalls i) (L'.lowerOp p host true i) := by
  obtain ⟨op, s⟩ := i
  cases op with
  | storeImmutable slot bits =>
    simp only [Lowering.lowerOp, h.immutable]
    split
    · exact .ok ⟨h.length, h.marked, h.emitted, h.labels, h.placed, h.depths, rfl, h.branches⟩
    · exact .error _
  | label label =>
    simp only [Lowering.lowerOp, h.labels, Array.size_map]
    split
    · rw [← h.labels]
      exact .ok (h.place label.toNat)
    · exact .error _
  | branch condition label =>
    obtain ⟨marks₁, h₁⟩ := h.rewind_cond hidle (!tailCalls && (L.placed? label).isSome)
    simp only [Lowering.lowerOp, Bool.not_true, Bool.false_and, Bool.false_eq_true, if_false,
      h.topOf]
    refine .ok (h₁.append [.branch (condition.toStage (L.topOf p s)) label] (by simp)
      (by simp) rfl rfl h₁.depths h₁.immutable ?_)
    intro _ n condition offset hn
    rcases n with _ | n <;> cases hn
  | invoke call =>
    cases host with
    | none => exact .error _
    | some host =>
      cases call with
      | child kind index =>
        simp only [Lowering.lowerOp]
        cases hchild : host.child kind index with
        | none => exact .error _
        | some stages =>
          obtain ⟨marks', h'⟩ := h.emitHost (.child kind index) hchild
          exact .ok h'
      | toLinearSrgb =>
        obtain ⟨marks', h'⟩ := h.emitHost .toLinearSrgb rfl
        exact .ok h'
      | fromLinearSrgb =>
        obtain ⟨marks', h'⟩ := h.emitHost .fromLinearSrgb rfl
        exact .ok h'
  | pad | discard => exact .ok h
  | pushSlots space range =>
    simp only [Lowering.lowerOp, h.topOf]
    cases space <;> exact .ok (h.emit rfl)
  | _ =>
    simp only [Lowering.lowerOp, h.topOf]
    exact .ok (h.emit rfl)

theorem moveTop (h : Erases host idle marks L L') (i : Instruction) :
    Erases host idle marks (L.moveTop i) (L'.moveTop i) :=
  ⟨h.length, h.marked, h.emitted, h.labels, h.placed, by simp only [Lowering.moveTop, h.depths],
    h.immutable, h.branches⟩

theorem lowerInstruction (h : Erases host idle marks L L') (hidle : idle .stackRewind)
    (p : Pipeline) (tailCalls : Bool) (i : Instruction) :
    Follows host idle (L.lowerInstruction p host tailCalls i)
      (L'.lowerInstruction p host true i) := by
  obtain ⟨marks₁, h₁⟩ := h.rewind_cond hidle
    (!tailCalls && decide (rewindInterval ≤ L.emitted.size - L.lastRewind))
  have lowered := h₁.lowerOp hidle p tailCalls i
  exact lowered.bind fun marks L L' h => .ok (h.moveTop i)

/-- Only the first records an event. -/
theorem trace (h : Erases host idle marks L L') (hidle : idle .stackRewind) (p : Pipeline)
    (tailCalls : Bool) {mark : TraceMark} (hmark : idle (.trace mark)) (stack : Int) :
    Follows host idle (L.lowerInstruction p host tailCalls ⟨.trace mark, stack⟩) (.ok L') := by
  obtain ⟨marks₁, h₁⟩ := h.rewind_cond hidle
    (!tailCalls && decide (rewindInterval ≤ L.emitted.size - L.lastRewind))
  refine .ok (h₁.skip hmark rfl ?_ ?_ ?_ ?_)
  all_goals simp only [moveTop_of_stackUsage_eq_zero (i := ⟨.trace mark, stack⟩) rfl, Lowering.emit,
    Array.toList_push]

/-- The second may lack instructions that record events. -/
theorem foldlM (h : Erases host idle marks L L') (hidle : idle .stackRewind) (p : Pipeline)
    (tailCalls : Bool) {dropped : Instruction → Bool}
    (hdropped : ∀ i, dropped i = true → ∃ mark, i.op = .trace mark ∧ idle (.trace mark))
    (instructions : List Instruction) :
    Follows host idle (instructions.foldlM (·.lowerInstruction p host tailCalls ·) L)
      ((instructions.filter (!dropped ·)).foldlM (·.lowerInstruction p host true ·) L') := by
  induction instructions generalizing marks L L' with
  | nil => exact .ok h
  | cons i rest ih =>
    rw [List.foldlM_cons]
    cases hi : dropped i with
    | true =>
      obtain ⟨op, stack⟩ := i
      obtain ⟨mark, rfl, hmark⟩ := hdropped _ hi
      rw [List.filter_cons_of_neg (by simp [hi])]
      exact (h.trace hidle p tailCalls hmark stack).bind fun marks L L' h => ih h
    | false =>
      rw [List.filter_cons_of_pos (by simp [hi]), List.foldlM_cons]
      exact (h.lowerInstruction hidle p tailCalls i).bind fun marks L L' h => ih h

/-- Before the first instruction nothing is marked. -/
theorem startOn (host : Option Host) (idle : Stage → Prop) (p : Pipeline)
    (immutable : Array UInt32) :
    Erases host idle [] (.startOn p immutable) (.startOn p immutable) where
  length := rfl
  marked := by simp
  emitted := rfl
  labels := by simp [Lowering.startOn, start]
  placed := by simp [Lowering.startOn, start]
  depths := rfl
  immutable := rfl
  branches := by simp [Lowering.startOn, start]

/-! ### Branches led to their labels -/

theorem placed? (h : Erases host idle marks L L') (label : Int) :
    L'.placed? label = (L.placed? label).map marks.place := by
  cases label with
  | ofNat label =>
    simp only [Lowering.placed?, h.labels, Array.getElem?_map]
    rcases L.labels[label]? with _ | _ | place <;> rfl
  | negSucc => rfl

/-- What both have emitted becomes the same stage, except that branches are led to where their
targets have moved. -/
theorem resolve (h : Erases host idle marks L L') (n : Nat) (e : Emitted) :
    L'.resolve (marks.place n) e = (L.resolve n e).map fun stage =>
      if e.label?.isSome then stage.relocate marks.place n else stage := by
  cases e with
  | stage stage => rfl
  | branch condition label =>
    simp only [Lowering.resolve, h.placed?]
    cases L.placed? label with
    | none => rfl
    | some target =>
      have htarget : ((n : Int) + (target - n)).toNat = target := by omega
      simp only [Option.map_some, Except.map, Emitted.label?, Option.isSome_some, if_true,
        Stage.relocate, htarget]

end Erases

/-- If each member that is kept is resolved alike and each other member is resolved, then so is the
whole list. -/
theorem mapM_keep {ε : Type} {f g : Nat → Emitted → Except ε Stage}
    (move : Nat → Emitted → Stage → Stage) {marks : Marks} {xs : List Emitted} (n n' : Nat)
    (hlength : marks.length = xs.length)
    (hmarked : ∀ (k : Nat) (e : Emitted), marks[k]? = some true → xs[k]? = some e →
      ∃ stage, f (n + k) e = .ok stage)
    (hkept : ∀ (k : Nat) (e : Emitted), marks[k]? = some false → xs[k]? = some e →
      g (n' + marks.place k) e = (f (n + k) e).map (move (n + k) e)) :
    ((marks.keep xs).zipIdx n').mapM (fun (e, i) => g i e) =
      ((xs.zipIdx n).mapM fun (e, i) => f i e).map fun stages : List Stage =>
        marks.keep (((stages.zip xs).zipIdx n).map fun ((stage, e), i) => move i e stage) := by
  induction xs generalizing marks n n' with
  | nil =>
    rw [Marks.keep_nil]
    simp [Except.map, pure, Except.pure]
  | cons e xs ih =>
    rcases marks with _ | ⟨mark, marks⟩
    · cases hlength
    have hlength' : marks.length = xs.length := Nat.succ.inj hlength
    rw [List.zipIdx_cons, List.mapM_cons]
    cases mark with
    | true =>
      obtain ⟨stage, hstage⟩ := hmarked 0 e rfl rfl
      have ih := ih (n + 1) n' hlength'
        (fun k e' hk he => by
          simpa [Nat.add_right_comm, Nat.add_assoc] using hmarked (k + 1) e' (by simpa) (by simpa))
        (fun k e' hk he => by
          simpa [Nat.add_right_comm, Nat.add_assoc] using hkept (k + 1) e' (by simpa) (by simpa))
      rw [Nat.add_zero] at hstage
      rw [Marks.keep, ih]
      simp only [hstage]
      cases ((xs.zipIdx (n + 1)).mapM fun (e, i) => f i e) <;> rfl
    | false =>
      have hfirst := hkept 0 e rfl rfl
      have ih := ih (n + 1) (n' + 1) hlength'
        (fun k e' hk he => by
          simpa [Nat.add_right_comm, Nat.add_assoc] using hmarked (k + 1) e' (by simpa) (by simpa))
        (fun k e' hk he => by
          have := hkept (k + 1) e' (by simpa) (by simpa)
          simpa [Nat.add_right_comm, Nat.add_assoc, Nat.add_comm 1] using this)
      rw [Marks.place_zero, Nat.add_zero, Nat.add_zero] at hfirst
      rw [Marks.keep, List.zipIdx_cons, List.mapM_cons, ih]
      simp only [hfirst]
      cases f n e with
      | error => rfl
      | ok stage => cases ((xs.zipIdx (n + 1)).mapM fun (e, i) => f i e) <;> rfl

/-- Every place of what was emitted has its stage. -/
theorem getElem?_resolve {xs : List Emitted} {place : Nat} {stages : List Stage}
    (h : (xs.zipIdx place).mapM (fun (e, place) => L.resolve place e) = .ok stages) {n : Nat}
    {stage : Stage} (hstage : stages[n]? = some stage) :
    ∃ e, xs[n]? = some e ∧ L.resolve (place + n) e = .ok stage := by
  have hn : n < xs.length := by
    rw [← length_resolve h]
    exact (List.getElem?_eq_some_iff.1 hstage).1
  have hsplit : xs = xs.take n ++ xs[n] :: xs.drop (n + 1) := by simp
  have htake : (xs.take n).length = n := List.length_take_of_le hn.le
  refine ⟨xs[n], List.getElem?_eq_getElem hn, ?_⟩
  generalize xs[n] = e at hsplit
  rw [hsplit] at h
  obtain ⟨first, last, rfl, hlength, -, hlast⟩ := resolve_append h
  rw [htake] at hlength hlast
  rw [List.getElem?_append_right hlength.le, hlength, Nat.sub_self] at hstage
  rw [List.zipIdx_cons, List.mapM_cons] at hlast
  simp only [bind, Except.bind, pure, Except.pure] at hlast
  split at hlast
  · cases hlast
  · rename_i hfirst
    split at hlast
    · cases hlast
    · cases hlast
      obtain rfl : _ = stage := by simpa using hstage
      exact hfirst

/-- The stages of what was emitted, with all branches led to their labels. -/
def finish (L : Lowering) : Except PipelineError Lowered := do
  let stages ← L.emitted.toList.zipIdx.mapM fun (e, place) => L.resolve place e
  return ⟨stages.toArray, L.emitted.map Emitted.label?, L.immutable⟩

end Lowering

/-! ## Lowered pipelines -/

namespace Lowered

/-- The stages without the marked ones.  Branches that were led to a label are led to where it has
moved, and those of a host stay as they are. -/
def without (lowered : Lowered) (marks : Marks) : List Stage :=
  marks.keep ((lowered.stages.toList.zip lowered.labels.toList).zipIdx.map
    fun ((stage, label), old) =>
      if label.isSome then stage.relocate marks.place old else stage)

/-- A stage that is no branch and is not marked stays. -/
theorem mem_without {lowered : Lowered} {marks : Marks} {n : Nat} {stage : Stage}
    (hlabels : lowered.labels.size = lowered.stages.size) (hmark : marks[n]? = some false)
    (hstage : lowered.stages[n]? = some stage) (hbranch : stage.isBranch = false) :
    stage ∈ lowered.without marks := by
  obtain ⟨hn, -⟩ := Array.getElem?_eq_some_iff.1 hstage
  obtain ⟨label, hlabel⟩ : ∃ label, lowered.labels.toList[n]? = some label :=
    ⟨_, List.getElem?_eq_getElem (by simpa [hlabels] using hn)⟩
  have hzip : (lowered.stages.toList.zip lowered.labels.toList)[n]? = some (stage, label) :=
    List.getElem?_zip_eq_some.2 ⟨by rw [Array.getElem?_toList, hstage], hlabel⟩
  refine List.mem_of_getElem? (i := marks.place n) ?_
  rw [without, Marks.getElem?_keep hmark, List.getElem?_map, List.getElem?_zipIdx, hzip]
  simp [Stage.relocate_of_not_branch hbranch]

/-- The second pipeline is the first without the marked stages, which are of an idle sort. -/
structure Sheds (host : Option Host) (idle : Stage → Prop) (marks : Marks)
    (lowered lowered' : Lowered) : Prop where
  length : marks.length = lowered.stages.size
  labels : lowered.labels.size = lowered.stages.size
  marked : ∀ n : Nat, marks[n]? = some true →
    ∃ stage, idle stage ∧ lowered.stages[n]? = some stage
  stages : lowered'.stages.toList = lowered.without marks
  immutable : lowered'.immutable = lowered.immutable
  /-- Where the branches of a host stay among its stages, they need not be led elsewhere. -/
  erase : Host.Contained host → lowered'.stages.toList = marks.erase lowered.stages.toList
  closed : Host.Contained host → Machine.Closed lowered.stages

end Lowered

namespace Lowering

variable {host : Option Host} {idle : Stage → Prop} {marks : Marks} {L L' : Lowering}

/-- A stage that a host has emitted as a branch stays as it is. -/
theorem Erases.relocate (h : Erases host idle marks L L') (contained : Host.Contained host)
    {n : Nat} {stage : Stage} (hn : L.emitted[n]? = some (.stage stage)) :
    stage.relocate marks.place n = stage := by
  cases stage with
  | branch condition offset =>
    obtain ⟨target, htarget, -, hplace⟩ := h.branches contained n condition offset hn
    rw [Stage.relocate, htarget, Int.toNat_natCast, hplace]
    congr 1
    omega
  | _ => rfl

/-- Branches lead to places of the program. -/
theorem Erases.contained (h : Erases host idle marks L L') (contained : Host.Contained host)
    {stages : List Stage}
    (hstages : L.emitted.toList.zipIdx.mapM (fun (e, place) => L.resolve place e) = .ok stages) :
    Contained stages := by
  intro n condition offset hn
  obtain ⟨e, he, hresolve⟩ := getElem?_resolve hstages hn
  rw [length_resolve hstages, Array.length_toList]
  rw [Nat.zero_add] at hresolve
  rw [Array.getElem?_toList] at he
  cases e with
  | stage stage =>
    cases hresolve
    obtain ⟨target, htarget, hle, -⟩ := h.branches contained n condition offset he
    omega
  | branch condition' label =>
    simp only [Lowering.resolve] at hresolve
    split at hresolve
    · rename_i target htarget
      cases hresolve
      have hplaced : some target ∈ L.labels := by
        cases label with
        | ofNat label =>
          simp only [Lowering.placed?] at htarget
          obtain ⟨hlt, hlabel⟩ := Array.getElem?_eq_some_iff.1 (Option.join_eq_some_iff.1 htarget)
          exact hlabel ▸ Array.getElem_mem hlt
        | negSucc => cases htarget
      have := h.placed target hplaced
      omega
    · cases hresolve

/-- Both are finished alike, or fail alike. -/
theorem Erases.finish (h : Erases host idle marks L L') :
    (∃ e, L.finish = .error e ∧ L'.finish = .error e) ∨
      ∃ lowered lowered', L.finish = .ok lowered ∧ L'.finish = .ok lowered' ∧
        lowered.Sheds host idle marks lowered' := by
  have hlength : marks.length = L.emitted.toList.length := by simpa using h.length
  have hresolve := mapM_keep (f := L.resolve) (g := L'.resolve)
    (fun n e stage => if e.label?.isSome then stage.relocate marks.place n else stage)
    0 0 hlength
    (by
      intro n e hn he
      obtain ⟨stage, -, hstage⟩ := h.marked n hn
      rw [← Array.getElem?_toList, he] at hstage
      cases hstage
      exact ⟨stage, rfl⟩)
    (by
      intro n e _ _
      rw [Nat.zero_add, Nat.zero_add]
      exact h.resolve n e)
  rw [← h.emitted] at hresolve
  simp only [Lowering.finish, hresolve, bind, Except.bind, pure, Except.pure]
  cases hstages : L.emitted.toList.zipIdx.mapM (fun (e, place) => L.resolve place e) with
  | error e => exact .inl ⟨e, rfl, rfl⟩
  | ok stages =>
    refine .inr ⟨_, _, rfl, rfl, ?_⟩
    have hsize : stages.length = L.emitted.size := by
      rw [length_resolve hstages, Array.length_toList]
    have hwithout : marks.keep (((stages.zip L.emitted.toList).zipIdx 0).map
        fun ((stage, e), n) => if e.label?.isSome then stage.relocate marks.place n else stage) =
        Lowered.without ⟨stages.toArray, L.emitted.map Emitted.label?, L.immutable⟩ marks := by
      rw [Lowered.without, Array.toList_map, List.zip_map_right, List.zipIdx_map, List.map_map]
      rfl
    constructor
    · rw [List.size_toArray, hsize, h.length]
    · exact Array.size_map.trans hsize.symm
    · intro n hn
      obtain ⟨stage, hidle, hstage⟩ := h.marked n hn
      have hlt : n < stages.length := by
        rw [hsize]
        exact (Array.getElem?_eq_some_iff.1 hstage).1
      obtain ⟨e, he, hresolved⟩ := getElem?_resolve hstages (List.getElem?_eq_getElem hlt)
      rw [Array.getElem?_toList, hstage] at he
      cases he
      cases hresolved
      exact ⟨_, hidle, by simp⟩
    · exact hwithout
    · exact h.immutable
    · intro contained
      rw [Marks.erase]
      change marks.keep _ = _
      congr 1
      refine List.ext_getElem? fun n => ?_
      rw [List.getElem?_map, List.getElem?_map, List.getElem?_zipIdx, List.getElem?_zipIdx]
      cases hstage : stages[n]? with
      | none =>
        have hzip : (stages.zip L.emitted.toList)[n]? = none := by
          rw [List.getElem?_eq_none_iff] at hstage ⊢
          rw [List.length_zip]
          omega
        simp only [hzip, Option.map_none]
      | some stage =>
        obtain ⟨e, he, hresolved⟩ := getElem?_resolve hstages hstage
        have hzip : (stages.zip L.emitted.toList)[n]? = some (stage, e) :=
          List.getElem?_zip_eq_some.2 ⟨hstage, he⟩
        simp only [hzip, Option.map_some, Nat.zero_add]
        cases e with
        | branch => rfl
        | stage =>
          cases hresolved
          rw [Array.getElem?_toList] at he
          exact congrArg some (h.relocate contained he).symm
    · intro contained
      exact h.contained contained hstages

end Lowering

/-- A pipeline without some of its instructions, on the same slots. -/
def Pipeline.without (p : Pipeline) (dropped : Instruction → Bool) : Pipeline :=
  { p with instructions := p.instructions.filter (!dropped ·) }

section

variable {host : Option Host} {idle : Stage → Prop} {marks : Marks} {lowered lowered' : Lowered}

/-- Without rewinds and some events, a pipeline is lowered to the same stages less idle ones, or
fails alike. -/
theorem Pipeline.lowerOn_sheds (p : Pipeline) (data : SlotData lanes) (host : Option Host)
    (tailCalls : Bool) (idle : Stage → Prop) (hidle : idle .stackRewind)
    (dropped : Instruction → Bool)
    (hdropped : ∀ i, dropped i = true → ∃ mark, i.op = .trace mark ∧ idle (.trace mark)) :
    (∃ e, p.lowerOn data host tailCalls = .error e ∧
        (p.without dropped).lowerOn data host true = .error e) ∨
      ∃ marks lowered lowered', p.lowerOn data host tailCalls = .ok lowered ∧
        (p.without dropped).lowerOn data host true = .ok lowered' ∧
        lowered.Sheds host idle marks lowered' := by
  have follows := (Lowering.Erases.startOn host idle p data.immutable).foldlM
    hidle p tailCalls hdropped p.instructions
  have hplain : p.lowerOn data host tailCalls =
      p.instructions.foldlM (·.lowerInstruction p host tailCalls ·)
        (.startOn p data.immutable) >>= Lowering.finish := rfl
  have hshort : (p.without dropped).lowerOn data host true =
      (p.instructions.filter (!dropped ·)).foldlM (·.lowerInstruction p host true ·)
        (.startOn p data.immutable) >>= Lowering.finish := rfl
  rw [hplain, hshort]
  generalize p.instructions.foldlM (·.lowerInstruction p host tailCalls ·)
    (Lowering.startOn p data.immutable) = x at follows
  generalize (p.instructions.filter (!dropped ·)).foldlM (·.lowerInstruction p host true ·)
    (Lowering.startOn p data.immutable) = x' at follows
  cases follows with
  | error e => exact .inl ⟨e, rfl, rfl⟩
  | ok erases =>
    obtain ⟨e, he, he'⟩ | ⟨lowered, lowered', h, h', sheds⟩ := erases.finish
    · exact .inl ⟨e, he, he'⟩
    · exact .inr ⟨_, lowered, lowered', h, h', sheds⟩

/-- Without its idle stages a pipeline runs alike. -/
theorem Lowered.Sheds.run (h : lowered.Sheds host idle marks lowered')
    (contained : Host.Contained host) (like : Machine.Likeness lanes)
    (hidle : ∀ stage, idle stage → ∀ batch, Machine.Idle batch like.machines stage)
    {data : SlotData lanes} {output output' : RunOutput} (related : like.outputs output output')
    {pixels : List Pixel}
    (finished : Machine.Finished (Machine.run lowered.stages data output pixels)) :
    Machine.Alike like.outputs (Machine.run lowered.stages data output pixels)
      (Machine.run lowered'.stages data output' pixels) := by
  have hstages : lowered'.stages = (marks.erase lowered.stages.toList).toArray := by
    rw [← h.erase contained, Array.toArray_toList]
  rw [hstages]
  refine like.run h.length (h.closed contained) ?_ related pixels finished
  intro old stage hmark hstage
  obtain ⟨stage', hstage', hold⟩ := h.marked old hmark
  rw [hstage, Option.some.injEq] at hold
  exact hold ▸ hidle stage' hstage'

end

end RasterShader
