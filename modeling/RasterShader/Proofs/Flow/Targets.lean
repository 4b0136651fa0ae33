import Mathlib
import RasterShader.Proofs.Flow.Shedding

/-!
# Where branches lead

Lowering walks the instructions once.  Each of them leaves a stretch of stages: rewinds, if they are
due, and then a row of its own (`Op.Leaves`), which is empty for a label and a single branch for a
branch.  A branch is given its offset when all stretches stand, so that it leads to the end of the
stretch of its label, wherever that is and whatever was emitted between the two
(`Pipeline.branches_lead_to_labels`).

A host that keeps a state may answer the same call differently each time.  Here each instruction has
a host of its own (`Pipeline.lowerWith`), which any such host comes to in the end.
-/

namespace RasterShader

/-! ## Lowering with a host for each instruction -/

namespace Pipeline

variable {p : Pipeline} {immutable : Array UInt32} {hosts : Nat → Option Host} {tailCalls : Bool}

/-- The lowering after the first `k` instructions, each of them with a host of its own. -/
def lowerUpTo (p : Pipeline) (immutable : Array UInt32) (hosts : Nat → Option Host)
    (tailCalls : Bool) : Nat → Except PipelineError Lowering
  | 0 => .ok (.startOn p immutable)
  | k + 1 => do
    let L ← lowerUpTo p immutable hosts tailCalls k
    match p.instructions[k]? with
    | some i => L.lowerInstruction p (hosts k) tailCalls i
    | none => .ok L

/-- Lowers the instructions to stages that run on memory with some immutable words, each of them
with a host of its own. -/
def lowerWith (p : Pipeline) (immutable : Array UInt32) (hosts : Nat → Option Host)
    (tailCalls : Bool) : Except PipelineError Lowered :=
  p.lowerUpTo immutable hosts tailCalls p.instructions.length >>= Lowering.finish

/-- How many stages are emitted for the first `k` instructions. -/
def stagesBefore (p : Pipeline) (immutable : Array UInt32) (hosts : Nat → Option Host)
    (tailCalls : Bool) (k : Nat) : Nat :=
  match p.lowerUpTo immutable hosts tailCalls k with
  | .ok L => L.emitted.size
  | .error _ => 0

theorem lowerUpTo_const {host : Option Host} {k : Nat} (hk : k ≤ p.instructions.length) :
    p.lowerUpTo immutable (fun _ => host) tailCalls k =
      (p.instructions.take k).foldlM (·.lowerInstruction p host tailCalls ·)
        (.startOn p immutable) := by
  induction k with
  | zero => rfl
  | succ k ih =>
    have hget : p.instructions[k]? = some p.instructions[k] := List.getElem?_eq_getElem hk
    rw [List.take_add_one, hget, lowerUpTo, ih (Nat.le_of_succ_le hk), List.foldlM_append]
    simp only [hget, Option.toList_some, List.foldlM_cons, List.foldlM_nil, bind_pure]

/-- A host without a state is the same host for each instruction. -/
theorem lowerWith_const {lanes : Nat} (p : Pipeline) (data : SlotData lanes) (host : Option Host)
    (tailCalls : Bool) :
    p.lowerWith data.immutable (fun _ => host) tailCalls = p.lowerOn data host tailCalls := by
  rw [lowerWith, lowerUpTo_const le_rfl, List.take_length]
  rfl

/-- A lowering that has come somewhere has come to all instructions before. -/
theorem exists_of_lowerUpTo_succ {k : Nat} {L' : Lowering}
    (h : p.lowerUpTo immutable hosts tailCalls (k + 1) = .ok L') :
    ∃ L, p.lowerUpTo immutable hosts tailCalls k = .ok L ∧
      (p.instructions[k]? = none ∧ L' = L ∨ ∃ i, p.instructions[k]? = some i ∧
        L.lowerInstruction p (hosts k) tailCalls i = .ok L') := by
  simp only [lowerUpTo, bind, Except.bind] at h
  split at h
  · cases h
  · rename_i L hL
    refine ⟨L, hL, ?_⟩
    split at h
    · rename_i i hi
      exact .inr ⟨i, hi, h⟩
    · rename_i hnone
      cases h
      exact .inl ⟨hnone, rfl⟩

theorem exists_of_lowerUpTo {k n : Nat} (hkn : k ≤ n) {L' : Lowering}
    (h : p.lowerUpTo immutable hosts tailCalls n = .ok L') :
    ∃ L, p.lowerUpTo immutable hosts tailCalls k = .ok L := by
  induction hkn generalizing L' with
  | refl => exact ⟨L', h⟩
  | step _ ih =>
    obtain ⟨L, hL, -⟩ := exists_of_lowerUpTo_succ h
    exact ih hL

theorem stagesBefore_eq {k : Nat} {L : Lowering}
    (h : p.lowerUpTo immutable hosts tailCalls k = .ok L) :
    p.stagesBefore immutable hosts tailCalls k = L.emitted.size := by
  rw [stagesBefore, h]

end Pipeline

/-! ## What an instruction leaves -/

/-- The row of stages that an operation leaves.  A label leaves none, and a branch is one stage. -/
def Op.Leaves (host : Option Host) (row : List Stage) : Op → Prop
  | .label _ => row = []
  | .branch condition _ =>
    ∃ (top : Nat) (offset : Int), row = [.branch (condition.toStage top) offset]
  | .invoke call =>
    ∃ stages, Host.stages? host call = some stages ∧ row = stages ++ [.setBasePointer]
  | op => ∃ (top : Nat) (topOf : Int → Nat), row = (op.stage? top topOf).toList

theorem Op.isBranch_of_stage? {op : Op} {top : Nat} {topOf : Int → Nat} {stage : Stage}
    (h : op.stage? top topOf = some stage) : stage.isBranch = false := by
  cases op with
  | pushSlots space => cases space <;> cases h <;> rfl
  | _ => cases h <;> rfl

/-- Only branches leave branches, apart from what a host supplies. -/
theorem Op.Leaves.of_branch {host : Option Host} {row : List Stage} {op : Op}
    (h : op.Leaves host row) {condition : StageCondition} {offset : Int}
    (hmem : .branch condition offset ∈ row) :
    (∃ call stages, op = .invoke call ∧ Host.stages? host call = some stages ∧
      .branch condition offset ∈ stages) ∨ ∃ c l, op = .branch c l := by
  cases op with
  | invoke call =>
    obtain ⟨stages, hstages, rfl⟩ := h
    exact .inl ⟨call, stages, rfl, hstages, by simpa using hmem⟩
  | branch c l => exact .inr ⟨c, l, rfl⟩
  | label l => exact absurd (h ▸ hmem) (List.not_mem_nil)
  | _ =>
    obtain ⟨top, topOf, rfl⟩ := h
    rw [Option.mem_toList] at hmem
    cases Op.isBranch_of_stage? hmem

namespace Lowering

variable {p : Pipeline} {host : Option Host} {tailCalls : Bool} {L L' : Lowering} {i : Instruction}

/-- The depths that a lowering has counted. -/
def depthOf (L : Lowering) (stack : Int) : Int := L.depths.getD stack.toNat 0

theorem nextFree_depthOf (L : Lowering) :
    RasterShader.nextFree p.stackBase L.depthOf = L.topOf p := by
  funext t
  rw [RasterShader.nextFree, depthOf, Int.toNat_natCast, Int.toNat_natCast, topOf]

/-- No rewind is due. -/
def Fresh (tailCalls : Bool) (L : Lowering) : Prop :=
  (!tailCalls && decide (rewindInterval ≤ L.emitted.size - L.lastRewind)) = false

/-- The lowering after the rewind that is due before an instruction, if one is. -/
def rewound (L : Lowering) (tailCalls : Bool) : Lowering :=
  if !tailCalls && decide (rewindInterval ≤ L.emitted.size - L.lastRewind) then L.rewind else L

theorem Fresh.rewound (h : L.Fresh tailCalls) : L.rewound tailCalls = L := by
  rw [Lowering.rewound, if_neg (Bool.eq_false_iff.1 h)]

theorem fresh_rewound (L : Lowering) (tailCalls : Bool) :
    (L.rewound tailCalls).Fresh tailCalls := by
  rw [rewound]
  split
  · rw [Fresh, rewind, Nat.sub_self]
    cases tailCalls <;> rfl
  · rename_i h
    exact Bool.eq_false_iff.2 h

theorem lowerInstruction_eq_ok_iff :
    L.lowerInstruction p host tailCalls i = .ok L' ↔
      ∃ L₁, (L.rewound tailCalls).lowerOp p host tailCalls i = .ok L₁ ∧ L' = L₁.moveTop i := by
  change ((L.rewound tailCalls).lowerOp p host tailCalls i >>= fun s => pure (s.moveTop i)) = _ ↔ _
  cases (L.rewound tailCalls).lowerOp p host tailCalls i with
  | error e => simp [bind, Except.bind]
  | ok L₁ => simp [bind, Except.bind, pure, Except.pure, eq_comm]

/-- Rewinds that were emitted, as a row. -/
theorem emitted_rewind (L : Lowering) (c : Bool) :
    (if c then L.rewind else L).emitted.toList =
      L.emitted.toList ++ (List.replicate c.toNat Stage.stackRewind).map .stage := by
  cases c <;> simp [rewind, emit]

theorem lastRewind_emitHost (L : Lowering) (stages : List Stage) :
    (L.emitHost stages).lastRewind = L.lastRewind := by
  have : (stages.foldl emit L).lastRewind = L.lastRewind := by
    induction stages generalizing L with
    | nil => rfl
    | cons stage stages ih => exact ih (L.emit stage)
  exact this

/-- Only a branch may be preceded by a rewind of its own. -/
theorem lastRewind_lowerOp (hi : i.op.branchTarget? = none)
    (h : L.lowerOp p host tailCalls i = .ok L') : L'.lastRewind = L.lastRewind := by
  obtain ⟨op, s⟩ := i
  cases op with
  | branch => cases hi
  | invoke call =>
    simp only [lowerOp] at h
    split at h
    · cases h
    · split at h
      · cases h
        exact lastRewind_emitHost ..
      · cases h
    · cases h
      exact lastRewind_emitHost ..
    · cases h
      exact lastRewind_emitHost ..
  | _ =>
    simp only [lowerOp] at h
    split at h
    · cases h
      rfl
    · cases h
      try rfl

theorem depthOf_rewound (L : Lowering) (tailCalls : Bool) :
    (L.rewound tailCalls).depthOf = L.depthOf := by
  rw [rewound]
  split <;> rfl

/-- The rewinds that an instruction needs are counted: one that is due, and one of its own. -/
theorem emitted_rewound (L : Lowering) (tailCalls : Bool) :
    ∃ due : Bool, (L.Fresh tailCalls → due = false) ∧ (L.rewound tailCalls).emitted.toList =
      L.emitted.toList ++ (List.replicate due.toNat Stage.stackRewind).map .stage :=
  ⟨_, id, emitted_rewind ..⟩

/-- Lowering an operation emits a rewind, if the operation needs one, and then its piece. -/
theorem emitted_lowerOp (h : L.lowerOp p host tailCalls i = .ok L') :
    ∃ back : Bool, (∀ call, i.op = .invoke call → (Host.stages? host call).isSome) ∧
      L'.emitted.toList = L.emitted.toList ++
        (List.replicate back.toNat Stage.stackRewind).map .stage ++
        (Piece.ofInstruction p.stackBase host L.depthOf i).emitted := by
  by_cases hbranch : i.op.branchTarget? = none
  · obtain ⟨hemitted, -, takes⟩ := lowerOp_eq_ok hbranch h
    refine ⟨false, takes, ?_⟩
    have hpiece : (L.stagesOf p host i).map Emitted.stage =
        (Piece.ofInstruction p.stackBase host L.depthOf i).emitted := by
      rw [stagesOf, Piece.ofInstruction, nextFree_depthOf]
      obtain ⟨op, s⟩ := i
      cases op with
      | branch => cases hbranch
      | _ => rfl
    rw [hemitted, hpiece]
    simp
  · obtain ⟨op, s⟩ := i
    cases op with
    | branch condition label =>
      simp only [lowerOp, Except.ok.injEq] at h
      subst h
      refine ⟨!tailCalls && (L.placed? label).isSome, by simp, ?_⟩
      rw [Array.toList_push, emitted_rewind, Piece.ofInstruction, nextFree_depthOf]
      rfl
    | _ => exact absurd rfl hbranch

/-- Lowering an instruction emits rewinds and then its piece, and one rewind at most if none is due
before it. -/
theorem emitted_lowerInstruction (h : L.lowerInstruction p host tailCalls i = .ok L') :
    ∃ rewinds, (L.Fresh tailCalls → rewinds ≤ 1) ∧
      (∀ call, i.op = .invoke call → (Host.stages? host call).isSome) ∧
      L'.emitted.toList = L.emitted.toList ++
        (List.replicate rewinds Stage.stackRewind).map .stage ++
        (Piece.ofInstruction p.stackBase host L.depthOf i).emitted := by
  obtain ⟨L₁, hL₁, rfl⟩ := lowerInstruction_eq_ok_iff.1 h
  obtain ⟨due, fresh, hdue⟩ := emitted_rewound L tailCalls
  obtain ⟨back, takes, hback⟩ := emitted_lowerOp hL₁
  refine ⟨due.toNat + back.toNat, fun hfresh => ?_, takes, ?_⟩
  · rw [fresh hfresh, Bool.toNat_false, Nat.zero_add]
    exact Bool.toNat_le back
  · rw [List.replicate_add, List.map_append, ← List.append_assoc, ← hdue,
      ← depthOf_rewound L tailCalls]
    exact hback

/-- No rewind is due after a label. -/
theorem Fresh.of_label (h : L.lowerInstruction p host tailCalls i = .ok L') {l : Int}
    (hl : i.op = .label l) : L'.Fresh tailCalls := by
  obtain ⟨L₁, hL₁, rfl⟩ := lowerInstruction_eq_ok_iff.1 h
  rcases labels_lowerOp hL₁ with ⟨n, -, -, rfl⟩ | ⟨hne, -⟩
  · exact fresh_rewound L tailCalls
  · exact absurd hl (hne l)

/-- No rewind becomes due as long as nothing is emitted. -/
theorem Fresh.of_size_eq (fresh : L.Fresh tailCalls)
    (h : L.lowerInstruction p host tailCalls i = .ok L')
    (hsize : L'.emitted.size = L.emitted.size) :
    L'.Fresh tailCalls := by
  obtain ⟨L₁, hL₁, rfl⟩ := lowerInstruction_eq_ok_iff.1 h
  rw [fresh.rewound] at hL₁
  by_cases hbranch : i.op.branchTarget? = none
  · have hlast : L₁.lastRewind = L.lastRewind := lastRewind_lowerOp hbranch hL₁
    rw [Fresh, hsize, show (L₁.moveTop i).lastRewind = L.lastRewind from hlast]
    exact fresh
  · -- a branch is emitted
    exfalso
    obtain ⟨op, s⟩ := i
    cases op with
    | branch condition label =>
      obtain ⟨back, -, hemitted⟩ := emitted_lowerOp hL₁
      have hlength := congrArg List.length hemitted
      simp only [Piece.ofInstruction, Piece.emitted, List.length_append, List.length_singleton,
        Array.length_toList] at hlength
      simp only [moveTop] at hsize
      omega
    | _ => exact hbranch rfl

theorem placed?_startOn (p : Pipeline) (immutable : Array UInt32) (l : Int) :
    (startOn p immutable).placed? l = none :=
  placed?_start l

end Lowering

/-- An operation leaves the row that its piece is laid out as. -/
theorem Op.leaves_of_laidAt {base : Nat → Nat} {host : Option Host} {depth : Int → Int}
    {i : Instruction} {L : Lowering} {place : Nat} {row : List Stage}
    (takes : ∀ call, i.op = .invoke call → (Host.stages? host call).isSome)
    (h : (Piece.ofInstruction base host depth i).LaidAt L place row) : i.op.Leaves host row := by
  obtain ⟨op, s⟩ := i
  cases op with
  | label l =>
    cases h
    rfl
  | branch condition l =>
    cases h
    exact ⟨_, _, rfl⟩
  | invoke call =>
    obtain ⟨stages, hstages⟩ := Option.isSome_iff_exists.1 (takes call rfl)
    cases h
    exact ⟨stages, hstages, by rw [hstages, Option.getD_some]⟩
  | _ =>
    cases h
    exact ⟨_, _, rfl⟩

namespace Pipeline

variable {p : Pipeline} {immutable : Array UInt32} {hosts : Nat → Option Host} {tailCalls : Bool}
  {L L' : Lowering} {lowered : Lowered} {k n : Nat}

/-! ## From one instruction to all -/

/-- The `k`-th instruction places a label. -/
def PlacesAt (p : Pipeline) (k : Nat) (l : Int) : Prop :=
  (p.instructions[k]?).map (·.op) = some (.label l)

/-- The `k`-th instruction branches to a label. -/
def BranchesAt (p : Pipeline) (k : Nat) (l : Int) : Prop :=
  ∃ condition, (p.instructions[k]?).map (·.op) = some (.branch condition l)

/-- What was emitted stays. -/
theorem emitted_lowerUpTo (hkn : k ≤ n) (hL : p.lowerUpTo immutable hosts tailCalls k = .ok L)
    (hL' : p.lowerUpTo immutable hosts tailCalls n = .ok L') :
    ∃ more, L'.emitted.toList = L.emitted.toList ++ more := by
  induction hkn generalizing L' with
  | refl =>
    cases hL.symm.trans hL'
    exact ⟨[], (List.append_nil _).symm⟩
  | step _ ih =>
    obtain ⟨M, hM, hstep⟩ := exists_of_lowerUpTo_succ hL'
    obtain ⟨more, hmore⟩ := ih hM
    rcases hstep with ⟨-, rfl⟩ | ⟨i, -, hi⟩
    · exact ⟨more, hmore⟩
    · obtain ⟨rewinds, -, -, hemitted⟩ := Lowering.emitted_lowerInstruction hi
      exact ⟨_, by rw [hemitted, hmore, List.append_assoc, List.append_assoc]⟩

theorem stagesBefore_le (hkn : k ≤ n) (hL' : p.lowerUpTo immutable hosts tailCalls n = .ok L') :
    p.stagesBefore immutable hosts tailCalls k ≤ L'.emitted.size := by
  obtain ⟨L, hL⟩ := exists_of_lowerUpTo hkn hL'
  obtain ⟨more, hmore⟩ := emitted_lowerUpTo hkn hL hL'
  rw [stagesBefore_eq hL, ← Array.length_toList, ← Array.length_toList, hmore, List.length_append]
  exact Nat.le_add_right ..

/-- A label that has been placed was placed where the stretch of an instruction ends. -/
theorem exists_placesAt (hL : p.lowerUpTo immutable hosts tailCalls k = .ok L) {l : Int}
    {target : Nat} (placed : L.placed? l = some target) :
    ∃ j < k, p.PlacesAt j l ∧ p.stagesBefore immutable hosts tailCalls (j + 1) = target := by
  induction k generalizing L with
  | zero =>
    cases hL
    rw [Lowering.placed?_startOn] at placed
    cases placed
  | succ k ih =>
    have earlier {M : Lowering} (hM : p.lowerUpTo immutable hosts tailCalls k = .ok M)
        (placed : M.placed? l = some target) : ∃ j < k + 1, p.PlacesAt j l ∧
          p.stagesBefore immutable hosts tailCalls (j + 1) = target := by
      obtain ⟨j, hj, hplaces⟩ := ih hM placed
      exact ⟨j, Nat.lt_succ_of_lt hj, hplaces⟩
    obtain ⟨M, hM, ⟨-, rfl⟩ | ⟨i, hget, hi⟩⟩ := exists_of_lowerUpTo_succ hL
    · exact earlier hM placed
    · rw [Lowering.placed?_lowerInstruction hi] at placed
      split at placed
      · rename_i hlabel
        refine ⟨k, Nat.lt_succ_self k, ?_, ?_⟩
        · rw [PlacesAt, hget, Option.map_some, hlabel]
        · rw [stagesBefore_eq hL, Option.some.inj placed]
      · exact earlier hM placed

/-- No rewind is due after a label until something has been emitted. -/
theorem fresh_of_placesAt (hL : p.lowerUpTo immutable hosts tailCalls k = .ok L) {j : Nat}
    (hj : j < k) {l : Int} (places : p.PlacesAt j l)
    (hsize : p.stagesBefore immutable hosts tailCalls (j + 1) = L.emitted.size) :
    L.Fresh tailCalls := by
  induction k generalizing L with
  | zero => cases hj
  | succ k ih =>
    obtain ⟨M, hM, hstep⟩ := exists_of_lowerUpTo_succ hL
    rcases Nat.lt_succ_iff_lt_or_eq.1 hj with hlt | rfl
    · -- nothing has been emitted between the label and here
      have hle : M.emitted.size ≤ L.emitted.size :=
        stagesBefore_eq hM ▸ stagesBefore_le (Nat.le_succ k) hL
      have hge : p.stagesBefore immutable hosts tailCalls (j + 1) ≤ M.emitted.size :=
        stagesBefore_le hlt hM
      have fresh := ih hM hlt (by omega)
      rcases hstep with ⟨-, rfl⟩ | ⟨i, -, hi⟩
      · exact fresh
      · exact fresh.of_size_eq hi (by omega)
    · rcases hstep with ⟨hnone, -⟩ | ⟨i, hget, hi⟩
      · rw [PlacesAt, hnone] at places
        cases places
      · rw [PlacesAt, hget, Option.map_some, Option.some.injEq] at places
        exact .of_label hi places

/-- Every place of the stages belongs to an instruction. -/
theorem exists_stretch_of_lt (hL : p.lowerUpTo immutable hosts tailCalls n = .ok L) {x : Nat}
    (hx : x < L.emitted.size) :
    ∃ k < n, (∃ i, p.instructions[k]? = some i) ∧
      p.stagesBefore immutable hosts tailCalls k ≤ x ∧
      x < p.stagesBefore immutable hosts tailCalls (k + 1) := by
  induction n generalizing L with
  | zero =>
    cases hL
    cases hx
  | succ n ih =>
    obtain ⟨M, hM, hstep⟩ := exists_of_lowerUpTo_succ hL
    rcases Nat.lt_or_ge x M.emitted.size with hlt | hge
    · obtain ⟨k, hk, hstretch⟩ := ih hM hlt
      exact ⟨k, Nat.lt_succ_of_lt hk, hstretch⟩
    · rcases hstep with ⟨-, rfl⟩ | ⟨i, hget, -⟩
      · omega
      · exact ⟨n, Nat.lt_succ_self n, ⟨i, hget⟩, stagesBefore_eq hM ▸ hge,
          stagesBefore_eq hL ▸ hx⟩

end Pipeline

/-! ## The stages of an instruction -/

/-- The stages from one place to another are rewinds, and then a row that an operation leaves. -/
structure Lowered.Stretch (lowered : Lowered) (host : Option Host) (op : Op) (first last : Nat)
    (rewinds : Nat) (row : List Stage) : Prop where
  leaves : op.Leaves host row
  stages : ∃ front back, lowered.stages.toList =
    front ++ (List.replicate rewinds .stackRewind ++ row) ++ back ∧ front.length = first
  length : first + rewinds + row.length = last

namespace Lowered.Stretch

variable {lowered : Lowered} {host : Option Host} {op : Op} {first last rewinds : Nat}
  {row : List Stage}

/-- A stage of a stretch that is no rewind belongs to its row. -/
theorem exists_getElem?_row (h : lowered.Stretch host op first last rewinds row) {x : Nat}
    (hle : first ≤ x) (hlt : x < last) {stage : Stage} (hx : lowered.stages[x]? = some stage)
    (hstage : stage ≠ .stackRewind) : ∃ n, x = first + rewinds + n ∧ row[n]? = some stage := by
  obtain ⟨front, back, hsplit, rfl⟩ := h.stages
  have hlength := h.length
  rw [← Array.getElem?_toList, hsplit, List.append_assoc, List.getElem?_append_right hle,
    List.append_assoc] at hx
  rcases Nat.lt_or_ge (x - front.length) rewinds with hrewind | hrow
  · rw [List.getElem?_append_left (by simpa using hrewind), List.getElem?_replicate,
      if_pos hrewind] at hx
    exact absurd (Option.some.inj hx).symm hstage
  · rw [List.getElem?_append_right (by simpa using hrow), List.length_replicate,
      List.getElem?_append_left (by omega)] at hx
    exact ⟨x - front.length - rewinds, by omega, hx⟩

end Lowered.Stretch

namespace Pipeline

variable {p : Pipeline} {immutable : Array UInt32} {hosts : Nat → Option Host} {tailCalls : Bool}
  {L : Lowering} {lowered : Lowered} {k : Nat}

theorem lowerWith_eq_ok (h : p.lowerWith immutable hosts tailCalls = .ok lowered) :
    ∃ L, p.lowerUpTo immutable hosts tailCalls p.instructions.length = .ok L ∧
      L.emitted.toList.zipIdx.mapM (fun (e, place) => L.resolve place e) =
        .ok lowered.stages.toList := by
  simp only [lowerWith, Lowering.finish, bind, Except.bind, pure, Except.pure] at h
  split at h
  · cases h
  · rename_i L hL
    refine ⟨L, hL, ?_⟩
    split at h
    · cases h
    · rename_i hstages
      cases h
      exact hstages

/-- Every instruction has its stretch, with one rewind at most where none is due. -/
theorem exists_stretch {i : Instruction}
    (hL : p.lowerUpTo immutable hosts tailCalls p.instructions.length = .ok L)
    (hstages : L.emitted.toList.zipIdx.mapM (fun (e, place) => L.resolve place e) =
      .ok lowered.stages.toList) (hget : p.instructions[k]? = some i) :
    ∃ rewinds row, lowered.Stretch (hosts k) i.op
        (p.stagesBefore immutable hosts tailCalls k)
        (p.stagesBefore immutable hosts tailCalls (k + 1)) rewinds row ∧
      (∀ j < k, ∀ l, p.PlacesAt j l → p.stagesBefore immutable hosts tailCalls (j + 1) =
        p.stagesBefore immutable hosts tailCalls k → rewinds ≤ 1) ∧
      ∀ condition l, i.op = .branch condition l → ∃ c target, L.placed? l = some target ∧
        row = [.branch c
          (target - (p.stagesBefore immutable hosts tailCalls k + rewinds : Nat))] := by
  have hk : k < p.instructions.length := (List.getElem?_eq_some_iff.1 hget).1
  obtain ⟨L₂, hL₂⟩ := exists_of_lowerUpTo (Nat.succ_le_of_lt hk) hL
  obtain ⟨L₁, hL₁, ⟨hnone, -⟩ | ⟨i', hget', hi⟩⟩ := exists_of_lowerUpTo_succ hL₂
  · rw [hnone] at hget
    cases hget
  obtain rfl : i' = i := Option.some.inj (hget'.symm.trans hget)
  obtain ⟨rewinds, single, takes, hemitted⟩ := Lowering.emitted_lowerInstruction hi
  obtain ⟨more, hmore⟩ := emitted_lowerUpTo (Nat.succ_le_of_lt hk) hL₂ hL
  -- the stages fall into those before, the rewinds, the row, and those after
  rw [hmore] at hstages
  obtain ⟨upTo, back, hsplit, hlength, hresolved, -⟩ := Lowering.resolve_append hstages
  rw [hemitted] at hresolved
  obtain ⟨first, row, rfl, hlength₁, hresolved₁, hrow⟩ := Lowering.resolve_append hresolved
  obtain ⟨front, due, rfl, hlength₂, -, hresolved₂⟩ := Lowering.resolve_append hresolved₁
  rw [mapM_resolve] at hresolved₂
  cases hresolved₂
  rw [Nat.zero_add, ← hlength₁] at hrow
  have laid := Piece.laidAt_of_resolve hrow
  rw [stagesBefore_eq hL₁, stagesBefore_eq hL₂]
  have hfront : front.length = L₁.emitted.size := by rw [hlength₂, Array.length_toList]
  have hsize : L₂.emitted.toList.length = L₂.emitted.size := Array.length_toList
  have hend : L₁.emitted.size + rewinds + row.length = L₂.emitted.size := by
    rw [← hsize, ← hlength, List.length_append, List.length_append,
      List.length_replicate, hfront]
  rw [List.length_append, List.length_replicate, hfront] at laid
  refine ⟨rewinds, row, ⟨Op.leaves_of_laidAt takes laid, ⟨front, back, ?_, hfront⟩, hend⟩,
    fun j hj l places hsize => single (fresh_of_placesAt hL₁ hj places hsize), ?_⟩
  · rw [hsplit, List.append_assoc front]
  · rintro condition l hop
    obtain ⟨op, s⟩ := i'
    obtain rfl : op = .branch condition l := hop
    cases laid with
    | branch _ placed => exact ⟨_, _, placed, rfl⟩

/-- A stage that is no rewind belongs to the row of an instruction. -/
theorem exists_row {x : Nat} {stage : Stage}
    (hL : p.lowerUpTo immutable hosts tailCalls p.instructions.length = .ok L)
    (hstages : L.emitted.toList.zipIdx.mapM (fun (e, place) => L.resolve place e) =
      .ok lowered.stages.toList) (hx : lowered.stages[x]? = some stage)
    (hstage : stage ≠ .stackRewind) :
    ∃ k i row, p.instructions[k]? = some i ∧
      p.stagesBefore immutable hosts tailCalls k ≤ x ∧
      x < p.stagesBefore immutable hosts tailCalls (k + 1) ∧
      i.op.Leaves (hosts k) row ∧ stage ∈ row := by
  have hsize : lowered.stages.size = L.emitted.size := by
    simpa using Lowering.length_resolve hstages
  have hlt : x < L.emitted.size := hsize ▸ (Array.getElem?_eq_some_iff.1 hx).1
  obtain ⟨k, -, ⟨i, hget⟩, hlow, hhigh⟩ := exists_stretch_of_lt hL hlt
  obtain ⟨rewinds, row, stretch, -, -⟩ := exists_stretch hL hstages hget
  obtain ⟨n, -, hn⟩ := stretch.exists_getElem?_row hlow hhigh hx hstage
  exact ⟨k, i, row, hget, hlow, hhigh, stretch.leaves, List.mem_of_getElem? hn⟩

/-- A branch stage is that of an instruction and leads to the end of the stretch of its label. -/
structure LandsOn (p : Pipeline) (before : Nat → Nat) (lowered : Lowered) (x : Nat) (offset : Int)
    (k : Nat) (l : Int) : Prop where
  own : p.BranchesAt k l
  place : x + 1 = before (k + 1)
  placed : ∃ j, p.PlacesAt j l
  target : ∀ j, p.PlacesAt j l → (x : Int) + offset = before (j + 1)
  inside : 0 ≤ (x : Int) + offset ∧ (x : Int) + offset ≤ lowered.stages.size

end Pipeline

/-- A branch that is taken and stays inside goes on where it leads to. -/
theorem Machine.runFrom_taken {lanes : Nat} {stages : Array Stage} {batch : Batch lanes}
    {m : Machine lanes} {x target : Nat} {condition : StageCondition} {offset : Int}
    (h : stages[x]? = some (.branch condition offset)) (htarget : (x : Int) + offset = target)
    (hle : target ≤ stages.size) (takes : m.takes batch condition = true) (fuel : Nat) :
    runFrom stages batch (fuel + 1) x m = runFrom stages batch fuel target m := by
  have hrange : ¬ ((target : Int) < 0 ∨ (stages.size : Int) < target) := by omega
  rw [runFrom_succ h]
  simp only [advance, takes, if_true, htarget, hrange, if_false, Int.toNat_natCast]

namespace Pipeline

variable {p : Pipeline} {immutable : Array UInt32} {hosts : Nat → Option Host} {tailCalls : Bool}
  {L : Lowering} {lowered : Lowered} {k : Nat}

/-- Lowering goes on to the end only if the labels of all branches are placed. -/
theorem exists_placesAt_of_branchesAt (h : p.lowerWith immutable hosts tailCalls = .ok lowered)
    {l : Int} (hk : p.BranchesAt k l) : ∃ j, p.PlacesAt j l := by
  obtain ⟨L, hL, hstages⟩ := lowerWith_eq_ok h
  obtain ⟨condition, hop⟩ := hk
  obtain ⟨i, hget, hi⟩ := Option.map_eq_some_iff.1 hop
  obtain ⟨rewinds, row, -, -, hbranch⟩ := exists_stretch hL hstages hget
  obtain ⟨c, target, placed, -⟩ := hbranch condition l hi
  obtain ⟨j, -, places, -⟩ := exists_placesAt hL placed
  exact ⟨j, places⟩

/-- The stage of a branch lands on its label, if every label is placed once at most. -/
theorem landsOn_of_branch (once : ∀ j j' l, p.PlacesAt j l → p.PlacesAt j' l → j = j')
    (hL : p.lowerUpTo immutable hosts tailCalls p.instructions.length = .ok L)
    (hstages : L.emitted.toList.zipIdx.mapM (fun (e, place) => L.resolve place e) =
      .ok lowered.stages.toList) {i : Instruction} (hget : p.instructions[k]? = some i)
    {condition : BranchCondition} {l : Int} (hi : i.op = .branch condition l) {x : Nat}
    {c : StageCondition} {offset : Int}
    (hlow : p.stagesBefore immutable hosts tailCalls k ≤ x)
    (hhigh : x < p.stagesBefore immutable hosts tailCalls (k + 1))
    (hx : lowered.stages[x]? = some (.branch c offset)) :
    p.LandsOn (p.stagesBefore immutable hosts tailCalls) lowered x offset k l := by
  obtain ⟨rewinds, row, stretch, -, hbranch⟩ := exists_stretch hL hstages hget
  obtain ⟨c', target, placed, rfl⟩ := hbranch condition l hi
  -- the only stage of the row
  obtain ⟨n, rfl, hn⟩ := stretch.exists_getElem?_row hlow hhigh hx (by simp)
  obtain rfl : n = 0 := by
    have := (List.getElem?_eq_some_iff.1 hn).1
    simpa using this
  obtain ⟨-, rfl⟩ := Stage.branch.inj (Option.some.inj hn)
  obtain ⟨j, hj, places, htarget⟩ := exists_placesAt hL placed
  have hsize : lowered.stages.size = L.emitted.size := by
    simpa using Lowering.length_resolve hstages
  have hle : p.stagesBefore immutable hosts tailCalls (j + 1) ≤ L.emitted.size :=
    stagesBefore_le hj hL
  have hplace : ((p.stagesBefore immutable hosts tailCalls k + rewinds + 0 : Nat) : Int) +
      (target - (p.stagesBefore immutable hosts tailCalls k + rewinds : Nat)) = target := by omega
  refine ⟨⟨condition, by rw [hget, Option.map_some, hi]⟩, ?_, ⟨j, places⟩, ?_, ?_⟩
  · rw [← stretch.length]
    rfl
  · intro j' places'
    obtain rfl := once j j' l places places'
    rw [hplace, htarget]
  · rw [hplace, hsize]
    omega

/-- Every instruction leaves a stretch of stages of its own, in the order of the instructions, and
at most one rewind stands between a label and what is emitted next.  If every label is placed once
at most, then each branch that does not come from a host leads to the end of the stretch of its
label, and a machine that takes it goes on there.  Nothing is lowered if a branch has no label. -/
theorem branches_lead_to_labels (p : Pipeline) (immutable : Array UInt32)
    (hosts : Nat → Option Host) (tailCalls : Bool)
    (once : ∀ j j' l, p.PlacesAt j l → p.PlacesAt j' l → j = j') :
    let before := p.stagesBefore immutable hosts tailCalls
    (∀ lowered, p.lowerWith immutable hosts tailCalls = .ok lowered →
      (before 0 = 0 ∧ before p.instructions.length = lowered.stages.size ∧
        ∀ k i, p.instructions[k]? = some i → ∃ rewinds row,
          lowered.Stretch (hosts k) i.op (before k) (before (k + 1)) rewinds row ∧
          ∀ j < k, ∀ l, p.PlacesAt j l → before (j + 1) = before k → rewinds ≤ 1) ∧
      ∀ x condition offset, lowered.stages[x]? = some (.branch condition offset) →
        (∃ k call, (p.instructions[k]?).map (·.op) = some (.invoke call) ∧
          before k ≤ x ∧ x < before (k + 1)) ∨
        ∃ k l, p.LandsOn before lowered x offset k l ∧
          ∀ (lanes : Nat) (batch : Batch lanes) (m : Machine lanes) (fuel j : Nat),
            p.PlacesAt j l → m.takes batch condition = true →
            Machine.runFrom lowered.stages batch (fuel + 1) x m =
              Machine.runFrom lowered.stages batch fuel (before (j + 1)) m) ∧
    ∀ k l, p.BranchesAt k l → (∀ j, ¬ p.PlacesAt j l) →
      ∃ e, p.lowerWith immutable hosts tailCalls = .error e := by
  intro before
  refine ⟨fun lowered h => ?_, fun k l hk unplaced => ?_⟩
  · obtain ⟨L, hL, hstages⟩ := lowerWith_eq_ok h
    have hsize : lowered.stages.size = L.emitted.size := by
      simpa using Lowering.length_resolve hstages
    refine ⟨⟨rfl, (stagesBefore_eq hL).trans hsize.symm, fun k i hget => ?_⟩,
      fun x condition offset hx => ?_⟩
    · obtain ⟨rewinds, row, stretch, single, -⟩ := exists_stretch hL hstages hget
      exact ⟨rewinds, row, stretch, single⟩
    · obtain ⟨k, i, row, hget, hlow, hhigh, leaves, hmem⟩ := exists_row hL hstages hx (by simp)
      rcases leaves.of_branch hmem with ⟨call, -, hcall, -⟩ | ⟨c, l, hop⟩
      · exact .inl ⟨k, call, by rw [hget, Option.map_some, hcall], hlow, hhigh⟩
      · have lands := landsOn_of_branch once hL hstages hget hop hlow hhigh hx
        refine .inr ⟨k, l, lands, fun lanes batch m fuel j places takes => ?_⟩
        have htarget := lands.target j places
        have hinside := lands.inside.2
        exact Machine.runFrom_taken hx htarget (by omega) takes fuel
  · cases h : p.lowerWith immutable hosts tailCalls with
    | error e => exact ⟨e, rfl⟩
    | ok lowered =>
      obtain ⟨j, places⟩ := exists_placesAt_of_branchesAt h hk
      exact absurd places (unplaced j)

/-- A loop that is left from its middle, and calls the host before and after. -/
def gatedLoop : Pipeline where
  instructions := [⟨.initLaneMasks, 0⟩, ⟨.label 0, 0⟩, ⟨.invoke .toLinearSrgb, 0⟩,
    ⟨.branch .noLanesActive 1, 0⟩, ⟨.invoke .toLinearSrgb, 0⟩, ⟨.branch .anyLanesActive 0, 0⟩,
    ⟨.label 1, 0⟩, ⟨.maskOffLoop, 0⟩]
  valueSlots := 0
  uniformSlots := 0
  immutableSlots := 0
  labelCount := 2
  stackDepths := [0]
  debugTrace := none

/-- A host that supplies more stages with every call. -/
def growingHost (k : Nat) : Option Host :=
  some ⟨fun _ _ => none, List.replicate (k - 2) .maskOffReturn, []⟩

theorem placesAt_gatedLoop {j : Nat} {l : Int} (h : gatedLoop.PlacesAt j l) :
    j = 1 ∧ l = 0 ∨ j = 6 ∧ l = 1 := by
  rcases j with _ | _ | _ | _ | _ | _ | _ | _ | j <;> simp_all [PlacesAt, gatedLoop]

theorem branchesAt_gatedLoop {k : Nat} {l : Int} (h : gatedLoop.BranchesAt k l) :
    k = 3 ∧ l = 1 ∨ k = 5 ∧ l = 0 := by
  obtain ⟨condition, h⟩ := h
  rcases k with _ | _ | _ | _ | _ | _ | _ | _ | k <;> simp_all [gatedLoop]

theorem invokes_gatedLoop {k : Nat} {call : HostCall}
    (h : (gatedLoop.instructions[k]?).map (·.op) = some (.invoke call)) : k = 2 ∨ k = 4 := by
  rcases k with _ | _ | _ | _ | _ | _ | _ | _ | k <;> simp_all [gatedLoop]

theorem branches_lead_to_labels_gatedLoop :
    (∀ j j' l, gatedLoop.PlacesAt j l → gatedLoop.PlacesAt j' l → j = j') ∧
      ∃ lowered, gatedLoop.lowerWith #[] growingHost false = .ok lowered ∧
        lowered.stages = #[.initLaneMasks, .setBasePointer, .branch .noLanesActive 6,
          .maskOffReturn, .maskOffReturn, .setBasePointer, .stackRewind,
          .branch .anyLanesActive (-6), .maskOffLoop] ∧
        gatedLoop.LandsOn (gatedLoop.stagesBefore #[] growingHost false) lowered 2 6 3 1 ∧
        gatedLoop.LandsOn (gatedLoop.stagesBefore #[] growingHost false) lowered 7 (-6) 5 0 := by
  have once : ∀ j j' l, gatedLoop.PlacesAt j l → gatedLoop.PlacesAt j' l → j = j' := by
    intro j j' l h h'
    have := placesAt_gatedLoop h
    have := placesAt_gatedLoop h'
    omega
  refine ⟨once, ?_⟩
  obtain ⟨lands, -⟩ := branches_lead_to_labels gatedLoop #[] growingHost false once
  cases hlowered : gatedLoop.lowerWith #[] growingHost false with
  | error e => cases hlowered
  | ok lowered =>
    obtain ⟨-, lands⟩ := lands lowered hlowered
    have hstages : lowered.stages = #[.initLaneMasks, .setBasePointer, .branch .noLanesActive 6,
        .maskOffReturn, .maskOffReturn, .setBasePointer, .stackRewind,
        .branch .anyLanesActive (-6), .maskOffLoop] := by
      cases hlowered
      rfl
    refine ⟨lowered, rfl, hstages, ?_, ?_⟩
    · rcases lands 2 .noLanesActive 6 (by rw [hstages]; rfl) with
        ⟨k, call, hcall, hlow, hhigh⟩ | ⟨k, l, landed, -⟩
      · exfalso
        obtain rfl | rfl := invokes_gatedLoop hcall
        · exact absurd hhigh (by decide)
        · exact absurd hlow (by decide)
      · obtain ⟨rfl, rfl⟩ | ⟨rfl, rfl⟩ := branchesAt_gatedLoop landed.own
        · exact landed
        · exact absurd landed.place (by decide)
    · rcases lands 7 .anyLanesActive (-6) (by rw [hstages]; rfl) with
        ⟨k, call, hcall, hlow, hhigh⟩ | ⟨k, l, landed, -⟩
      · exfalso
        obtain rfl | rfl := invokes_gatedLoop hcall <;> exact absurd hhigh (by decide)
      · obtain ⟨rfl, rfl⟩ | ⟨rfl, rfl⟩ := branchesAt_gatedLoop landed.own
        · exact absurd landed.place (by decide)
        · exact landed

end Pipeline

end RasterShader
