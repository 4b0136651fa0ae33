import Mathlib
import RasterShader.Machine.Run
import RasterShader.Proofs.Flow.Basic

/-!
# Stages act lane by lane

A lane of one machine agrees with a lane of another when both see the same: the same word in every
slot and register and the same masks (`Machine.LanesAgree`).  The machines may have different
numbers of lanes, and what stands in the other lanes is left open, so that
`Machine.LanesAgree.runFrom` is a statement of noninterference: a lane depends on other ones only
where a branch is taken for all lanes that the lane would not take by itself, or the other way round
(`Machine.accords`).  Stages without branches never let a lane depend on another one
(`Machine.straight_run_lane_by_lane`).

Most stages replace whole slots by vectors whose entry for a lane is made of entries for that lane,
and the loops over slots keep the agreement round by round.  Stages that scatter words go over the
lanes instead, and skip those that do not execute; there the two machines may skip different lanes,
and what is done for other lanes does not show in the lane that is looked at
(`LanesAgree.forActiveLanes`).  Host stages are not known, and are assumed to act lane by lane
(`HostStage.LaneWise`).
-/

namespace RasterShader

variable {lanes width : Nat} {l : Fin lanes} {k : Fin width}

/-! ## What a lane sees -/

/-- The colors that a lane has in the registers. -/
def Registers.lane (registers : Registers lanes) (l : Fin lanes) : Rgba UInt32 × Rgba UInt32 :=
  (registers.src.map (·.get l), registers.dst.map (·.get l))

/-- A host stage makes the colors of each lane of the colors of that lane. -/
def HostStage.LaneWise (stage : HostStage) : Prop :=
  ∀ {lanes : Nat} (l : Fin lanes) (r ρ : Registers lanes), r.lane l = ρ.lane l →
    (stage.run lanes r).lane l = (stage.run lanes ρ).lane l

/-- From the same colors in two lanes a host stage makes the same colors. -/
def HostStage.Relates (stage : HostStage) (l : Fin lanes) (k : Fin width) : Prop :=
  ∀ (r : Registers lanes) (ρ : Registers width), r.lane l = ρ.lane k →
    (stage.run lanes r).lane l = (stage.run width ρ).lane k

/-- A host stage makes the colors of each lane of the colors of that lane, in the same way whatever
the number of lanes is. -/
def HostStage.PerLane (stage : HostStage) : Prop :=
  ∀ {lanes width : Nat} (l : Fin lanes) (k : Fin width), stage.Relates l k

theorem HostStage.PerLane.laneWise {stage : HostStage} (h : stage.PerLane) : stage.LaneWise :=
  fun l => h l l

/-- What is computed from the colors of each lane is computed lane by lane. -/
theorem HostStage.perLane_ofLane (name : String) (f : (src dst : Rgba UInt32) → Rgba UInt32) :
    (HostStage.ofLane name f).PerLane := by
  intro lanes width l k r ρ h
  have hrun {lanes : Nat} (l : Fin lanes) (r : Registers lanes) :
      ((HostStage.ofLane name f).run lanes r).lane l =
        (f (r.lane l).1 (r.lane l).2, (r.lane l).2) := by
    simp [HostStage.ofLane, Registers.lane, Rgba.map]
  rw [hrun, hrun, h]

theorem HostStage.laneWise_ofLane (name : String) (f : (src dst : Rgba UInt32) → Rgba UInt32) :
    (HostStage.ofLane name f).LaneWise :=
  PerLane.laneWise fun l k => perLane_ofLane name f l k

/-- Two batches have the same data, as many pixels, and the same coordinates in a lane. -/
structure Batch.AgreesOn (l : Fin lanes) (batch β : Batch lanes) : Prop where
  active : batch.active = β.active
  immutable : batch.immutable = β.immutable
  uniforms : batch.uniforms = β.uniforms
  deviceX : batch.deviceX.get l = β.deviceX.get l
  deviceY : batch.deviceY.get l = β.deviceY.get l

/-- A lane of one batch has a pixel if a lane of another does, and the same data. -/
structure Batch.LanesAgree (l : Fin lanes) (k : Fin width) (batch : Batch lanes)
    (β : Batch width) : Prop where
  active : (l : Nat) < batch.active ↔ (k : Nat) < β.active
  immutable : batch.immutable = β.immutable
  uniforms : batch.uniforms = β.uniforms
  deviceX : batch.deviceX.get l = β.deviceX.get k
  deviceY : batch.deviceY.get l = β.deviceY.get k

theorem Batch.AgreesOn.lanesAgree {batch β : Batch lanes} (h : batch.AgreesOn l β) :
    batch.LanesAgree l l β :=
  ⟨by rw [h.active], h.immutable, h.uniforms, h.deviceX, h.deviceY⟩

namespace Words

theorem get_zipWith {α β γ : Type} (f : α → β → γ) (v : Vector α lanes) (w : Vector β lanes)
    (l : Fin lanes) : (v.zipWith f w).get l = f (v.get l) (w.get l) := by
  simp [Vector.get_eq_getElem]

/-- What a lane sees of one of some vectors, where there is none zero. -/
theorem get_getD (words : Array (Vector UInt32 lanes)) (i : Nat) (l : Fin lanes) :
    (words.getD i (Vector.replicate lanes 0)).get l = (words.map (·.get l)).getD i 0 := by
  simp only [Array.getD_eq_getD_getElem?, Array.getElem?_map]
  cases words[i]? <;> simp

/-- A word that is the same in all lanes. -/
theorem get_splat (x : UInt32) (l : Fin lanes) (k : Fin width) :
    (Vector.replicate lanes x).get l = (Vector.replicate width x).get k := by
  rw [Vector.get_replicate, Vector.get_replicate]

theorem get_set (v : Vector UInt32 lanes) (k l : Fin lanes) (x : UInt32) :
    (v.set k x k.isLt).get l = if k = l then x else v.get l := by
  rw [Vector.get_eq_getElem, Vector.getElem_set]
  by_cases h : k = l
  · rw [if_pos h, if_pos (congrArg Fin.val h)]
  · rw [if_neg h, if_neg (Fin.val_ne_of_ne h), Vector.get_eq_getElem]

end Words

namespace Machine

/-- Two machines have as many slots, and a lane sees the same in both of them. -/
structure AgreesOn (l : Fin lanes) (m μ : Machine lanes) : Prop where
  values : m.values.map (·.get l) = μ.values.map (·.get l)
  registers : m.registers.lane l = μ.registers.lane l
  condition : m.condition.get l = μ.condition.get l
  loop : m.loop.get l = μ.loop.get l
  returns : m.returns.get l = μ.returns.get l

/-- Machines with as many slots, such that a lane of the one sees what a lane of the other sees. -/
structure LanesAgree (l : Fin lanes) (k : Fin width) (m : Machine lanes) (μ : Machine width) :
    Prop where
  values : m.values.map (·.get l) = μ.values.map (·.get k)
  registers : m.registers.lane l = μ.registers.lane k
  condition : m.condition.get l = μ.condition.get k
  loop : m.loop.get l = μ.loop.get k
  returns : m.returns.get l = μ.returns.get k

theorem lanesAgree_iff {m μ : Machine lanes} : m.LanesAgree l l μ ↔ m.AgreesOn l μ :=
  ⟨fun h => ⟨h.values, h.registers, h.condition, h.loop, h.returns⟩,
    fun h => ⟨h.values, h.registers, h.condition, h.loop, h.returns⟩⟩

namespace LanesAgree

variable {m : Machine lanes} {μ : Machine width} {batch : Batch lanes} {β : Batch width}

/-! ## Reading -/

theorem size (h : m.LanesAgree l k μ) : m.values.size = μ.values.size := by
  simpa using congrArg Array.size h.values

theorem slot (h : m.LanesAgree l k μ) (i : Nat) : (m.slot i).get l = (μ.slot i).get k := by
  rw [Machine.slot, Machine.slot, Words.get_getD, Words.get_getD, h.values]

theorem executes (h : m.LanesAgree l k μ) : m.executes l = μ.executes k := by
  rw [Machine.executes, Machine.executes, h.condition, h.loop, h.returns]

theorem masked (h : m.LanesAgree l k μ) {old new : Vector UInt32 lanes}
    {old' new' : Vector UInt32 width} (hold : old.get l = old'.get k)
    (hnew : new.get l = new'.get k) : (m.masked old new).get l = (μ.masked old' new').get k := by
  simp only [Machine.masked, Vector.get_ofFn, h.executes, hold, hnew]

theorem mask (h : m.LanesAgree l k μ) (mask : Mask) :
    (m.mask mask).get l = (μ.mask mask).get k := by
  cases mask with
  | condition => exact h.condition
  | loop => exact h.loop
  | returns => exact h.returns

theorem read (h : m.LanesAgree l k μ) (hb : batch.LanesAgree l k β) (space : SlotSpace) (i : Nat) :
    m.read batch space i l = μ.read β space i k := by
  cases space with
  | value => exact h.slot i
  | uniform => simp only [Machine.read, hb.uniforms]
  | immutable => simp only [Machine.read, hb.immutable]

theorem input (h : m.LanesAgree l k μ) (hb : batch.LanesAgree l k β) (input : Input) :
    (m.input batch input).map (·.get l) = (μ.input β input).map (·.get k) := by
  obtain ⟨hsrc, hdst⟩ := Prod.mk.inj h.registers
  cases input with
  | color register =>
    cases register with
    | src => exact hsrc
    | dst => exact hdst
  | device => simp only [Machine.input, Rgba.map, hb.deviceX, hb.deviceY, Vector.get_replicate]

theorem gather (h : m.LanesAgree l k μ) (base count : Nat) :
    m.gather base count l = μ.gather base count k := by
  simp only [Machine.gather, h.slot]

/-! ## Writing -/

theorem setSlot (h : m.LanesAgree l k μ) (i : Nat) {w : Vector UInt32 lanes}
    {w' : Vector UInt32 width} (hw : w.get l = w'.get k) :
    (m.setSlot i w).LanesAgree l k (μ.setSlot i w') :=
  { h with values := by simp only [Machine.setSlot, Array.map_setIfInBounds, h.values, hw] }

theorem setMask (h : m.LanesAgree l k μ) (mask : Mask) {w : Vector UInt32 lanes}
    {w' : Vector UInt32 width} (hw : w.get l = w'.get k) :
    (m.setMask mask w).LanesAgree l k (μ.setMask mask w') := by
  cases mask with
  | condition => exact { h with condition := hw }
  | loop => exact { h with loop := hw }
  | returns => exact { h with returns := hw }

/-- Recording an event changes nothing that a lane sees, whether or not it is recorded. -/
theorem record (h : m.LanesAgree l k μ) (event event' : TraceEvent) :
    (m.record event).LanesAgree l k (μ.record event') := by
  have hrecord {lanes : Nat} (m : Machine lanes) (event : TraceEvent) :
      ∃ trace, m.record event = { m with trace } := by
    unfold Machine.record
    split
    · exact ⟨_, rfl⟩
    · exact ⟨m.trace, rfl⟩
  obtain ⟨trace, htrace⟩ := hrecord m event
  obtain ⟨trace', htrace'⟩ := hrecord μ event'
  rw [htrace, htrace']
  exact ⟨h.values, h.registers, h.condition, h.loop, h.returns⟩

/-- A word of one lane is written where a lane sees it, or not at all. -/
theorem map_get_setWord (m : Machine lanes) (i : Nat) (j l : Fin lanes) (x : UInt32) :
    (m.setWord i j x).values.map (·.get l) =
      if j = l then (m.values.map (·.get l)).setIfInBounds i x else m.values.map (·.get l) := by
  apply Array.ext_getElem?
  intro n
  split <;> rename_i hj
  · simp only [Machine.setWord, Array.getElem?_map, Array.getElem?_modify,
      Array.getElem?_setIfInBounds, Array.size_map]
    by_cases hin : i = n
    · subst hin
      cases hvalue : m.values[i]? with
      | none => simp [Array.getElem?_eq_none_iff.1 hvalue]
      | some v => simp [(Array.getElem?_eq_some_iff.1 hvalue).1, Words.get_set, hj]
    · simp [hin]
  · simp only [Machine.setWord, Array.getElem?_map, Array.getElem?_modify]
    split
    · cases m.values[n]? <;> simp [Words.get_set, hj]
    · rfl

theorem setWord (h : m.LanesAgree l k μ) (i : Nat) {x y : UInt32} (hx : x = y) :
    (m.setWord i l x).LanesAgree l k (μ.setWord i k y) :=
  ⟨by rw [map_get_setWord, map_get_setWord, if_pos rfl, if_pos rfl, h.values, hx], h.registers,
    h.condition, h.loop, h.returns⟩

/-- A word of another lane does not show. -/
theorem setWord_of_ne (m : Machine lanes) (i : Nat) {j : Fin lanes} (hj : j ≠ l) (x : UInt32) :
    (m.setWord i j x).LanesAgree l l m :=
  ⟨by rw [map_get_setWord, if_neg hj], rfl, rfl, rfl, rfl⟩

theorem refl (l : Fin lanes) (m : Machine lanes) : m.LanesAgree l l m :=
  ⟨rfl, rfl, rfl, rfl, rfl⟩

theorem trans {depth : Nat} {j : Fin depth} {κ : Machine depth} (h : m.LanesAgree l k μ)
    (h' : μ.LanesAgree k j κ) : m.LanesAgree l j κ :=
  ⟨h.values.trans h'.values, h.registers.trans h'.registers, h.condition.trans h'.condition,
    h.loop.trans h'.loop, h.returns.trans h'.returns⟩

theorem symm (h : m.LanesAgree l k μ) : μ.LanesAgree k l m :=
  ⟨h.values.symm, h.registers.symm, h.condition.symm, h.loop.symm, h.returns.symm⟩

/-! ## Loops -/

/-- Rounds that do not show do not show together. -/
theorem forEach_of_hidden (m : Machine lanes) (count : Nat)
    {f : Nat → Machine lanes → Machine lanes} (round : ∀ i m, (f i m).LanesAgree l l m) :
    (m.forEach count f).LanesAgree l l m := by
  induction count with
  | zero => exact .refl l m
  | succ count ih => exact (round count _).trans ih

/-- What is done for other lanes does not show. -/
theorem foldl_others {f : Fin lanes → Machine lanes → Machine lanes}
    (others : ∀ j ≠ l, ∀ m, (f j m).LanesAgree l l m) {js : List (Fin lanes)} (hl : l ∉ js)
    (m : Machine lanes) :
    (js.foldl (fun m j => if m.executes j then f j m else m) m).LanesAgree l l m := by
  induction js generalizing m with
  | nil => exact .refl l m
  | cons j js ih =>
    rw [List.mem_cons, not_or] at hl
    refine (ih hl.2 _).trans ?_
    dsimp only
    split
    · exact others j (Ne.symm hl.1) m
    · exact .refl l m

/-- A lane sees what is done for itself, if it executes, on a machine that it has not seen change
before. -/
theorem exists_forActiveLanes (m : Machine lanes) {f : Fin lanes → Machine lanes → Machine lanes}
    (others : ∀ j ≠ l, ∀ m, (f j m).LanesAgree l l m) :
    ∃ m', m'.LanesAgree l l m ∧
      (m.forActiveLanes f).LanesAgree l l (if m.executes l then f l m' else m') := by
  obtain ⟨before, after, hsplit⟩ := List.append_of_mem (List.mem_finRange l)
  obtain ⟨-, hnodup, hapart⟩ := List.nodup_append.1 (hsplit ▸ List.nodup_finRange lanes)
  have hbefore : l ∉ before := fun hmem => hapart l hmem l List.mem_cons_self rfl
  have hfirst := foldl_others others hbefore m
  refine ⟨_, hfirst, ?_⟩
  simp only [Machine.forActiveLanes, Fin.foldl_eq_finRange_foldl, hsplit, List.foldl_append,
    List.foldl_cons, ← hfirst.executes]
  exact foldl_others others (List.nodup_cons.1 hnodup).1 _

/-- Machines may execute in different other lanes. -/
theorem forActiveLanes (h : m.LanesAgree l k μ) {f : Fin lanes → Machine lanes → Machine lanes}
    {g : Fin width → Machine width → Machine width}
    (own : ∀ m' μ', m'.LanesAgree l k μ' → (f l m').LanesAgree l k (g k μ'))
    (others : ∀ j ≠ l, ∀ m', (f j m').LanesAgree l l m')
    (others' : ∀ j ≠ k, ∀ μ', (g j μ').LanesAgree k k μ') :
    (m.forActiveLanes f).LanesAgree l k (μ.forActiveLanes g) := by
  obtain ⟨m', hm, hrounds⟩ := exists_forActiveLanes m others
  obtain ⟨μ', hμ, hrounds'⟩ := exists_forActiveLanes μ others'
  have h' : m'.LanesAgree l k μ' := (hm.trans h).trans hμ.symm
  refine hrounds.trans (.trans ?_ hrounds'.symm)
  rw [h.executes]
  split
  · exact own m' μ' h'
  · exact h'

theorem fill (h : m.LanesAgree l k μ) (target count : Nat) {f : Nat → Vector UInt32 lanes}
    {g : Nat → Vector UInt32 width} (hwords : ∀ i, (f i).get l = (g i).get k) :
    (m.fill target count f).LanesAgree l k (μ.fill target count g) :=
  forEach_rel count h fun i _ _ _ h' => h'.setSlot (target + i) (hwords i)

theorem mapLanes (h : m.LanesAgree l k μ) (base consumed produced : Nat)
    (f : Array UInt32 → Array UInt32) :
    (m.mapLanes base consumed produced f).LanesAgree l k (μ.mapLanes base consumed produced f) :=
  h.fill base produced fun i => by simp only [Vector.get_map, Vector.get_ofFn, h.gather]

theorem copy (h : m.LanesAgree l k μ) (target source count : Nat) (masked : Bool) :
    (m.copy target source count masked).LanesAgree l k (μ.copy target source count masked) := by
  refine forEach_rel count h fun i _ m' μ' h' => h'.setSlot (target + i) ?_
  cases masked with
  | false => exact h'.slot (source + i)
  | true => exact h'.masked (h'.slot (target + i)) (h'.slot (source + i))

theorem scatter (h : m.LanesAgree l k μ) (target source : Nat) (components : List Nat) :
    (m.scatter target source components l).LanesAgree l k
      (μ.scatter target source components k) := by
  simp only [Machine.scatter]
  generalize components.zipIdx = places
  induction places generalizing m μ with
  | nil => exact h
  | cons place places ih => exact ih (h.setWord (target + place.1) (h.slot (source + place.2)))

theorem scatter_of_ne (m : Machine lanes) (target source : Nat) (components : List Nat)
    {j : Fin lanes} (hj : j ≠ l) : (m.scatter target source components j).LanesAgree l l m := by
  simp only [Machine.scatter]
  generalize components.zipIdx = places
  induction places generalizing m with
  | nil => exact .refl l m
  | cons place places ih => exact (ih _).trans (setWord_of_ne m _ hj _)

/-! ## Every stage -/

/-- A stage keeps the agreement on a lane. -/
theorem apply (h : m.LanesAgree l k μ) (hb : batch.LanesAgree l k β) (stage : Stage)
    (hstage : ∀ own, stage = .host own → own.Relates l k) :
    (m.apply batch stage).LanesAgree l k (μ.apply β stage) := by
  obtain ⟨hsrc, hdst⟩ := Prod.mk.inj h.registers
  cases stage with
  | initLaneMasks =>
    have hon : (Vector.ofFn fun lane : Fin lanes => Word.ofBool (lane < batch.active)).get l =
        (Vector.ofFn fun lane : Fin width => Word.ofBool (lane < β.active)).get k := by
      simp only [Vector.get_ofFn, hb.active]
    exact ⟨h.values, h.registers, hon, hon, hon⟩
  | storeCoords target =>
    obtain ⟨hr, hg, -, -⟩ := Rgba.mk.inj hsrc
    exact (h.setSlot target hr).setSlot (target + 1) hg
  | storeInput input target =>
    obtain ⟨hr, hg, hb, ha⟩ := Rgba.mk.inj (h.input hb input)
    exact (((h.setSlot target hr).setSlot (target + 1) hg).setSlot (target + 2) hb).setSlot
      (target + 3) ha
  | loadColor register source =>
    have hcolor := congr (congr (congr (congrArg Rgba.mk (h.slot source)) (h.slot (source + 1)))
      (h.slot (source + 2))) (h.slot (source + 3))
    cases register with
    | src => exact { h with registers := congrArg₂ Prod.mk hcolor hdst }
    | dst => exact { h with registers := congrArg₂ Prod.mk hsrc hcolor }
  | loadCoords source =>
    obtain ⟨-, -, hblue, halpha⟩ := Rgba.mk.inj hsrc
    have hcolor := congr (congr (congr (congrArg Rgba.mk (h.slot source)) (h.slot (source + 1)))
      hblue) halpha
    exact { h with registers := congrArg₂ Prod.mk hcolor hdst }
  | storeMask mask target => exact h.setSlot target (h.mask mask)
  | loadMask mask source => exact h.setMask mask (h.slot source)
  | mergeCondition inverted source =>
    refine { h with condition := ?_ }
    simp only [Machine.apply, Words.get_zipWith, h.slot]
  | mergeLoop source =>
    refine { h with loop := ?_ }
    simp only [Machine.apply, Words.get_zipWith, h.slot, h.loop]
  | reenableLoop source =>
    refine { h with loop := ?_ }
    simp only [Machine.apply, Words.get_zipWith, h.slot, h.loop]
  | maskOffLoop => exact { h with loop := h.masked h.loop (Words.get_splat 0 l k) }
  | maskOffReturn => exact { h with returns := h.masked h.returns (Words.get_splat 0 l k) }
  | continueLoop continueMask =>
    exact { h.setSlot continueMask (h.masked (h.slot continueMask) (Words.get_splat _ l k)) with
      loop := h.masked h.loop (Words.get_splat 0 l k) }
  | matchCase base value =>
    have hloop : (m.apply batch (.matchCase base value)).loop.get l =
        (μ.apply β (.matchCase base value)).loop.get k := by
      simp only [Machine.apply, Words.get_zipWith, h.slot, h.loop]
    refine { h.setSlot (base + 1) ?_ with loop := hloop }
    simp only [Words.get_zipWith, h.slot]
  | splat target count value => exact h.fill target count fun _ => Words.get_splat value l k
  | zeroSlots target count => exact h.fill target count fun _ => Words.get_splat 0 l k
  | copySlots target source count masked => exact h.copy target source count masked
  | copyUniform target source count =>
    exact h.fill target count fun i => by rw [hb.uniforms, Words.get_splat]
  | copyImmutable target source count =>
    exact h.fill target count fun i => by rw [hb.immutable, Words.get_splat]
  | copyFromIndirect target source count offset limit space =>
    refine forEach_rel count h fun i _ m' μ' h' => h'.setSlot (target + i) ?_
    simp only [Vector.get_ofFn, Vector.get_map, h.slot, h'.read hb]
  | copyToIndirect target source count offset limit =>
    refine h.forActiveLanes (fun m' μ' h' => ?_) (fun j hj m' => ?_) fun j hj m' => ?_
    · simp only [h'.slot offset]
      exact forEach_rel count h' fun i _ _ _ h'' => h''.setWord _ (h''.slot (source + i))
    all_goals exact forEach_of_hidden m' count fun i m'' => setWord_of_ne m'' _ hj _
  | swizzleCopy target source components =>
    exact h.forActiveLanes (fun m' μ' h' => h'.scatter target source components)
      (fun j hj m' => scatter_of_ne m' target source components hj)
      fun j hj m' => scatter_of_ne m' target source components hj
  | swizzleCopyToIndirect target source components offset limit =>
    refine h.forActiveLanes (fun m' μ' h' => ?_) (fun j hj m' => scatter_of_ne m' _ _ _ hj)
      fun j hj m' => scatter_of_ne m' _ _ _ hj
    simp only [h'.slot offset]
    exact h'.scatter _ source components
  | swizzle base consumed components =>
    simp only [Machine.apply, Array.size_map]
    refine h.fill base _ fun i => ?_
    simp only [Words.get_getD, Array.map_map, Function.comp_def, h.slot]
  | transpose base shape => exact h.mapLanes base _ _ _
  | diagonal base shape =>
    exact h.mapLanes base 1 shape.size fun x => Matrix.diagonal shape (x.getD 0 0)
  | resize base source target => exact h.mapLanes base _ _ _
  | multiply base left right => exact h.mapLanes base _ _ _
  | inverse base size => exact h.mapLanes base _ _ _
  | determinant base size =>
    exact h.mapLanes base (size * size) 1 fun x => #[Matrix.determinant size x]
  | dot base count => exact h.mapLanes base (2 * count) 1 fun x => #[Matrix.dot count x]
  | refract base => exact h.mapLanes base _ _ _
  | unary op ty target count =>
    refine forEach_rel count h fun i _ m' μ' h' => h'.setSlot (target + i) ?_
    simp only [Vector.get_map, h'.slot]
  | binary op ty target source count =>
    refine forEach_rel count h fun i _ m' μ' h' => h'.setSlot (target + i) ?_
    simp only [Words.get_zipWith, h'.slot]
  | binaryImm op ty target count bits =>
    refine forEach_rel count h fun i _ m' μ' h' => h'.setSlot (target + i) ?_
    simp only [Vector.get_map, h'.slot]
  | ternary op ty base count =>
    refine forEach_rel count h fun i _ m' μ' h' => h'.setSlot (base + i) ?_
    simp only [Words.get_zipWith, Vector.zip_eq_zipWith, h'.slot]
  | select target source count => exact h.copy target source count true
  | host own => exact { h with registers := hstage own rfl _ _ h.registers }
  | trace mark =>
    cases mark with
    | var range => exact forEach_rel range.count h fun i _ m' μ' h' => h'.record _ _
    | line | enter | exit | scope => exact h.record _ _
  | branch | stackRewind | setBasePointer => exact h

end LanesAgree

/-! ## Rows of stages -/

/-- A lane would take a branch with a condition if there were no other lanes. -/
def takesAlone (m : Machine lanes) (l : Fin lanes) : StageCondition → Bool
  | .always => true
  | .allLanesActive => m.executes l
  | .anyLanesActive => m.executes l
  | .noLanesActive => !m.executes l
  | .noLanesEqual slot value => !(m.executes l && (m.slot slot).get l == value)

/-- A stage is no branch that is taken for all lanes against what one lane would do by itself. -/
def accordsAt (m : Machine lanes) (batch : Batch lanes) (l : Fin lanes) : Stage → Bool
  | .branch condition _ => m.takes batch condition == m.takesAlone l condition
  | _ => true

/-- On its way through a program a machine never takes a branch against what one lane would do by
itself. -/
def accords (stages : Array Stage) (batch : Batch lanes) (l : Fin lanes) :
    (fuel place : Nat) → Machine lanes → Bool
  | 0, _, _ => true
  | fuel + 1, place, m =>
    match stages[place]? with
    | none => true
    | some stage =>
      m.accordsAt batch l stage &&
        match advance stages.size batch place m stage with
        | .inl (place, m) => accords stages batch l fuel place m
        | .inr _ => true

/-- It is enough to look at every stage of the program. -/
theorem accords_of_forall {stages : Array Stage} {batch : Batch lanes} {l : Fin lanes}
    (h : ∀ stage ∈ stages, ∀ m : Machine lanes, m.accordsAt batch l stage = true)
    (fuel place : Nat) (m : Machine lanes) : accords stages batch l fuel place m = true := by
  induction fuel generalizing place m with
  | zero => rfl
  | succ fuel ih =>
    rw [accords]
    split
    · rfl
    · rename_i stage hplace
      rw [h stage (Array.mem_of_getElem? hplace), Bool.true_and]
      split
      · exact ih _ _
      · rfl

/-- Without branches nothing is done against what a lane would do. -/
theorem accords_of_straight {stages : Array Stage}
    (straight : ∀ stage ∈ stages, stage.isBranch = false) (batch : Batch lanes) (l : Fin lanes)
    (fuel place : Nat) (m : Machine lanes) : accords stages batch l fuel place m = true := by
  refine accords_of_forall (fun stage hmem m => ?_) fuel place m
  have hbranch := straight stage hmem
  cases stage with
  | branch => cases hbranch
  | _ => rfl

theorem anyLane_iff {batch : Batch lanes} {p : Fin lanes → Bool} :
    anyLane batch p = true ↔ ∃ k : Fin lanes, (k : Nat) < batch.active ∧ p k = true := by
  rw [anyLane, Nat.any_eq_finRange_any, List.any_eq_true]
  constructor
  · rintro ⟨⟨k, hk⟩, -, hp⟩
    dsimp only at hp
    split at hp
    · exact ⟨_, hk, hp⟩
    · cases hp
  · rintro ⟨k, hk, hp⟩
    refine ⟨⟨k, hk⟩, List.mem_finRange _, ?_⟩
    dsimp only
    rwa [dif_pos k.isLt]

/-- Where all lanes with a pixel are alike, one of them tells whether there is one. -/
theorem anyLane_of_alike {batch : Batch lanes} {p : Fin lanes → Bool}
    (hl : (l : Nat) < batch.active)
    (alike : ∀ k : Fin lanes, (k : Nat) < batch.active → p k = p l) : anyLane batch p = p l := by
  rw [Bool.eq_iff_iff, anyLane_iff]
  constructor
  · rintro ⟨k, hk, hp⟩
    rwa [← alike k hk]
  · exact fun hp => ⟨l, hl, hp⟩

/-- A branch is taken against what a lane with a pixel would do only if another lane with a pixel
would do otherwise. -/
theorem takes_of_alike {batch : Batch lanes} (hl : (l : Nat) < batch.active) (m : Machine lanes)
    (condition : StageCondition)
    (alike : ∀ k : Fin lanes, (k : Nat) < batch.active →
      m.takesAlone k condition = m.takesAlone l condition) :
    m.takes batch condition = m.takesAlone l condition := by
  cases condition with
  | always => rfl
  | allLanesActive =>
    simp only [takes, takesAlone] at alike ⊢
    rw [anyLane_of_alike hl fun k hk => congrArg not (alike k hk), Bool.not_not]
  | anyLanesActive => exact anyLane_of_alike hl alike
  | noLanesActive | noLanesEqual =>
    simp only [takes, takesAlone, Bool.not_inj_iff] at alike ⊢
    exact anyLane_of_alike hl alike

/-- A single lane with a pixel decides for itself. -/
theorem takes_alone {batch : Batch 1} (hactive : 0 < batch.active) (m : Machine 1)
    (condition : StageCondition) : m.takes batch condition = m.takesAlone 0 condition :=
  takes_of_alike hactive m condition fun k _ => by rw [Subsingleton.elim k 0]

theorem accords_alone {batch : Batch 1} (hactive : 0 < batch.active) (stages : Array Stage)
    (fuel place : Nat) (m : Machine 1) : accords stages batch 0 fuel place m = true := by
  refine accords_of_forall (fun stage _ m => ?_) fuel place m
  cases stage with
  | branch condition => exact beq_iff_eq.2 (takes_alone hactive m condition)
  | _ => rfl

namespace LanesAgree

variable {m : Machine lanes} {μ : Machine width} {batch : Batch lanes} {β : Batch width}

theorem takesAlone (h : m.LanesAgree l k μ) (condition : StageCondition) :
    m.takesAlone l condition = μ.takesAlone k condition := by
  cases condition with
  | always => rfl
  | _ => simp only [Machine.takesAlone, h.executes, h.slot]

/-- A stage that is no branch runs in both machines or in neither, since they have as many slots. -/
theorem step (h : m.LanesAgree l k μ) (hb : batch.LanesAgree l k β) (stage : Stage)
    (hstage : ∀ own, stage = .host own → own.Relates l k) :
    (m.step batch stage).2 = (μ.step β stage).2 ∧
      (m.step batch stage).1.LanesAgree l k (μ.step β stage).1 := by
  unfold Machine.step
  rw [h.size]
  split
  · exact ⟨rfl, h⟩
  · exact ⟨rfl, h.apply hb stage hstage⟩

/-- What a stage leads to in two machines: the same place, or the same error. -/
inductive Led (l : Fin lanes) (k : Fin width) :
    (Nat × Machine lanes) ⊕ (Machine lanes × PipelineError) →
      (Nat × Machine width) ⊕ (Machine width × PipelineError) → Prop
  | on {m : Machine lanes} {μ : Machine width} (place : Nat) (h : m.LanesAgree l k μ) :
      Led l k (.inl (place, m)) (.inl (place, μ))
  | off {m : Machine lanes} {μ : Machine width} (e : PipelineError) (h : m.LanesAgree l k μ) :
      Led l k (.inr (m, e)) (.inr (μ, e))

/-- If no branch is taken against what the lanes would do, a stage leads to the same place in both
machines. -/
theorem advance (h : m.LanesAgree l k μ) (hb : batch.LanesAgree l k β) {stage : Stage}
    (hstage : ∀ own, stage = .host own → own.Relates l k)
    (accord : m.accordsAt batch l stage = true) (accord' : μ.accordsAt β k stage = true)
    (size place : Nat) :
    Led l k (Machine.advance size batch place m stage) (Machine.advance size β place μ stage) := by
  cases stage with
  | branch condition offset =>
    have htakes : m.takes batch condition = μ.takes β condition :=
      (beq_iff_eq.1 accord).trans ((h.takesAlone condition).trans (beq_iff_eq.1 accord').symm)
    simp only [Machine.advance, htakes]
    split
    · split
      · exact .off _ h
      · exact .on _ h
    · exact .on _ h
  | _ =>
    obtain ⟨herror, hstep⟩ := h.step hb _ hstage
    simp only [Machine.advance]
    generalize m.step batch _ = r at herror hstep
    generalize μ.step β _ = r' at herror hstep
    obtain ⟨m', e⟩ := r
    obtain ⟨μ', e'⟩ := r'
    obtain rfl : e = e' := herror
    cases e with
    | none => exact .on _ hstep
    | some e => exact .off e hstep

/-- Two runs that take no branch against what the lanes would do come to the same end. -/
theorem runFrom (h : m.LanesAgree l k μ) (hb : batch.LanesAgree l k β) {stages : Array Stage}
    (hosts : ∀ own, Stage.host own ∈ stages → own.Relates l k) {fuel place : Nat}
    (accord : accords stages batch l fuel place m = true)
    (accord' : accords stages β k fuel place μ = true) :
    (Machine.runFrom stages batch fuel place m).2 = (Machine.runFrom stages β fuel place μ).2 ∧
      (Machine.runFrom stages batch fuel place m).1.LanesAgree l k
        (Machine.runFrom stages β fuel place μ).1 := by
  induction fuel generalizing place m μ with
  | zero =>
    unfold Machine.runFrom
    cases stages[place]? with
    | none => exact ⟨rfl, h⟩
    | some stage => exact ⟨rfl, h⟩
  | succ fuel ih =>
    cases hplace : stages[place]? with
    | none =>
      rw [runFrom_end hplace, runFrom_end hplace]
      exact ⟨rfl, h⟩
    | some stage =>
      rw [runFrom_succ hplace, runFrom_succ hplace]
      simp only [accords, hplace, Bool.and_eq_true] at accord accord'
      obtain ⟨hstage, hrest⟩ := accord
      obtain ⟨hstage', hrest'⟩ := accord'
      have hled := h.advance hb
        (fun own hown => hosts own (hown ▸ Array.mem_of_getElem? hplace)) hstage hstage'
        stages.size place
      generalize Machine.advance stages.size batch place m stage = r at hled hrest ⊢
      generalize Machine.advance stages.size β place μ stage = r' at hled hrest' ⊢
      cases hled with
      | on place hnext => exact ih hnext hrest hrest'
      | off e hlast => exact ⟨rfl, hlast⟩

end LanesAgree

variable {m μ : Machine lanes} {batch β : Batch lanes}

/-- Stages without branches act lane by lane: of two runs with the same data that start with a lane
in the same state, the one comes to an error if the other does, and the lane is in the same state
when they end. -/
theorem straight_run_lane_by_lane {stages : List Stage}
    (straight : ∀ stage ∈ stages, stage.isBranch = false)
    (hosts : ∀ own, Stage.host own ∈ stages → own.LaneWise) (hb : batch.AgreesOn l β)
    (h : m.AgreesOn l μ) (fuel : Nat) :
    (runFrom stages.toArray batch fuel 0 m).2 = (runFrom stages.toArray β fuel 0 μ).2 ∧
      (runFrom stages.toArray batch fuel 0 m).1.AgreesOn l
        (runFrom stages.toArray β fuel 0 μ).1 := by
  have hstraight : ∀ stage ∈ stages.toArray, stage.isBranch = false := by simpa using straight
  obtain ⟨herror, hagrees⟩ := (lanesAgree_iff.2 h).runFrom hb.lanesAgree
    (fun own hown => hosts own (by simpa using hown) l)
    (accords_of_straight hstraight batch l fuel 0 m) (accords_of_straight hstraight β l fuel 0 μ)
  exact ⟨herror, lanesAgree_iff.1 hagrees⟩

/-- The first lanes of two machines hold other words, and only one of them executes; each stage of
the row moves words of the lanes that execute. -/
theorem straight_run_lane_by_lane_scattered :
    let own := HostStage.ofLane "exchange" fun src dst => ⟨src.g, src.r, dst.b, src.a⟩
    let stages : List Stage :=
      [.copyToIndirect 0 2 1 3 3, .swizzleCopy 0 2 [1, 0], .host own, .continueLoop 2,
        .storeCoords 0]
    let batch : Batch 2 := ⟨2, #[], #[7], #v[0, 1], #v[0, 0]⟩
    let color (x y : UInt32) : Rgba (Vector UInt32 2) := ⟨#v[x, 4], #v[x, 5], #v[y, 6], #v[y, 7]⟩
    let m : Machine 2 := ⟨#[#v[1, 10], #v[2, 20], #v[3, 30], #v[0, 1]], ⟨color 1 2, color 3 4⟩,
      #v[Word.allOnes, Word.allOnes], #v[Word.allOnes, Word.allOnes],
      #v[Word.allOnes, Word.allOnes], #[]⟩
    let μ : Machine 2 := ⟨#[#v[9, 10], #v[8, 20], #v[7, 30], #v[2, 1]], ⟨color 9 8, color 7 6⟩,
      #v[0, Word.allOnes], #v[Word.allOnes, Word.allOnes], #v[Word.allOnes, Word.allOnes], #[]⟩
    (∀ stage ∈ stages, stage.isBranch = false) ∧
      (∀ own, Stage.host own ∈ stages → own.LaneWise) ∧ batch.AgreesOn 1 batch ∧ m.AgreesOn 1 μ ∧
      (runFrom stages.toArray batch 5 0 m).2 = none ∧
      (runFrom stages.toArray batch 5 0 μ).2 = none ∧
      (runFrom stages.toArray batch 5 0 m).1.AgreesOn 1 (runFrom stages.toArray batch 5 0 μ).1 := by
  intro own stages batch color m μ
  have straight : ∀ stage ∈ stages, stage.isBranch = false := by simp [stages, Stage.isBranch]
  have hosts : ∀ own, Stage.host own ∈ stages → own.LaneWise := by
    simp only [stages, List.mem_cons, List.not_mem_nil, or_false, reduceCtorEq, false_or,
      Stage.host.injEq, forall_eq]
    exact HostStage.laneWise_ofLane _ _
  have hb : batch.AgreesOn 1 batch := ⟨rfl, rfl, rfl, rfl, rfl⟩
  have h : m.AgreesOn 1 μ := ⟨by simp [m, μ, Vector.get], rfl, rfl, rfl, rfl⟩
  have hrun := straight_run_lane_by_lane straight hosts hb h 5
  have hnone : (runFrom stages.toArray batch 5 0 m).2 = none := by decide +kernel
  exact ⟨straight, hosts, hb, h, hnone, hrun.1 ▸ hnone, hrun.2⟩

end Machine
end RasterShader
