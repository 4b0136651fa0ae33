import Mathlib
import RasterShader.Proofs.Flow.Basic

/-!
# Leaving stages out of a program

`Marks` say which places of a program are to be left out.  `Marks.place` is where each of the other
places ends up, and `Marks.erase` takes the marked stages out and leads every branch to where its
target has moved.

What is left runs as the program does (`Machine.runFrom_erase`), if the marked stages do nothing
that matters and no branch leads out of the program.  What matters is a relation between the
machines of the two runs that every other stage keeps (`Machine.Respects`).  The proof goes along
the run of the program: a marked stage is a step that the other run does not take, and leaves the
place where the other run stands.
-/

namespace RasterShader

variable {lanes : Nat}

/-! ## Marks -/

/-- The places of a list that are to be left out. -/
abbrev Marks := List Bool

namespace Marks

variable {α : Type}

/-- The members of a list at places without a mark. -/
def keep : Marks → List α → List α
  | false :: marks, x :: xs => x :: keep marks xs
  | true :: marks, _ :: xs => keep marks xs
  | _, _ => []

/-- Where a place ends up when the marked places before it are left out. -/
def place (marks : Marks) (n : Nat) : Nat := (marks.take n).count false

@[simp] theorem place_zero (marks : Marks) : marks.place 0 = 0 := rfl

@[simp] theorem place_cons_succ (mark : Bool) (marks : Marks) (n : Nat) :
    place (mark :: marks) (n + 1) = place marks n + if mark then 0 else 1 := by
  cases mark <;> simp [place]

theorem place_append_of_le {marks : Marks} {n : Nat} (h : n ≤ marks.length) (more : Marks) :
    place (marks ++ more) n = place marks n := by
  rw [place, List.take_append_of_le_length h, place]

theorem place_append_length_add (marks more : Marks) (n : Nat) :
    place (marks ++ more) (marks.length + n) = place marks marks.length + place more n := by
  rw [place, List.take_length_add_append, List.count_append, place, List.take_length, place]

theorem place_replicate_false {count n : Nat} (h : n ≤ count) :
    place (List.replicate count false) n = n := by
  rw [place, List.take_replicate, List.count_replicate_self]
  omega

theorem place_succ_of_marked {marks : Marks} {n : Nat} (h : marks[n]? = some true) :
    marks.place (n + 1) = marks.place n := by
  rw [place, place, List.take_add_one, h]
  simp

theorem place_succ_of_unmarked {marks : Marks} {n : Nat} (h : marks[n]? = some false) :
    marks.place (n + 1) = marks.place n + 1 := by
  rw [place, place, List.take_add_one, h]
  simp

theorem place_mono (marks : Marks) {m n : Nat} (h : m ≤ n) : marks.place m ≤ marks.place n :=
  (List.take_sublist_take_left h).count_le false

@[simp] theorem keep_nil (marks : Marks) : keep marks ([] : List α) = [] := by
  rcases marks with _ | ⟨mark, marks⟩
  · rfl
  · cases mark <;> rfl

theorem keep_append {marks : Marks} {xs : List α} (h : marks.length = xs.length) (more : Marks)
    (ys : List α) : keep (marks ++ more) (xs ++ ys) = keep marks xs ++ keep more ys := by
  induction xs generalizing marks with
  | nil =>
    obtain rfl := List.length_eq_zero_iff.1 h
    simp
  | cons x xs ih =>
    rcases marks with _ | ⟨mark, marks⟩
    · cases h
    · have ih := ih (Nat.succ.inj h)
      cases mark with
      | true => simpa only [List.cons_append, keep] using ih
      | false => simp only [List.cons_append, keep, ih]

theorem keep_replicate_false (xs : List α) : keep (List.replicate xs.length false) xs = xs := by
  induction xs with
  | nil => rfl
  | cons x xs ih => rw [List.length_cons, List.replicate_succ, keep, ih]

theorem length_keep {marks : Marks} {xs : List α} (h : marks.length = xs.length) :
    (keep marks xs).length = marks.place xs.length := by
  induction xs generalizing marks with
  | nil => simp
  | cons x xs ih =>
    rcases marks with _ | ⟨mark, marks⟩
    · cases h
    · have ih := ih (Nat.succ.inj h)
      cases mark with
      | true => rw [keep, ih, List.length_cons, place_cons_succ, if_pos rfl, Nat.add_zero]
      | false =>
        rw [keep, List.length_cons, ih, List.length_cons, place_cons_succ, if_neg (by decide)]

/-- What stands at a place without a mark is found where the place ends up. -/
theorem getElem?_keep {marks : Marks} {xs : List α} {n : Nat} (h : marks[n]? = some false) :
    (keep marks xs)[marks.place n]? = xs[n]? := by
  induction n generalizing marks xs with
  | zero =>
    rcases marks with _ | ⟨mark, marks⟩
    · cases h
    · obtain rfl : mark = false := by simpa using h
      cases xs <;> rfl
  | succ n ih =>
    rcases marks with _ | ⟨mark, marks⟩
    · cases h
    · have ih := @ih marks xs.tail (by simpa using h)
      rcases xs with _ | ⟨x, xs⟩
      · simp
      · cases mark with
        | true => simpa [keep] using ih
        | false => simpa [keep] using ih

end Marks

/-- A stage with its branch led to where the target has moved, for given new places. -/
def Stage.relocate (place : Nat → Nat) (old : Nat) : Stage → Stage
  | .branch condition offset =>
    .branch condition ((place (old + offset).toNat : Int) - place old)
  | stage => stage

@[simp] theorem Stage.relocate_of_not_branch {stage : Stage} (h : stage.isBranch = false)
    (place : Nat → Nat) (old : Nat) : stage.relocate place old = stage := by
  cases stage with
  | branch => cases h
  | _ => rfl

/-- A program without its marked stages. -/
def Marks.erase (marks : Marks) (stages : List Stage) : List Stage :=
  marks.keep (stages.zipIdx.map fun (stage, old) => stage.relocate marks.place old)

namespace Marks

variable {marks : Marks} {stages : List Stage}

theorem length_erase (h : marks.length = stages.length) :
    (marks.erase stages).length = marks.place stages.length := by
  rw [erase, length_keep (by simpa using h), List.length_map, List.length_zipIdx]

theorem getElem?_erase {n : Nat} {stage : Stage} (hmark : marks[n]? = some false)
    (hstage : stages[n]? = some stage) :
    (marks.erase stages)[marks.place n]? = some (stage.relocate marks.place n) := by
  rw [erase, getElem?_keep hmark, List.getElem?_map, List.getElem?_zipIdx, hstage]
  simp

end Marks

/-! ## Running what is left -/

namespace Machine

/-- A relation between machines that both keep when they run the same stage. -/
structure Respects (batch : Batch lanes) (R : Machine lanes → Machine lanes → Prop) : Prop where
  takes : ∀ {m m'}, R m m' → ∀ condition, m'.takes batch condition = m.takes batch condition
  step : ∀ {m m'}, R m m' → ∀ stage, (m'.step batch stage).2 = (m.step batch stage).2 ∧
    R (m.step batch stage).1 (m'.step batch stage).1

theorem respects_eq (batch : Batch lanes) : Respects batch Eq where
  takes := by
    rintro m _ rfl condition
    rfl
  step := by
    rintro m _ rfl stage
    exact ⟨rfl, rfl⟩

/-- A stage that does nothing that matters. -/
def Idle (batch : Batch lanes) (R : Machine lanes → Machine lanes → Prop) (stage : Stage) : Prop :=
  stage.isBranch = false ∧
    ∀ {m m'}, R m m' → (m.step batch stage).2 = none ∧ R (m.step batch stage).1 m'

/-- The branches of a program do not lead out of it. -/
def Closed (stages : Array Stage) : Prop := Contained stages.toList

variable {batch : Batch lanes} {R : Machine lanes → Machine lanes → Prop}

/-- Two machines go on at corresponding places, or have both ended with the same error. -/
abbrev Corresponds (R : Machine lanes → Machine lanes → Prop) (size : Nat) (place : Nat → Nat) :
    (Nat × Machine lanes) ⊕ (Machine lanes × PipelineError) →
      (Nat × Machine lanes) ⊕ (Machine lanes × PipelineError) → Prop :=
  Sum.LiftRel (fun next next' => next.1 ≤ size ∧ next'.1 = place next.1 ∧ R next.2 next'.2)
    fun stop stop' => stop'.2 = stop.2 ∧ R stop.1 stop'.1

/-- A stage and its relocation lead to corresponding places. -/
theorem corresponds_advance (respects : Respects batch R) {stages : List Stage} {marks : Marks}
    {old : Nat} {stage : Stage} {m m' : Machine lanes} (contained : Contained stages)
    (hmark : marks[old]? = some false) (hstage : stages[old]? = some stage) (related : R m m') :
    Corresponds R stages.length marks.place (advance stages.length batch old m stage)
      (advance (marks.place stages.length) batch (marks.place old) m'
        (stage.relocate marks.place old)) := by
  have hlt : old < stages.length := by
    by_contra hge
    rw [List.getElem?_eq_none (Nat.le_of_not_lt hge)] at hstage
    cases hstage
  have hnext : marks.place (old + 1) = marks.place old + 1 := Marks.place_succ_of_unmarked hmark
  cases stage with
  | branch condition offset =>
    obtain ⟨hlow, hhigh⟩ := contained old condition offset hstage
    obtain ⟨target, htarget⟩ := Int.eq_ofNat_of_zero_le hlow
    have hle : target ≤ stages.length := by omega
    have hplace : marks.place target ≤ marks.place stages.length := Marks.place_mono marks hle
    have hinside : ¬ ((old : Int) + offset < 0 ∨ (stages.length : Int) < old + offset) := by omega
    have hinside' : ¬ ((marks.place old : Int) + (marks.place target - marks.place old) < 0 ∨
        (marks.place stages.length : Int) <
          marks.place old + (marks.place target - marks.place old)) := by omega
    have hmoved : ((marks.place old : Int) + (marks.place target - marks.place old)).toNat =
        marks.place target := by omega
    simp only [advance, Stage.relocate, respects.takes related, htarget, Int.toNat_natCast] at *
    by_cases htakes : m.takes batch condition = true
    · simp only [htakes, if_true, hinside, hinside', if_false, hmoved]
      exact .inl ⟨hle, rfl, related⟩
    · simp only [htakes]
      exact .inl ⟨hlt, hnext.symm, related⟩
  | _ =>
    obtain ⟨herror, hrelated⟩ := respects.step related _
    simp only [Stage.relocate, advance]
    split
    · rename_i m₁ e hstep
      rw [hstep] at herror hrelated
      split
      · rename_i m₁' e' hstep'
        rw [hstep'] at herror hrelated
        obtain rfl := Option.some.inj herror
        exact .inr ⟨rfl, hrelated⟩
      · rename_i m₁' hstep'
        rw [hstep'] at herror
        cases herror
    · rename_i m₁ hstep
      rw [hstep] at herror hrelated
      split
      · rename_i m₁' e' hstep'
        rw [hstep'] at herror
        cases herror
      · rename_i m₁' hstep'
        rw [hstep'] at hrelated
        exact .inl ⟨hlt, hnext.symm, hrelated⟩

/-- A run that has ended is matched by one that leaves out the marked stages, in no more steps. -/
theorem runFrom_erase (respects : Respects batch R) {marks : Marks} {stages : Array Stage}
    (hlength : marks.length = stages.size) (closed : Closed stages)
    (idle : ∀ (old : Nat) (stage : Stage), marks[old]? = some true → stages[old]? = some stage →
      Idle batch R stage)
    {fuel old : Nat} {m m' : Machine lanes} (hold : old ≤ stages.size) (related : R m m')
    (ended : Ended (runFrom stages batch fuel old m)) :
    ∃ fuel' ≤ fuel,
      (runFrom (marks.erase stages.toList).toArray batch fuel' (marks.place old) m').2 =
        (runFrom stages batch fuel old m).2 ∧
      R (runFrom stages batch fuel old m).1
        (runFrom (marks.erase stages.toList).toArray batch fuel' (marks.place old) m').1 := by
  have hsize : (marks.erase stages.toList).toArray.size = marks.place stages.size := by
    rw [List.size_toArray, Marks.length_erase (by simpa using hlength), Array.length_toList]
  have hend (fuel : Nat) (m' : Machine lanes) :
      runFrom (marks.erase stages.toList).toArray batch fuel (marks.place stages.size) m' =
        (m', none) := runFrom_end (by rw [← hsize]; simp) fuel
  induction fuel generalizing old m m' with
  | zero =>
    rcases Nat.lt_or_eq_of_le hold with hlt | rfl
    · rw [runFrom_zero (Array.getElem?_eq_getElem hlt)] at ended
      exact absurd rfl (ended maxSteps)
    · rw [runFrom_end (by simp)]
      exact ⟨0, le_rfl, by rw [hend], by rwa [hend]⟩
  | succ fuel ih =>
    rcases Nat.lt_or_eq_of_le hold with hlt | rfl
    · have hstage : stages[old]? = some stages[old] := Array.getElem?_eq_getElem hlt
      rw [runFrom_succ hstage] at ended ⊢
      cases hmark : marks[old]? with
      | none => rw [List.getElem?_eq_none_iff] at hmark; omega
      | some mark =>
        cases mark with
        | true =>
          -- the other run stays where it is
          obtain ⟨hbranch, hidle⟩ := idle old _ hmark hstage
          obtain ⟨herror, hrelated⟩ := hidle related
          have hadvance : advance stages.size batch old m stages[old] =
              .inl (old + 1, (m.step batch stages[old]).1) := by
            generalize stages[old] = stage at hbranch herror
            cases stage with
            | branch => cases hbranch
            | _ =>
              simp only [advance]
              split
              · rename_i hstep
                rw [hstep] at herror
                cases herror
              · rename_i hstep
                rw [hstep]
          rw [hadvance] at ended ⊢
          obtain ⟨fuel', hle, hrun⟩ := ih hlt hrelated ended
          rw [Marks.place_succ_of_marked hmark] at hrun
          exact ⟨fuel', hle.trans (Nat.le_succ fuel), hrun⟩
        | false =>
          have hstage' : (marks.erase stages.toList).toArray[marks.place old]? =
              some (stages[old].relocate marks.place old) := by
            rw [List.getElem?_toArray]
            exact Marks.getElem?_erase hmark (by simp)
          have corresponds := corresponds_advance respects closed hmark
            (by rw [Array.getElem?_toList]; exact hstage) related
          rw [Array.length_toList, ← hsize] at corresponds
          generalize hadvance : advance stages.size batch old m stages[old] = next
            at ended corresponds ⊢
          generalize hadvance' : advance (marks.erase stages.toList).toArray.size batch
            (marks.place old) m' (stages[old].relocate marks.place old) = next' at corresponds
          cases corresponds with
          | inl hnext =>
            obtain ⟨hle, hplace, hrelated⟩ := hnext
            obtain ⟨fuel', hfuel, hrun⟩ := ih hle hrelated ended
            refine ⟨fuel' + 1, Nat.succ_le_succ hfuel, ?_⟩
            rw [runFrom_succ hstage', hadvance']
            simpa only [hplace] using hrun
          | inr hstop =>
            refine ⟨1, by omega, ?_⟩
            rw [runFrom_succ hstage', hadvance']
            exact ⟨by simp [hstop.1], hstop.2⟩
    · rw [runFrom_end (by simp)]
      exact ⟨0, Nat.zero_le _, by rw [hend], by rwa [hend]⟩

/-! ## Running over pixels -/

/-- A run over pixels has not met the limit of stages. -/
def Finished (result : SlotData lanes × Except PipelineError RunOutput) : Prop :=
  ∀ steps, result.2 ≠ .error (.tooManySteps steps)

/-- Two runs over pixels leave the same memory, and have failed alike or give related outputs. -/
inductive Alike (S : RunOutput → RunOutput → Prop) :
    SlotData lanes × Except PipelineError RunOutput →
      SlotData lanes × Except PipelineError RunOutput → Prop
  | error (data : SlotData lanes) (e : PipelineError) : Alike S (data, .error e) (data, .error e)
  | ok (data : SlotData lanes) {output output' : RunOutput} (related : S output output') :
    Alike S (data, .ok output) (data, .ok output')

theorem Alike.eq {result result' : SlotData lanes × Except PipelineError RunOutput}
    (h : Alike Eq result result') : result' = result := by
  cases h with
  | error data e => rfl
  | ok data related => rw [related]

theorem runBatch_eq {stages : Array Stage} {data : SlotData lanes} {pixels : Array Pixel}
    {result : Machine lanes × Option PipelineError}
    (h : runFrom stages (batchOf data pixels) maxSteps 0 (ofPixels data.values pixels) = result) :
    runBatch stages data pixels =
      ({ data with values := result.1.values },
        result.2.elim (.ok ⟨result.1.colors pixels.size, result.1.trace.toList⟩) .error) := by
  obtain ⟨m, _ | e⟩ := result <;> rw [runBatch, h] <;> rfl

/-- What two runs have in common: a relation between machines that every stage keeps, and one
between outputs that follows from it. -/
structure Likeness (lanes : Nat) where
  machines : Machine lanes → Machine lanes → Prop
  outputs : RunOutput → RunOutput → Prop
  refl : ∀ m, machines m m
  respects : ∀ batch, Respects batch machines
  values : ∀ {m m'}, machines m m' → m'.values = m.values
  output : ∀ {m m'}, machines m m' → ∀ count,
    outputs ⟨m.colors count, m.trace.toList⟩ ⟨m'.colors count, m'.trace.toList⟩
  append : ∀ {o o' b b'}, outputs o o' → outputs b b' → outputs (o.append b) (o'.append b')

/-- Two runs have all in common. -/
def Likeness.equal (lanes : Nat) : Likeness lanes where
  machines := Eq
  outputs := Eq
  refl _ := rfl
  respects := respects_eq
  values := by
    rintro m _ rfl
    rfl
  output := by
    rintro m _ rfl count
    rfl
  append := by
    rintro o _ b _ rfl rfl
    rfl

namespace Likeness

variable (like : Likeness lanes) {marks : Marks} {stages : Array Stage}

theorem runBatch (hlength : marks.length = stages.size) (closed : Closed stages)
    (idle : ∀ (old : Nat) (stage : Stage), marks[old]? = some true → stages[old]? = some stage →
      ∀ batch, Idle batch like.machines stage)
    {data : SlotData lanes} {pixels : Array Pixel}
    (finished : Finished (Machine.runBatch stages data pixels)) :
    Alike like.outputs (Machine.runBatch stages data pixels)
      (Machine.runBatch (marks.erase stages.toList).toArray data pixels) := by
  rw [runBatch_eq rfl] at finished ⊢
  rw [runBatch_eq rfl]
  generalize batchOf data pixels = batch at finished ⊢
  generalize ofPixels data.values pixels = m at finished ⊢
  have ended : Ended (runFrom stages batch maxSteps 0 m) := by
    intro steps herror
    exact finished steps (by simp only [herror, Option.elim_some])
  obtain ⟨fuel, hfuel, herror, hrelated⟩ := runFrom_erase (like.respects batch) hlength closed
    (fun old stage hmark hstage => idle old stage hmark hstage batch) (Nat.zero_le _)
    (like.refl m) ended
  rw [Marks.place_zero] at herror hrelated
  -- the other run, which has ended earlier, is not cut short by the limit either
  have ended' : Ended (runFrom (marks.erase stages.toList).toArray batch fuel 0 m) := by
    intro steps
    rw [herror]
    exact ended steps
  rw [runFrom_mono ended' hfuel, herror, like.values hrelated]
  cases (runFrom stages batch maxSteps 0 m).2 with
  | some e => exact .error _ e
  | none => exact .ok _ (like.output hrelated pixels.size)

/-- Runs over the same pixels have in common what the runs over each batch have. -/
theorem run (hlength : marks.length = stages.size) (closed : Closed stages)
    (idle : ∀ (old : Nat) (stage : Stage), marks[old]? = some true → stages[old]? = some stage →
      ∀ batch, Idle batch like.machines stage)
    {data : SlotData lanes} {output output' : RunOutput} (related : like.outputs output output')
    (pixels : List Pixel) (finished : Finished (Machine.run stages data output pixels)) :
    Alike like.outputs (Machine.run stages data output pixels)
      (Machine.run (marks.erase stages.toList).toArray data output' pixels) := by
  fun_induction Machine.run stages data output pixels generalizing output' with
  | case1 data output =>
    rw [Machine.run]
    exact .ok data related
  | case2 data output pixel rest data₁ e hbatch =>
    have alike := like.runBatch hlength closed idle (hbatch ▸ finished)
    rw [hbatch] at alike
    generalize hbatch' : Machine.runBatch (marks.erase stages.toList).toArray data
      (pixel :: rest.take (lanes - 1)).toArray = result at alike
    cases alike
    rw [Machine.run, hbatch']
    exact .error data₁ e
  | case3 data output pixel rest data₁ batch hbatch ih =>
    have finished₁ : Finished (Machine.runBatch stages data
        (pixel :: rest.take (lanes - 1)).toArray) := by
      simp [hbatch, Finished]
    have alike := like.runBatch hlength closed idle finished₁
    rw [hbatch] at alike
    generalize hbatch' : Machine.runBatch (marks.erase stages.toList).toArray data
      (pixel :: rest.take (lanes - 1)).toArray = result at alike
    cases alike with
    | ok _ hrelated =>
      rw [Machine.run, hbatch']
      exact ih (like.append related hrelated) finished

end Likeness

end Machine

end RasterShader
