import Mathlib
import RasterShader.Proofs.Codegen.Lvalues
import RasterShader.Proofs.Constant.Folding
import RasterShader.Proofs.Typing.Access
import RasterShader.Proofs.Typing.Operands

/-!
# Selections

Swizzles of swizzles choose from one source.  The code of the selection either evaluates the source
once and chooses among the words of its value (`Expr.IsSelection.exists_push`), or finds the place
of the source once and reads there what is chosen (`Expr.IsSelection.performs_push`).  So does the
code of what is made from the words of a selection (`Expr.MadeFrom`).
-/

namespace RasterShader

/-! ## Code that remakes the top of the stack -/

namespace GenM

/-- The computation adds code that turns `n` words on top of the stack into others, and changes
nothing else. -/
def Remakes (act : GenM Unit) (n : Nat)
    (make : ∀ {lanes : Nat}, List (Vector UInt32 lanes) → List (Vector UInt32 lanes)) : Prop :=
  act.Performs fun {lanes} _ _ s σ τ =>
    ∀ (υ : StackMachine lanes) (ws : List (Vector UInt32 lanes)),
      ws.length = n → σ = υ.push s ws → τ = υ.push s (make ws)

namespace Remakes

open Gen

variable {x y : GenM Unit} {n m : Nat}
  {f g : ∀ {lanes : Nat}, List (Vector UInt32 lanes) → List (Vector UInt32 lanes)}

theorem congr (h : x.Remakes n f) (heq : ∀ {lanes : Nat} (ws : List (Vector UInt32 lanes)),
    ws.length = n → f ws = g ws) : x.Remakes n g :=
  h.mono fun _ _ _ _ _ hτ υ ws hws hσ => (hτ υ ws hws hσ).trans (congrArg (υ.push _) (heq ws hws))

theorem pure (n : Nat) : Remakes (Pure.pure ()) n fun ws => ws :=
  Performs.pure fun _ _ _ _ _ _ _ hσ => hσ

theorem seq (hx : x.Remakes n f) (hy : y.Remakes m g)
    (hf : ∀ {lanes : Nat} (ws : List (Vector UInt32 lanes)), ws.length = n → (f ws).length = m) :
    Remakes (do x; y) n fun ws => g (f ws) :=
  Performs.seq hx hy fun _ _ _ _ _ _ hτ hυ υ ws hws hσ =>
    hυ υ (f ws) (hf ws hws) (hτ υ ws hws hσ)

/-- A swizzle chooses among the words that it consumes. -/
theorem swizzle {components : List Nat} (inside : ∀ c ∈ components, c < n ∧ c < 16)
    (few : components.length ≤ 16) :
    Remakes (build (·.swizzle n components)) n (Words.choose components) := by
  refine .build (fun _ => [Code.selection n components]) (by simp [Call.isData_selection])
    (fun b _ => Call.follows_swizzle b inside few) fun masked host batch s σ υ ws hws hσ => ?_
  rw [hσ, ← StackMachine.transform_push_self υ s hws]
  exact Code.exec_selection (fun c hc => (inside c hc).2) few host batch _

/-- A word that is the same in all lanes is pushed. -/
theorem pushConstant (bits : UInt32) (n : Nat) :
    Remakes (build (·.pushConstant bits 1)) n fun ws => ws ++ Words.alike [bits] := by
  refine .build (fun _ => Call.counted 1 (.pushConstant 1 bits))
    (fun _ => Call.isData_of_mem_counted rfl)
    (fun b _ => Call.follows_apply b (show (Call.pushConstant bits 1).Admissible from trivial)) ?_
  intro lanes masked host batch s σ υ ws hws hσ
  rw [hσ, ← StackMachine.push_push]
  rfl

/-- Words that are the same in all lanes are pushed one after the other. -/
theorem pushWords (words : List UInt32) (n : Nat) :
    (Operand.pushWords words).Remakes n fun ws => ws ++ Words.alike words := by
  induction words generalizing n with
  | nil => exact (pure n).congr fun ws _ => (List.append_nil ws).symm
  | cons word rest ih =>
    have hpush : Operand.pushWords (word :: rest) = (do
      build (·.pushConstant word 1)
      Operand.pushWords rest) := rfl
    rw [hpush]
    refine ((pushConstant word n).seq (ih (n + 1)) fun ws hws => by simp [hws]).congr fun ws _ => ?_
    rw [List.append_assoc, ← Words.alike_append]
    rfl

theorem discard (n : Nat) : Remakes (build (·.discard n)) n fun _ => [] := by
  refine .build (fun _ => Call.counted n (.discard n)) (fun _ => Call.isData_of_mem_counted rfl)
    (fun b _ => Call.follows_apply b (show (Call.discard n).Admissible from trivial)) ?_
  intro lanes masked host batch s σ υ ws hws hσ
  rw [Call.counted, StackMachine.push_nil]
  split
  · rename_i hn
    obtain rfl := List.length_eq_zero_iff.1 (hws.trans hn)
    exact hσ.trans (υ.push_nil s)
  · rw [hσ]
    show (υ.push s ws).pop s n = υ
    rw [StackMachine.pop_push_of_le υ s hws.ge, hws, Nat.sub_self, List.take_zero,
      StackMachine.push_nil]

end Remakes

end GenM

/-! ## Selections -/

/-- Scalars and vectors of up to four components. -/
def Ty.isComponents : Ty → Bool
  | .scalar _ => true
  | .vector _ columns => columns ≤ 4
  | _ => false

namespace Ty

variable {ty t : Ty}

theorem slotCount_of_isComponents (h : ty.isComponents = true) : ty.slotCount = ty.columns := by
  cases ty <;> first | rfl | cases h

theorem columns_le_of_isComponents (h : ty.isComponents = true) : ty.columns ≤ 4 := by
  cases ty with
  | scalar s => exact Nat.le_add_left 1 3
  | vector s columns => exact of_decide_eq_true h
  | _ => cases h

theorem isShaped_of_isComponents (h : ty.isComponents = true) : ty.isShaped = true := by
  cases ty <;> first | rfl | cases h

theorem isShaped_component_of_isComponents (h : ty.isComponents = true) :
    ty.component.isShaped = true := by
  cases ty <;> first | rfl | cases h

theorem component_component (h : ty.isComponents = true) :
    ty.component.component = ty.component := by
  cases ty <;> first | rfl | cases h

/-- The type of some components is that of the component, or a vector of it. -/
theorem isComponents_of_toCompound? {count : Nat} (hty : ty.isComponents = true)
    (h : ty.component.toCompound? count 1 = some t) :
    t.isComponents = true ∧ t.columns = count ∧ t.component = ty.component := by
  obtain ⟨s, hs⟩ : ∃ s, ty.component = .scalar s := by
    cases ty with
    | scalar s | vector s => exact ⟨s, rfl⟩
    | _ => cases hty
  have hself : (scalar s).component = scalar s := rfl
  rw [hs] at h ⊢
  rw [toCompound?, if_neg (by omega), hself] at h
  split_ifs at h with hone
  · obtain rfl := Option.some.inj h
    exact ⟨rfl, hone.symm, rfl⟩
  · simp only [vector?] at h
    split_ifs at h with hcount
    obtain rfl := Option.some.inj h
    simp only [Bool.and_eq_true, decide_eq_true_eq] at hcount
    exact ⟨decide_eq_true hcount.2, rfl, rfl⟩

end Ty

namespace Expr

/-- What swizzles choose from, one after the other. -/
def source : Expr → Expr
  | swizzle _ base _ => base.source
  | e => e

/-- The components of the source that are chosen in the end. -/
def chosen : Expr → List Nat
  | swizzle _ base components => components.map (base.chosen.getD · 0)
  | e => List.range e.ty.columns

/-- The place of what swizzles choose, given that of the source. -/
def view : Expr → Place → Place
  | swizzle _ base components, p => (base.view p).swizzle components
  | _, p => p

/-- Anything but a swizzle is its own source. -/
theorem source_of_ne_swizzle {e : Expr}
    (h : ∀ head base components, e = .swizzle head base components → False) :
    e.source = e ∧ e.chosen = List.range e.ty.columns ∧ ∀ p, e.view p = p := by
  cases e <;> first | exact ⟨rfl, rfl, fun _ => rfl⟩ | exact (h _ _ _ rfl).elim

/-- A scalar or vector, the swizzles of which name components that there are. -/
def IsSelection : Expr → Prop
  | swizzle h base components =>
    base.IsSelection ∧ (∀ c ∈ components, c < base.ty.columns) ∧ h.ty.isComponents = true ∧
      h.ty.columns = components.length ∧ h.ty.component = base.ty.component
  | e => e.ty.isComponents = true

theorem getD_map_of_lt {α β : Type} {f : α → β} {l : List α} {i : Nat} (h : i < l.length) (d : β)
    (d' : α) : (l.map f).getD i d = f (l.getD i d') := by
  rw [List.getD_eq_getElem _ _ (by rwa [List.length_map]), List.getElem_map,
    List.getD_eq_getElem _ _ h]

/-- Choosing every place in order changes nothing. -/
theorem map_getD_range {α : Type} {l : List α} {n : Nat} (h : l.length = n) (d : α) :
    (List.range n).map (l.getD · d) = l := by
  subst h
  refine List.ext_getElem (by simp) fun i hi hi' => ?_
  rw [List.getElem_map, List.getElem_range, List.getD_eq_getElem _ _ hi']

namespace IsSelection

variable {e base : Expr} {components : List Nat} {span : Span}

theorem isComponents (h : e.IsSelection) : e.ty.isComponents = true := by
  cases e with
  | swizzle => exact h.2.2.1
  | _ => exact h

theorem length_chosen (h : e.IsSelection) : e.chosen.length = e.ty.columns := by
  fun_cases chosen e with
  | case1 head base components =>
    rw [List.length_map]
    exact h.2.2.2.1.symm
  | case2 e hswizzle => exact List.length_range

theorem lt_of_mem_chosen (h : e.IsSelection) : ∀ c ∈ e.chosen, c < e.source.ty.columns := by
  fun_induction source e with
  | case1 head base components ih =>
    intro c hc
    obtain ⟨i, hi, rfl⟩ := List.mem_map.1 hc
    have hlt : i < base.chosen.length := h.1.length_chosen ▸ h.2.1 i hi
    rw [List.getD_eq_getElem _ _ hlt]
    exact ih h.1 _ (List.getElem_mem hlt)
  | case2 e hswizzle =>
    rw [(source_of_ne_swizzle hswizzle).2.1]
    exact fun c hc => List.mem_range.1 hc

theorem chosen_of_isIdentity (h : base.IsSelection)
    (hall : Typing.isIdentity components base.ty.columns = true) :
    base.chosen = components.map (base.chosen.getD · 0) := by
  rw [eq_of_beq hall, map_getD_range h.length_chosen]

/-- What is selected of a base is selected of its source, from among the components that the base
has chosen. -/
theorem select? (hbase : base.IsSelection) (inside : ∀ c ∈ components, c < base.ty.columns)
    (h : Typing.select? span components base = some e) :
    e.IsSelection ∧ e.source = base.source ∧
      e.chosen = components.map (base.chosen.getD · 0) ∧ e.ty.component = base.ty.component := by
  fun_induction Typing.select? span components base with
  | case1 components head inner innerComponents ih =>
    obtain ⟨t, -, h⟩ := Option.bind_eq_some_iff.1 h
    split_ifs at h with hall
    · obtain rfl := Option.some.inj h
      exact ⟨hbase, rfl, hbase.chosen_of_isIdentity hall, rfl⟩
    · obtain ⟨hinner, hcomponents, -, hcolumns, hcomponent⟩ := hbase
      have hlt : ∀ c ∈ components, c < innerComponents.length := by
        intro c hc
        exact hcolumns ▸ inside c hc
      have hgetD : ∀ c ∈ components, innerComponents[c]?.getD 0 = innerComponents.getD c 0 :=
        fun c _ => (List.getD_eq_getElem?_getD ..).symm
      obtain ⟨hselection, hsource, hchosen, hty⟩ := ih hinner (by
        intro c hc
        obtain ⟨i, hi, rfl⟩ := List.mem_map.1 hc
        rw [hgetD i hi, List.getD_eq_getElem _ _ (hlt i hi)]
        exact hcomponents _ (List.getElem_mem _)) h
      refine ⟨hselection, hsource, ?_, hty.trans hcomponent.symm⟩
      rw [hchosen, List.map_map]
      refine List.map_congr_left fun c hc => ?_
      rw [Function.comp_apply, hgetD c hc]
      exact (getD_map_of_lt (f := (inner.chosen.getD · 0)) (hlt c hc) 0 0).symm
  | case2 components base hswizzle =>
    obtain ⟨t, ht, h⟩ := Option.bind_eq_some_iff.1 h
    split_ifs at h with hall
    · obtain rfl := Option.some.inj h
      exact ⟨hbase, rfl, hbase.chosen_of_isIdentity hall, rfl⟩
    · obtain rfl := Option.some.inj h
      obtain ⟨hcomponents, hcolumns, hcomponent⟩ :=
        Ty.isComponents_of_toCompound? hbase.isComponents ht
      exact ⟨⟨hbase, inside, hcomponents, hcolumns, hcomponent⟩, rfl, rfl, hcomponent⟩

/-- Up to four components can be selected. -/
theorem exists_select? (h : base.IsSelection) (hpos : 0 < components.length)
    (hfour : components.length ≤ 4) (span : Span) :
    ∃ e, Typing.select? span components base = some e := by
  have hsome {ty : Ty} {count : Nat} (hty : ty.isComponents = true) (hpos : 0 < count)
      (hfour : count ≤ 4) : ∃ t, ty.component.toCompound? count 1 = some t :=
    Ty.toCompound?_isSome (Ty.isShaped_component_of_isComponents hty) hpos hfour
  fun_induction Typing.select? span components base with
  | case1 components head inner innerComponents ih =>
    obtain ⟨t, ht⟩ := hsome h.isComponents hpos hfour
    simp only [ht, Option.bind_eq_bind, Option.bind_some]
    split
    · exact ⟨_, rfl⟩
    · exact ih h.1 (by simpa using hpos) (by simpa using hfour)
  | case2 components base hswizzle =>
    obtain ⟨t, ht⟩ := hsome h.isComponents hpos hfour
    simp only [ht, Option.bind_eq_bind, Option.bind_some]
    split <;> exact ⟨_, rfl⟩

end IsSelection

end Expr

/-- Choosing among chosen words. -/
theorem Words.choose_choose {lanes : Nat} {outer inner : List Nat}
    (h : ∀ c ∈ outer, c < inner.length) (ws : List (Vector UInt32 lanes)) :
    choose outer (choose inner ws) = choose (outer.map (inner.getD · 0)) ws := by
  rw [choose, choose, choose, List.map_map]
  exact List.map_congr_left fun c hc => Expr.getD_map_of_lt (h c hc) ..

namespace Expr

variable {e base : Expr}

theorem baseVariable?_source (e : Expr) : e.source.baseVariable? = e.baseVariable? := by
  fun_induction source e with
  | case1 head base components ih => exact ih
  | case2 => rfl

/-- The code of a selection from a value evaluates the value once, and then chooses. -/
theorem IsSelection.exists_push (h : e.IsSelection) (hvalue : e.baseVariable? = none)
    (ctx : CodeContext) :
    ∃ act : GenM Unit, (e.operand ctx).push = (do (e.source.operand ctx).push; act) ∧
      act.Remakes e.source.ty.columns (Words.choose e.chosen) := by
  fun_induction source e with
  | case1 head base components ih =>
    obtain ⟨hbase, inside, hcomponents, hcolumns, -⟩ := h
    obtain ⟨act, hpush, hact⟩ := ih hbase hvalue
    have hcount := Ty.slotCount_of_isComponents hbase.isComponents
    have hbaseFour := Ty.columns_le_of_isComponents hbase.isComponents
    have hfour := hcolumns ▸ Ty.columns_le_of_isComponents hcomponents
    refine ⟨do act; Gen.build (·.swizzle base.ty.slotCount components), ?_, ?_⟩
    · have hoperand : ((swizzle head base components).operand ctx).push = (do
          (base.operand ctx).push
          Gen.build (·.swizzle base.ty.slotCount components)) := by
        rw [operand, if_neg (by simp [show base.baseVariable? = none from hvalue])]
      rw [hoperand, hpush, bind_assoc]
    · rw [hcount]
      have hchoose : GenM.Remakes (Gen.build (·.swizzle base.ty.columns components))
          base.ty.columns (Words.choose components) :=
        .swizzle (fun c hc => ⟨inside c hc, (inside c hc).trans_le (by omega)⟩) (by omega)
      refine (hact.seq hchoose fun ws _ => ?_).congr fun ws _ => ?_
      · rw [Words.length_choose, hbase.length_chosen]
      · refine Words.choose_choose (fun c hc => ?_) ws
        exact hbase.length_chosen ▸ inside c hc
  | case2 e hswizzle =>
    refine ⟨pure (), by simp, ?_⟩
    have hchosen := (source_of_ne_swizzle hswizzle).2.1
    exact (GenM.Remakes.pure _).congr fun ws hws => hchosen ▸ (map_getD_range hws _).symm

end Expr

/-! ## Selections from constants -/

/-- Choosing among the words of values. -/
theorem Words.choose_alike_map {lanes : Nat} (word : Float → UInt32) {components : List Nat}
    {values : List Float} (h : ∀ c ∈ components, c < values.length) :
    choose components (alike (values.map word) : List (Vector UInt32 lanes)) =
      alike ((components.map (values.getD · 0.0)).map word) := by
  rw [choose_alike, List.map_map]
  exact congrArg alike (List.map_congr_left fun c hc => Expr.getD_map_of_lt (h c hc) ..)

namespace Expr

variable {e : Expr} {values : List Float}

/-- A selection has a value at compile time only if its source does. -/
theorem constantValue?_source (h : e.source.constantValue? = none) : e.constantValue? = none := by
  fun_induction source e with
  | case1 head base components ih =>
    rw [constantValue?, ih h]
    rfl
  | case2 => exact h

/-- The value of a selection at compile time is chosen from that of the source. -/
theorem IsSelection.constantValue? (h : e.IsSelection)
    (hvalues : e.source.constantValue? = some values)
    (hlength : values.length = e.source.ty.columns) :
    e.constantValue? = some (e.chosen.map (values.getD · 0.0)) := by
  fun_induction source e with
  | case1 head base components ih =>
    have inside : ∀ c ∈ components, c < (base.chosen.map (values.getD · 0.0)).length := by
      rw [List.length_map, h.1.length_chosen]
      exact h.2.1
    rw [Expr.constantValue?, ih h.1 hvalues hlength, chosen, List.map_map]
    refine (mapM_getElem? inside).trans (congrArg some (List.map_congr_left fun c hc => ?_))
    exact getD_map_of_lt (by simpa using inside c hc) ..
  | case2 e hswizzle =>
    rw [hvalues, (source_of_ne_swizzle hswizzle).2.1, map_getD_range hlength]

end Expr

/-! ## The places of selections -/

namespace Location

variable {lanes : Nat} {l : Location} {part : SlotRange}

/-- The offset moves the slots at a location by as much as it says, and not past the limit. -/
def InRange (l : Location) (offset : UInt32) : Prop :=
  l.offsetStack.isSome = true →
    l.fixed.index + (Word.toInt offset).toNat + l.fixed.count ≤ l.limit

/-- The words at places that are counted from the start of a location. -/
def words (l : Location) (components : List Nat) (batch : Batch lanes) (σ : StackMachine lanes) :
    List (Vector UInt32 lanes) :=
  components.map fun c => Vector.ofFn fun lane =>
    σ.memory.read batch l.space (l.start (l.offset σ lane) l.fixed.count + c) lane

/-- An offset in range moves what lies at a location by the same as all of it. -/
theorem InRange.start_part {offset : UInt32} (h : l.InRange offset)
    (hindex : l.fixed.index ≤ part.index) (hstop : part.stop ≤ l.fixed.stop) :
    { l with fixed := part }.start offset part.count =
      l.start offset l.fixed.count + (part.index - l.fixed.index) := by
  unfold start
  cases hstack : l.offsetStack with
  | none =>
    show part.index = l.fixed.index + (part.index - l.fixed.index)
    omega
  | some stack =>
    have hlimit := h (by rw [hstack]; rfl)
    simp only [SlotRange.stop] at hstop
    simp only [Machine.indirectStart]
    omega

end Location

namespace Expr

/-- The code of a selection finds the place of the source once. -/
theorem place_operand (e : Expr) (ctx : CodeContext) :
    (e.operand ctx).place = do return e.view (← (e.source.operand ctx).place) := by
  fun_induction source e with
  | case1 head base components ih =>
    have hplace : ((swizzle head base components).operand ctx).place = do
        return (← (base.operand ctx).place).swizzle components := by
      rw [operand]
      split <;> rfl
    rw [hplace, ih]
    simp [view]
  | case2 e hswizzle =>
    simp [(source_of_ne_swizzle hswizzle).2.2]

namespace IsSelection

variable {e : Expr} {l : Location} {p : Place} {components : List Nat}

/-- The place of a selection shows what is chosen of the slots of the source. -/
theorem showsWithin (h : e.IsSelection) (picks : Place.Picks l p components)
    (hlength : components.length = e.source.ty.columns) :
    Place.ShowsWithin l (e.view p)
      (e.chosen.map ((components.map (l.fixed.index + ·)).getD · 0)) := by
  fun_induction source e with
  | case1 head base inner ih =>
    obtain ⟨hbase, inside, hcomponents, hcolumns, -⟩ := h
    have hbaseFour := Ty.columns_le_of_isComponents hbase.isComponents
    have hfour := hcolumns ▸ Ty.columns_le_of_isComponents hcomponents
    obtain ⟨fixed, shown, hpicks, hindex, hstop, hslots⟩ := ih hbase hlength
    have hshown : shown.length = base.ty.columns := by
      have hlengths := congrArg List.length hslots
      rwa [List.length_map, List.length_map, hbase.length_chosen] at hlengths
    obtain ⟨fixed', shown', hpicks', hindex', hstop', hslots'⟩ :=
      hpicks.swizzle (by omega) (by omega) (hshown ▸ inside)
    refine ⟨fixed', shown', hpicks', hindex.trans hindex', hstop'.trans hstop, hslots'.trans ?_⟩
    rw [hslots, chosen, List.map_map]
    exact List.map_congr_left fun c hc =>
      getD_map_of_lt (hbase.length_chosen ▸ inside c hc) ..
  | case2 e hswizzle =>
    obtain ⟨-, hchosen, hview⟩ := source_of_ne_swizzle hswizzle
    refine ⟨l.fixed, components, (hview p).symm ▸ picks, le_rfl, le_rfl, ?_⟩
    rw [hchosen, map_getD_range (by rwa [List.length_map])]

/-- Reading the place of a selection pushes what is chosen of the words of the source, in every
lane if the offset is in range there. -/
theorem performs_push (h : e.IsSelection) (picks : Place.Picks l p components)
    (hlength : components.length = e.source.ty.columns) :
    (Gen.pushPlace (e.view p)).Performs fun _ batch s σ τ =>
      (∀ lane, l.InRange (l.offset σ lane)) →
        τ = σ.push s (Words.choose e.chosen (l.words components batch σ)) := by
  obtain ⟨fixed, shown, hpicks, hindex, hstop, hslots⟩ := h.showsWithin picks hlength
  refine hpicks.performs_push.mono fun _ batch s σ τ hτ hrange => ?_
  -- Both are the words of the same slots, each moved by the offset.
  have hmoved (c start : Nat) :
      start + (fixed.index - l.fixed.index) + c = start + (fixed.index + c - l.fixed.index) := by
    omega
  let moved (slot : Nat) : Vector UInt32 _ := Vector.ofFn fun lane => σ.memory.read batch l.space
    (l.start (l.offset σ lane) l.fixed.count + (slot - l.fixed.index)) lane
  have hread : (shown.map (fixed.index + ·)).map moved = shown.map fun c => Vector.ofFn fun lane =>
      σ.memory.read batch l.space
        ({ l with fixed }.start (l.offset σ lane) fixed.count + c) lane := by
    rw [List.map_map]
    refine List.map_congr_left fun c _ => congrArg Vector.ofFn (funext fun lane => ?_)
    rw [(hrange lane).start_part hindex hstop, hmoved]
  have hchosen : (e.chosen.map ((components.map (l.fixed.index + ·)).getD · 0)).map moved =
      Words.choose e.chosen (l.words components batch σ) := by
    rw [List.map_map, Words.choose]
    refine List.map_congr_left fun c hc => ?_
    have hlt : c < components.length := hlength ▸ h.lt_of_mem_chosen c hc
    rw [List.getD_eq_getElem (l.words components batch σ) _ (by simpa [Location.words] using hlt),
      Function.comp_apply, List.getD_eq_getElem _ _ (by simpa using hlt)]
    simp [moved, Location.words]
  rw [hτ, ← hchosen, ← hslots, hread]
  rfl

end IsSelection

end Expr

/-! ## What is made from a value -/

namespace Expr

variable {ctx : CodeContext} {e base part : Expr}

/-- The code of an expression evaluates a base once and leaves words that are made from those of its
value.  It computes the source that the base selects from, or it finds the place of the source and
reads a part of it there; then all offsets have to be in range. -/
inductive MadeFrom (ctx : CodeContext) (e base : Expr)
    (make : ∀ {lanes : Nat}, List (Vector UInt32 lanes) → List (Vector UInt32 lanes)) : Prop
  | value {act : GenM Unit}
    (push : (e.operand ctx).push = (do (base.source.operand ctx).push; act))
    (remakes : act.Remakes base.source.ty.columns fun ws => make (Words.choose base.chosen ws))
  | place {view : Place → Place} {kept : List Nat} {act : GenM Unit}
    {rest : ∀ {lanes : Nat}, List (Vector UInt32 lanes) → List (Vector UInt32 lanes)}
    (push : (e.operand ctx).push = do
      let p ← (base.source.operand ctx).place
      Gen.pushPlace (view p)
      Gen.releasePlace (view p)
      act)
    (reads : ∀ (l : Location) (p : Place) (components : List Nat), Place.Picks l p components →
      components.length = base.source.ty.columns →
      (Gen.pushPlace (view p)).Performs fun _ batch s σ τ =>
        (∀ lane, l.InRange (l.offset σ lane)) →
          τ = σ.push s (Words.choose kept (l.words components batch σ)))
    (remakes : act.Remakes kept.length rest)
    (agree : ∀ {lanes : Nat} (ws : List (Vector UInt32 lanes)), ws.length = base.source.ty.columns →
      rest (Words.choose kept ws) = make (Words.choose base.chosen ws))

/-- What is made from a selection is made from any other one with the same source. -/
theorem IsSelection.madeFrom (h : part.IsSelection) (hsource : part.source = base.source)
    {act : GenM Unit}
    {rest make : ∀ {lanes : Nat}, List (Vector UInt32 lanes) → List (Vector UInt32 lanes)}
    (push : (e.operand ctx).push = (do (part.operand ctx).push; act))
    (remakes : act.Remakes part.ty.columns rest)
    (agree : ∀ {lanes : Nat} (ws : List (Vector UInt32 lanes)), ws.length = base.source.ty.columns →
      rest (Words.choose part.chosen ws) = make (Words.choose base.chosen ws)) :
    e.MadeFrom ctx base make := by
  have hvalue (first : GenM Unit) (hfirst : (part.operand ctx).push = (do
      (base.source.operand ctx).push; first))
      (hremakes : first.Remakes base.source.ty.columns (Words.choose part.chosen)) :
      e.MadeFrom ctx base make := by
    refine .value (push.trans (by rw [hfirst, bind_assoc])) ?_
    refine (hremakes.seq remakes fun ws _ => ?_).congr agree
    rw [Words.length_choose, h.length_chosen]
  cases hvariable : part.baseVariable? with
  | none =>
    obtain ⟨first, hfirst, hremakes⟩ := h.exists_push hvariable ctx
    exact hvalue first (hsource ▸ hfirst) (hsource ▸ hremakes)
  | some v =>
    by_cases hswizzle : ∀ head base components, part = .swizzle head base components → False
    · -- The source itself: its value is computed, whether it has a place or not.
      obtain ⟨hself, hchosen, -⟩ := source_of_ne_swizzle hswizzle
      refine hvalue (pure ()) (by rw [← hsource, hself, bind_pure]) ?_
      rw [← hsource, hself]
      exact (GenM.Remakes.pure _).congr fun ws hws => hchosen ▸ (map_getD_range hws _).symm
    · push Not at hswizzle
      obtain ⟨head, inner, components, rfl, -⟩ := hswizzle
      have hread : ((swizzle head inner components).operand ctx).push = (do
          let p ← ((swizzle head inner components).operand ctx).place
          Gen.pushPlace p
          Gen.releasePlace p) := by
        rw [operand, if_pos (by rw [show inner.baseVariable? = some v from hvariable]; rfl)]
        rfl
      have hpush : (e.operand ctx).push = (do
          let p ← (base.source.operand ctx).place
          Gen.pushPlace ((swizzle head inner components).view p)
          Gen.releasePlace ((swizzle head inner components).view p)
          act) := by
        rw [push, hread, place_operand, hsource]
        simp only [bind_assoc, pure_bind]
      exact .place hpush (fun l p cs hpicks hcs => h.performs_push hpicks (hsource ▸ hcs))
        (h.length_chosen ▸ remakes) agree

/-- The code of a selection leaves its own words. -/
theorem IsSelection.madeFrom_self (h : base.IsSelection) (ctx : CodeContext) :
    base.MadeFrom ctx base fun ws => ws :=
  h.madeFrom rfl (bind_pure _).symm (.pure _) fun _ _ => rfl

end Expr

end RasterShader
