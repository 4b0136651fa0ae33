import Mathlib
import RasterShader.Codegen.Generator
import RasterShader.Proofs.Code.Balance
import RasterShader.Proofs.Stack.Stages

/-!
# Immutable data stays as it was stored

Constant data is asked for by its words, and the ranges that are returned overlap wherever a run of
words occurs in the data that is there already.  The words themselves only get into the memory when
a lowering meets the instructions that store them, one slot each.

Three facts make this safe.  Data only grows at its end, so that a range that holds the requested
words goes on holding them (`SlotRange.Holds`).  No call of a builder makes, takes back or moves an
instruction that stores immutable data, but the one that stores it (`BuilderCall.stores_apply`), so
that there is one store for each slot, in order (`Gen.Stored`).  And a lowering makes all of them
(`Lowering.immutable_foldlM`).
-/

namespace RasterShader

/-! ## Stores of code -/

/-- The immutable slot that an operation stores to, and the word that it stores. -/
def Op.stored? : Op → Option (Nat × UInt32)
  | .storeImmutable slot bits => some (slot, bits)
  | _ => none

namespace Code

/-- The stores of code to immutable slots, the latest first. -/
def stores (code : Code) : List (Nat × UInt32) := code.filterMap (·.op.stored?)

/-- Stores are fixed operations. -/
theorem stores_eq (code : Code) : stores code = (fixed code).filterMap Op.stored? := by
  rw [fixed, List.filterMap_filter, List.filterMap_map]
  refine List.filterMap_congr fun i _ => ?_
  obtain ⟨op, s⟩ := i
  cases op <;> rfl

theorem stores_dropWhile {P : Instruction → Bool} (h : ∀ i, P i = true → i.op.stored? = none)
    (code : Code) : stores (code.dropWhile P) = stores code := by
  induction code with
  | nil => rfl
  | cons i code ih =>
    cases hi : P i with
    | false => rw [List.dropWhile_cons_of_neg (by simp [hi])]
    | true =>
      have hcons : stores (i :: code) = stores code := List.filterMap_cons_none (h i hi)
      rw [List.dropWhile_cons_of_pos hi, ih, hcons]

theorem stored?_of_branchTarget? {i : Instruction} {label : Int}
    (h : i.op.branchTarget? = some label) : i.op.stored? = none := by
  obtain ⟨op, s⟩ := i
  cases op with
  | storeImmutable => cases h
  | _ => rfl

end Code

namespace BuilderCall

/-- What a call stores to an immutable slot. -/
def stored? : BuilderCall → Option (Nat × UInt32)
  | flow (.data (.emit op)) => op.stored?
  | _ => none

/-- A call adds its own store to those of the code, and changes nothing else about them. -/
theorem stores_apply (call : BuilderCall) (b : Builder) :
    (call.apply b).code.stores = call.stored?.toList ++ b.code.stores := by
  have hlabel (l : Int) (i : Instruction) (h : (i.op.branchTarget? == some l) = true) :
      i.op.stored? = none := Code.stored?_of_branchTarget? (eq_of_beq h)
  cases call with
  | pad count =>
    rw [apply, Builder.pad, Builder.emitCounted]
    split <;> rfl
  | flow call =>
    cases call with
    | data call =>
      have hfixed : (call.apply b).code.stores =
          (call.fixed?.toList ++ Code.fixed b.code).filterMap Op.stored? := by
        rw [Code.stores_eq, call.fixed_apply]
      rw [Code.stores_eq b.code]
      refine hfixed.trans ((List.filterMap_append ..).trans (congrArg (· ++ _) ?_))
      cases call with
      | emit op => cases op <;> rfl
      | _ => rfl
    | nextLabel => rfl
    | label l => exact Code.stores_dropWhile (hlabel l) b.code
    | jump l =>
      rw [apply, FlowCall.apply, Builder.jump]
      split
      · rfl
      · refine Code.stores_dropWhile (fun i hi => hlabel l i ?_) b.code
        exact (Bool.and_eq_true_iff.1 hi).2
    | branch condition l =>
      rw [apply, FlowCall.apply, Builder.branch]
      split <;> rfl

end BuilderCall

/-! ## Lowering -/

/-- Stores a word to an immutable slot, if it is there. -/
def storeWord (words : Array UInt32) (store : Nat × UInt32) : Array UInt32 :=
  words.setIfInBounds store.1 store.2

/-- The operations that write are the stores. -/
theorem foldl_writeImmutable (instructions : List Instruction) (words : Array UInt32) :
    instructions.foldl (fun words i => i.op.writeImmutable words) words =
      (instructions.filterMap (·.op.stored?)).foldl storeWord words := by
  rw [List.foldl_filterMap]
  congr 1
  funext words i
  obtain ⟨op, s⟩ := i
  cases op <;> rfl

/-- A word for each slot, stored in order, is the data. -/
theorem foldl_storeWord_zipIdx (words : List UInt32) :
    (words.zipIdx.map Prod.swap).foldl storeWord (Array.replicate words.length 0) =
      words.toArray := by
  -- The slots behind the words that have been stored are still zero.
  have key (k : Nat) :
      (words.zipIdx.map Prod.swap).foldl storeWord (Array.replicate (words.length + k) 0) =
        (words ++ List.replicate k 0).toArray := by
    induction words using List.reverseRecOn generalizing k with
    | nil => simp
    | append_singleton words word ih =>
      have hlength : (words ++ [word]).length + k = words.length + (k + 1) := by
        rw [List.length_append, List.length_singleton, Nat.add_assoc, Nat.add_comm 1]
      rw [hlength, List.zipIdx_append, List.map_append, List.foldl_append, ih]
      simp [storeWord, List.replicate_succ]
  simpa using key 0

/-! ## Requests -/

/-- A range has the place of given words in data. -/
structure SlotRange.Holds (range : SlotRange) (data words : List UInt32) : Prop where
  count : range.count = words.length
  slice : (data.drop range.index).take range.count = words

theorem SlotRange.Holds.mono {range : SlotRange} {data data' words : List UInt32}
    (h : range.Holds data words) (hgrown : data <+: data') : range.Holds data' words := by
  refine ⟨h.count, ?_⟩
  have hwords : words <+: data'.drop range.index := by
    conv_lhs => rw [← h.slice]
    exact (List.take_prefix _ _).trans (hgrown.drop range.index)
  rw [h.count]
  exact (List.prefix_iff_eq_take.1 hwords).symm

theorem holds_of_findWords {words data : List UInt32} {index : Nat}
    (h : findWords words data = some index) : SlotRange.Holds ⟨index, words.length⟩ data words := by
  refine ⟨rfl, ?_⟩
  induction data generalizing index with
  | nil => cases h
  | cons w rest ih =>
    rw [findWords] at h
    split at h
    · rename_i hfront
      obtain rfl := Option.some.inj h
      exact (List.prefix_iff_eq_take.1 (List.isPrefixOf_iff_prefix.1 hfront)).symm
    · obtain ⟨i, hi, rfl⟩ := Option.map_eq_some_iff.1 h
      exact ih hi

/-- Stores words to the slots from `start` on. -/
def Builder.storeWords (b : Builder) (start : Nat) (words : List UInt32) : Builder :=
  words.zipIdx.foldl (fun b (word, i) => b.emit (.storeImmutable (start + i) word)) b

theorem Builder.stores_storeWords (b : Builder) (start : Nat) (words : List UInt32) :
    (b.storeWords start words).code.stores =
      ((words.zipIdx start).map Prod.swap).reverse ++ b.code.stores := by
  have key (k : Nat) (b : Builder) :
      ((words.zipIdx k).foldl (fun b (word, i) => b.emit (.storeImmutable (start + i) word))
        b).code.stores = ((words.zipIdx (start + k)).map Prod.swap).reverse ++ b.code.stores := by
    induction words generalizing k b with
    | nil => rfl
    | cons word words ih =>
      rw [List.zipIdx_cons, List.foldl_cons, ih, List.zipIdx_cons, List.map_cons, List.reverse_cons,
        List.append_assoc]
      rfl
  exact key 0 b

namespace Gen

/-- The instructions store the immutable data, one word after the other. -/
def Stored (g : Gen) : Prop := g.builder.code.stores.reverse = g.immutable.zipIdx.map Prod.swap

variable {g : Gen} {words : List UInt32}

theorem run_immutableSlots_nil (g : Gen) : (immutableSlots []).run g = .ok (⟨0, 0⟩, g) := rfl

theorem run_immutableSlots_of_some (hne : words ≠ []) {index : Nat}
    (h : findWords words g.immutable = some index) :
    (immutableSlots words).run g = .ok (⟨index, words.length⟩, g) := by
  have hempty : words.isEmpty = false := by simpa using hne
  simp only [immutableSlots, hempty, Bool.false_eq_true, if_false, StateT.run_bind, StateT.run_get,
    pure_bind, h]
  rfl

theorem run_immutableSlots_of_none (hne : words ≠ []) (h : findWords words g.immutable = none) :
    (immutableSlots words).run g = .ok (⟨g.immutable.length, words.length⟩,
      { g with
        builder := g.builder.storeWords g.immutable.length words
        immutable := g.immutable ++ words }) := by
  have hempty : words.isEmpty = false := by simpa using hne
  have hloop (start : Nat) (entries : List (UInt32 × Nat)) (g : Gen) :
      (forIn entries PUnit.unit fun entry _ => do
        build (·.emit (.storeImmutable (start + entry.2) entry.1))
        pure (.yield PUnit.unit) : GenM PUnit).run g =
      .ok (PUnit.unit, { g with
        builder := entries.foldl (fun b (word, i) => b.emit (.storeImmutable (start + i) word))
          g.builder }) := by
    induction entries generalizing g with
    | nil => rfl
    | cons entry entries ih =>
      rw [List.forIn_cons]
      exact ih _
  simp only [immutableSlots, hempty, Bool.false_eq_true, if_false, StateT.run_bind, StateT.run_get,
    pure_bind, h, hloop]
  rfl

/-- Whatever words are asked for, they are found or stored. -/
theorem Stored.exists_run (hg : g.Stored) (words : List UInt32) :
    ∃ range g', (immutableSlots words).run g = .ok (range, g') ∧
      range.Holds g'.immutable words ∧ g.immutable <+: g'.immutable ∧ g'.Stored := by
  by_cases hne : words = []
  · subst hne
    exact ⟨_, g, run_immutableSlots_nil g, ⟨rfl, rfl⟩, List.prefix_refl _, hg⟩
  · cases hfound : findWords words g.immutable with
    | some index =>
      exact ⟨_, g, run_immutableSlots_of_some hne hfound, holds_of_findWords hfound,
        List.prefix_refl _, hg⟩
    | none =>
      refine ⟨_, _, run_immutableSlots_of_none hne hfound, ⟨rfl, ?_⟩, List.prefix_append _ _, ?_⟩
      · rw [List.drop_left, List.take_length]
      · rw [Stored, Builder.stores_storeWords, List.reverse_append, List.reverse_reverse, hg,
          List.zipIdx_append, List.map_append, Nat.zero_add]

/-! ## Any requests and calls -/

/-- What may happen to immutable data and the builder. -/
inductive StoreCall where
  /-- Immutable slots are asked for that hold given words. -/
  | find (words : List UInt32)
  | build (call : BuilderCall)

/-- The words that are asked for. -/
def StoreCall.request? : StoreCall → Option (List UInt32)
  | find words => some words
  | build _ => none

/-- Makes calls, and gives the words and the range of each request. -/
def answers : List StoreCall → GenM (List (List UInt32 × SlotRange))
  | [] => return []
  | .find words :: calls => do
    let range ← immutableSlots words
    return (words, range) :: (← answers calls)
  | .build call :: calls => do
    build fun b => call.apply b
    answers calls

/-- All requests are answered, and the ranges hold the words in the end. -/
theorem Stored.exists_run_answers {calls : List StoreCall} (hg : g.Stored)
    (h : ∀ call, .build call ∈ calls → call.stored? = none) :
    ∃ out g', (answers calls).run g = .ok (out, g') ∧
      out.map Prod.fst = calls.filterMap StoreCall.request? ∧
      (∀ a ∈ out, a.2.Holds g'.immutable a.1) ∧ g.immutable <+: g'.immutable ∧ g'.Stored := by
  induction calls generalizing g with
  | nil => exact ⟨[], g, rfl, rfl, by simp, List.prefix_refl _, hg⟩
  | cons call calls ih =>
    have hrest : ∀ call, .build call ∈ calls → call.stored? = none :=
      fun call hcall => h call (List.mem_cons_of_mem _ hcall)
    cases call with
    | find words =>
      obtain ⟨range, g₁, hrun, hholds, hgrown, hg₁⟩ := hg.exists_run words
      obtain ⟨out, g', hout, hrequests, hall, hgrown', hg'⟩ := ih hg₁ hrest
      refine ⟨(words, range) :: out, g', ?_, ?_, ?_, hgrown.trans hgrown', hg'⟩
      · rw [answers, StateT.run_bind, hrun]
        show (answers calls >>= fun out => pure ((words, range) :: out) : GenM _).run g₁ = _
        rw [StateT.run_bind, hout]
        rfl
      · rw [List.map_cons, hrequests, List.filterMap_cons]
        rfl
      · exact List.forall_mem_cons.2 ⟨hholds.mono hgrown', hall⟩
    | build call =>
      have hg₁ : Stored { g with builder := call.apply g.builder } := by
        have hstores := call.stores_apply g.builder
        rw [h call List.mem_cons_self] at hstores
        rw [Stored, hstores]
        exact hg
      exact ih hg₁ hrest

/-- A lowering on fresh memory leaves the immutable data there, slot for slot. -/
theorem Stored.immutable_lowered (hg : g.Stored) {valueSlots uniformSlots lanes : Nat}
    {debugTrace : Option DebugTrace} {p : Pipeline} {host : Option Host} {tailCalls : Bool}
    {lowered : Lowered}
    (hp : Pipeline.ofBuilder g.builder valueSlots uniformSlots g.immutable.length debugTrace = .ok p)
    (h : p.lowerOn (p.allocate lanes) host tailCalls = .ok lowered) :
    lowered.immutable = g.immutable.toArray := by
  have holds := Pipeline.Holds.of_ofBuilder hp
  have hstart : (Lowering.startOn p (p.allocate lanes).immutable).immutable =
      Array.replicate g.immutable.length 0 := by
    simp [Lowering.startOn, Pipeline.allocate, SlotData.zero, holds.immutableSlots]
  simp only [Pipeline.lowerOn, Pipeline.lowerFrom, bind, Except.bind, pure, Except.pure] at h
  split at h
  · cases h
  · rename_i L hL
    split at h
    · cases h
    · cases h
      rw [Lowering.immutable_foldlM hL, foldl_writeImmutable, hstart, holds.instructions,
        Builder.instructions, List.filterMap_reverse, ← foldl_storeWord_zipIdx, ← hg]
      rfl

/-- Whatever is asked for and whatever else the builder is called for, each range that is returned
holds the words that were asked for from then on.  When the instructions have been finished and
lowered, the memory has the same data, and the words are read from the slots of the range. -/
theorem immutable_data_intact (trace : Bool) (calls : List StoreCall)
    (h : ∀ call, .build call ∈ calls → call.stored? = none) :
    ∃ out g, (answers calls).run (start trace) = .ok (out, g) ∧
      out.map Prod.fst = calls.filterMap StoreCall.request? ∧
      (∀ a ∈ out, a.2.Holds g.immutable a.1) ∧
      ∀ {valueSlots uniformSlots : Nat} {debugTrace : Option DebugTrace} {p : Pipeline},
        Pipeline.ofBuilder g.builder valueSlots uniformSlots g.immutable.length debugTrace =
          .ok p →
        ∀ {lanes : Nat} {host : Option Host} {tailCalls : Bool} {lowered : Lowered},
          p.lowerOn (p.allocate lanes) host tailCalls = .ok lowered →
          ∀ (uniforms : List UInt32),
            let data := p.loadOn lowered (p.allocate lanes) uniforms
            data.immutable.toList = g.immutable ∧
            ∀ a ∈ out, ∀ (m : Machine lanes) (pixels : Array Pixel) (lane : Fin lanes) (i : Nat)
              (hi : i < a.1.length),
              m.read (Machine.batchOf data pixels) .immutable (a.2.index + i) lane = a.1[i] := by
  have hstart : (start trace).Stored := rfl
  obtain ⟨out, g, hrun, hrequests, hholds, -, hg⟩ := hstart.exists_run_answers h
  refine ⟨out, g, hrun, hrequests, hholds, ?_⟩
  intro valueSlots uniformSlots debugTrace p hp lanes host tailCalls lowered hlowered uniforms data
  have himmutable : data.immutable = g.immutable.toArray := hg.immutable_lowered hp hlowered
  refine ⟨by rw [himmutable], ?_⟩
  rintro ⟨words, range⟩ ha m pixels lane i hi
  obtain ⟨hcount, hslice⟩ := hholds _ ha
  have hword : g.immutable[range.index + i]? = some words[i] := by
    rw [← List.getElem?_drop, ← List.getElem?_take_of_lt (hcount ▸ hi : i < range.count), hslice,
      List.getElem?_eq_getElem hi]
  show data.immutable.getD (range.index + i) 0 = words[i]
  rw [himmutable, Array.getD_eq_getD_getElem?, List.getElem?_toArray, hword, Option.getD_some]

/-- Three requests, the second of which lies within the first, and slots of two of them as a color
in between. -/
def overlapping : List StoreCall :=
  [.find [1, 2, 3], .build (.flow (.data (.pushSlots .immutable ⟨0, 3⟩))), .find [2, 3],
    .build (.flow (.data (.pushSlots .immutable ⟨1, 1⟩))),
    .build (.flow (.data (.emit (.popColor .src)))), .find [3, 4]]

/-- The pipeline of these calls. -/
def overlappingPipeline : Pipeline where
  instructions := [⟨.storeImmutable 0 1, 0⟩, ⟨.storeImmutable 1 2, 0⟩, ⟨.storeImmutable 2 3, 0⟩,
    ⟨.pushSlots .immutable ⟨0, 3⟩, 0⟩, ⟨.pushSlots .immutable ⟨1, 1⟩, 0⟩, ⟨.popColor .src, 0⟩,
    ⟨.storeImmutable 3 3, 0⟩, ⟨.storeImmutable 4 4, 0⟩]
  valueSlots := 0
  uniformSlots := 0
  immutableSlots := 5
  labelCount := 0
  stackDepths := [4]
  debugTrace := none

theorem immutable_data_intact_overlapping :
    (∀ call, .build call ∈ overlapping → call.stored? = none) ∧
      ∃ g lowered, (answers overlapping).run (start false) =
          .ok ([([1, 2, 3], ⟨0, 3⟩), ([2, 3], ⟨1, 2⟩), ([3, 4], ⟨3, 2⟩)], g) ∧
        Pipeline.ofBuilder g.builder 0 0 g.immutable.length none = .ok overlappingPipeline ∧
        overlappingPipeline.lowerOn (overlappingPipeline.allocate 1) none true = .ok lowered ∧
        (overlappingPipeline.loadOn lowered (overlappingPipeline.allocate 1) []).immutable.toList =
          [1, 2, 3, 3, 4] := by
  have hcalls : ∀ call, .build call ∈ overlapping → call.stored? = none := by
    simp only [overlapping, List.mem_cons, List.not_mem_nil, or_false]
    rintro call (h | h | h | h | h | h) <;> cases h <;> rfl
  obtain ⟨out, g, hrun, -, -, hread⟩ := immutable_data_intact false overlapping hcalls
  have hrun' : (answers overlapping).run (start false) =
      .ok ([([1, 2, 3], ⟨0, 3⟩), ([2, 3], ⟨1, 2⟩), ([3, 4], ⟨3, 2⟩)],
        { start false with
          builder := ⟨overlappingPipeline.instructions.reverse, 0, 0, 0⟩
          immutable := [1, 2, 3, 3, 4] }) := rfl
  rw [hrun'] at hrun
  cases hrun
  have hp : Pipeline.ofBuilder ⟨overlappingPipeline.instructions.reverse, 0, 0, 0⟩ 0 0 5 none =
      .ok overlappingPipeline := rfl
  obtain ⟨lowered, hlowered⟩ : ∃ lowered, overlappingPipeline.lowerOn
      (overlappingPipeline.allocate 1) none true = .ok lowered := ⟨_, rfl⟩
  exact ⟨hcalls, _, lowered, hrun', hp, hlowered, (hread hp hlowered []).1⟩

end Gen

end RasterShader
