import Mathlib
import RasterShader.Codegen.Program
import RasterShader.Proofs.Analysis.Recursion
import RasterShader.Proofs.Typing.Definitions

/-!
# Calls that are written out

The body of a function is written where the function is called, and the bodies of those that it
calls within it.  In an accepted program this comes to an end: no function leads back to itself by
calls that are written out (`Program.wellFounded_inlines`), because calls are resolved for the call
graph as they are for the code (`CallGraph.findDefinition?_eq`).

The code generator lets calls nest to a depth that is fixed for the program.  The depth is never
reached, so that the code would be the same with any greater one (`Program.writeProgram_ofDepth`).
-/

namespace RasterShader

/-! ## Calls in a statement -/

/-- A statement calls a function if some expression in it is a call of that function. -/
theorem Stmt.mem_calledFunctions_iff {s : Stmt} {f : FunctionDecl} :
    f ∈ s.calledFunctions ↔ ∃ e, Node.expression e ∈ s.nodes ∧ e.callee? = some f := by
  simp only [calledFunctions, callSites, List.mem_map, List.mem_filterMap]
  constructor
  · rintro ⟨⟨span, callee⟩, ⟨node, hnode, hsite⟩, rfl⟩
    cases node with
    | statement s => cases hsite
    | expression e =>
      simp only [Node.expression?, Option.bind_eq_bind, Option.bind_some, Option.bind_eq_some_iff,
        Option.pure_def, Option.some.injEq, Prod.mk.injEq] at hsite
      obtain ⟨callee', hcallee, -, rfl⟩ := hsite
      exact ⟨e, hnode, hcallee⟩
  · rintro ⟨e, he, hcallee⟩
    refine ⟨(e.span, f), ⟨.expression e, he, ?_⟩, rfl⟩
    simp [Node.expression?, hcallee]

/-! ## Contexts that write the same bodies -/

section

variable {program : Program} {usage : Usage} {w w' : FunctionDef → Option SlotRange → GenM Unit}

/-- Wherever the function is called, the same body is written. -/
def SameBody (program : Program) (w w' : FunctionDef → Option SlotRange → GenM Unit)
    (f : FunctionDecl) : Prop :=
  f.intrinsic = none → ∀ definition, program.findDefinition? f = some definition →
    w definition = w' definition

theorem pushCall_congr {f : FunctionDecl} {arguments : List (Expr × Operand)}
    (h : ∀ definition, program.findDefinition? f = some definition →
      w definition = w' definition) :
    pushCall ⟨program, usage, w⟩ f arguments = pushCall ⟨program, usage, w'⟩ f arguments := by
  unfold pushCall
  dsimp only
  cases hfind : program.findDefinition? f with
  | none => rfl
  | some definition =>
    dsimp only
    rw [h definition hfind]
    rfl

namespace Expr

mutual

/-- The code of an expression depends on the bodies of the functions that it calls. -/
theorem operand_congr (e : Expr)
    (h : ∀ x ∈ e.nodes, ∀ f, x.callee? = some f → SameBody program w w' f) :
    e.operand ⟨program, usage, w⟩ = e.operand ⟨program, usage, w'⟩ := by
  cases e with
  | literal head v => rw [operand, operand]
  | reference head v init ref =>
    rw [operand, operand]
    rfl
  | binary head left op right =>
    simp only [nodes, List.mem_cons, List.mem_append] at h
    rw [operand, operand, operand_congr left fun x hx => h x (.inr (.inl hx)),
      operand_congr right fun x hx => h x (.inr (.inr hx))]
    rfl
  | prefixed head op x =>
    simp only [nodes, List.mem_cons] at h
    rw [operand, operand, operand_congr x fun y hy => h y (.inr hy)]
    rfl
  | postfixed head op x =>
    simp only [nodes, List.mem_cons] at h
    rw [operand, operand, operand_congr x fun y hy => h y (.inr hy)]
    rfl
  | field head base i =>
    simp only [nodes, List.mem_cons] at h
    rw [operand, operand, operand_congr base fun y hy => h y (.inr hy)]
  | index head base i =>
    simp only [nodes, List.mem_cons, List.mem_append] at h
    rw [operand, operand, operand_congr base fun y hy => h y (.inr (.inl hy)),
      operand_congr i fun y hy => h y (.inr (.inr hy))]
  | swizzle head base components =>
    simp only [nodes, List.mem_cons] at h
    rw [operand, operand, operand_congr base fun y hy => h y (.inr hy)]
  | ternary head test ifTrue ifFalse =>
    simp only [nodes, List.mem_cons, List.mem_append] at h
    rw [operand, operand, operand_congr test fun y hy => h y (.inr (.inl (.inl hy))),
      operand_congr ifTrue fun y hy => h y (.inr (.inl (.inr hy))),
      operand_congr ifFalse fun y hy => h y (.inr (.inr hy))]
  | call head f arguments =>
    simp only [nodes, List.mem_cons] at h
    rw [operand, operand, operandsOf_congr arguments fun y hy => h y (.inr hy)]
    cases hintrinsic : f.intrinsic with
    | some intrinsic => rfl
    | none =>
      dsimp only
      rw [pushCall_congr (h _ (.inl rfl) f rfl hintrinsic)]
  | childCall head child arguments =>
    simp only [nodes, List.mem_cons] at h
    rw [operand, operand, operandsOf_congr arguments fun y hy => h y (.inr hy)]
  | convert head conversion x =>
    simp only [nodes, List.mem_cons] at h
    rw [operand, operand, operand_congr x fun y hy => h y (.inr hy)]
    rfl
  | assemble head assembly parts =>
    simp only [nodes, List.mem_cons] at h
    rw [operand, operand, operandsOf_congr parts fun y hy => h y (.inr hy)]
    rfl
  | poison span => rw [operand, operand]

theorem operandsOf_congr (es : List Expr)
    (h : ∀ x ∈ nodesOfAll es, ∀ f, x.callee? = some f → SameBody program w w' f) :
    operandsOf ⟨program, usage, w⟩ es = operandsOf ⟨program, usage, w'⟩ es := by
  cases es with
  | nil => rw [operandsOf, operandsOf]
  | cons e rest =>
    simp only [nodesOfAll, List.mem_append] at h
    rw [operandsOf, operandsOf, operand_congr e fun x hx => h x (.inl hx),
      operandsOf_congr rest fun x hx => h x (.inr hx)]

end

theorem writeDiscarded_congr (e : Expr)
    (h : ∀ x ∈ e.nodes, ∀ f, x.callee? = some f → SameBody program w w' f) :
    e.writeDiscarded ⟨program, usage, w⟩ = e.writeDiscarded ⟨program, usage, w'⟩ := by
  have hsame : e.operand ⟨program, usage, w⟩ = e.operand ⟨program, usage, w'⟩ :=
    operand_congr e h
  unfold writeDiscarded
  cases e with
  | postfixed head op x =>
    simp only [nodes, List.mem_cons] at h
    dsimp only
    rw [operand_congr x fun y hy => h y (.inr hy)]
    rfl
  | _ =>
    dsimp only
    rw [hsame]

end Expr

/-- All functions that are called among the nodes have the same bodies. -/
def SameBodies (program : Program) (w w' : FunctionDef → Option SlotRange → GenM Unit)
    (nodes : List Node) : Prop :=
  ∀ e, .expression e ∈ nodes → ∀ f, e.callee? = some f → SameBody program w w' f

@[simp] theorem sameBodies_nil : SameBodies program w w' [] := nofun

@[simp] theorem sameBodies_statement {s : Stmt} {nodes : List Node} :
    SameBodies program w w' (.statement s :: nodes) ↔ SameBodies program w w' nodes := by
  simp [SameBodies]

@[simp] theorem sameBodies_append {nodes nodes' : List Node} :
    SameBodies program w w' (nodes ++ nodes') ↔
      SameBodies program w w' nodes ∧ SameBodies program w w' nodes' := by
  simp only [SameBodies, List.mem_append, or_imp, forall_and]

@[simp] theorem sameBodies_ofExpr {e : Expr} : SameBodies program w w' (Node.ofExpr e) ↔
    ∀ x ∈ e.nodes, ∀ f, x.callee? = some f → SameBody program w w' f := by
  simp [SameBodies, Node.ofExpr]

theorem sameBodies_ofExpr? {e : Option Expr} : SameBodies program w w' (Node.ofExpr? e) ↔
    ∀ e' ∈ e, SameBodies program w w' (Node.ofExpr e') := by
  cases e <;> simp [Node.ofExpr?]

theorem writeDeclaration_congr {v : Variable} {value : Option Expr}
    (h : SameBodies program w w' (Node.ofExpr? value)) :
    writeDeclaration ⟨program, usage, w⟩ v value =
      writeDeclaration ⟨program, usage, w'⟩ v value := by
  cases value with
  | none => rfl
  | some e =>
    have hsame : e.operand ⟨program, usage, w⟩ = e.operand ⟨program, usage, w'⟩ :=
      e.operand_congr (sameBodies_ofExpr.1 (sameBodies_ofExpr?.1 h e rfl))
    have hslots : writeSlots ⟨program, usage, w⟩ v (some e) =
        writeSlots ⟨program, usage, w'⟩ v (some e) := by
      unfold writeSlots
      dsimp only
      rw [hsame]
      rfl
    unfold writeDeclaration
    dsimp only
    rw [hslots]
    rfl

namespace Stmt

mutual

/-- The code of a statement depends on the bodies of the functions that it calls. -/
theorem write_congr (s : Stmt) (h : SameBodies program w w' s.nodes) :
    s.write ⟨program, usage, w⟩ = s.write ⟨program, usage, w'⟩ := by
  have hexpr (e : Expr) (he : SameBodies program w w' (Node.ofExpr e)) :
      e.operand ⟨program, usage, w⟩ = e.operand ⟨program, usage, w'⟩ :=
    e.operand_congr (sameBodies_ofExpr.1 he)
  have hdiscarded (e : Expr) (he : SameBodies program w w' (Node.ofExpr e)) :
      e.writeDiscarded ⟨program, usage, w⟩ = e.writeDiscarded ⟨program, usage, w'⟩ :=
    e.writeDiscarded_congr (sameBodies_ofExpr.1 he)
  cases s with
  | block span statements opensScope =>
    rw [nodes, sameBodies_statement] at h
    rw [write, write, writeAll_congr statements h]
    rfl
  | expression span e =>
    rw [nodes, sameBodies_statement] at h
    rw [write, write, hdiscarded e h]
    rfl
  | declare span v value =>
    rw [nodes, sameBodies_statement] at h
    rw [write, write, writeDeclaration_congr h]
    rfl
  | branch span test ifTrue ifFalse =>
    simp only [nodes, sameBodies_statement, sameBodies_append] at h
    rw [write, write, hexpr test h.1.1, write_congr ifTrue h.1.2, writeOption_congr ifFalse h.2]
    rfl
  | loop span initializer test next body trips =>
    simp only [nodes, sameBodies_statement, sameBodies_append, sameBodies_ofExpr?] at h
    have htest : (test.map fun e => (e.operand ⟨program, usage, w⟩).push) =
        test.map fun e => (e.operand ⟨program, usage, w'⟩).push :=
      Option.map_congr fun e he => by rw [hexpr e (h.1.1.2 e he)]
    have hnext : (next.map fun e => e.writeDiscarded ⟨program, usage, w⟩) =
        next.map fun e => e.writeDiscarded ⟨program, usage, w'⟩ :=
      Option.map_congr fun e he => hdiscarded e (h.1.2 e he)
    rw [write, write, writeOption_congr initializer h.1.1.1, htest, hnext, write_congr body h.2]
    rfl
  | doWhile span body test =>
    simp only [nodes, sameBodies_statement, sameBodies_append] at h
    rw [write, write, hexpr test h.2, write_congr body h.1]
    rfl
  | switch span value cases =>
    simp only [nodes, sameBodies_statement, sameBodies_append] at h
    rw [write, write, hexpr value h.1, writeCases_congr cases h.2]
    rfl
  | returns span value =>
    simp only [nodes, sameBodies_statement, sameBodies_ofExpr?] at h
    have hvalue : (value.map fun e => (e.operand ⟨program, usage, w⟩).push) =
        value.map fun e => (e.operand ⟨program, usage, w'⟩).push :=
      Option.map_congr fun e he => by rw [hexpr e (h e he)]
    rw [write, write, hvalue]
    rfl
  | breaks span | continues span | discards span | nop span =>
    rw [write, write]
    try rfl

theorem writeAll_congr (ss : List Stmt) (h : SameBodies program w w' (nodesOfAll ss)) :
    writeAll ⟨program, usage, w⟩ ss = writeAll ⟨program, usage, w'⟩ ss := by
  cases ss with
  | nil => rw [writeAll, writeAll]
  | cons s rest =>
    rw [nodesOfAll, sameBodies_append] at h
    rw [writeAll, writeAll, write_congr s h.1, writeAll_congr rest h.2]

theorem writeOption_congr (s : Option Stmt) (h : SameBodies program w w' (nodesOfOption s)) :
    writeOption ⟨program, usage, w⟩ s = writeOption ⟨program, usage, w'⟩ s := by
  cases s with
  | none => rw [writeOption, writeOption]
  | some s =>
    rw [nodesOfOption] at h
    rw [writeOption, writeOption, write_congr s h]

theorem writeCases_congr (cases : List (CaseOf Stmt))
    (h : SameBodies program w w' (nodesOfCases cases)) :
    writeCases ⟨program, usage, w⟩ cases = writeCases ⟨program, usage, w'⟩ cases := by
  cases cases with
  | nil => rw [writeCases, writeCases]
  | cons c rest =>
    obtain ⟨span, value, statements⟩ := c
    rw [nodesOfCases, sameBodies_append] at h
    rw [writeCases, writeCases, writeAll_congr statements h.1, writeCases_congr rest h.2]

end

end Stmt

/-- The code of a body depends on the bodies of the functions that it calls. -/
theorem writeFunction_congr {f : FunctionDef} (result : Option SlotRange)
    (h : ∀ callee ∈ f.body.calledFunctions, SameBody program w w' callee) :
    writeFunction ⟨program, usage, w⟩ f result = writeFunction ⟨program, usage, w'⟩ f result := by
  have hbody : f.body.write ⟨program, usage, w⟩ = f.body.write ⟨program, usage, w'⟩ :=
    f.body.write_congr fun e he callee hcallee =>
      h callee (Stmt.mem_calledFunctions_iff.2 ⟨e, he, hcallee⟩)
  unfold writeFunction
  rw [hbody]
  rfl

theorem writeParameters_congr (colors : Nat) (parameters : List Variable) :
    writeParameters ⟨program, usage, w⟩ colors parameters =
      writeParameters ⟨program, usage, w'⟩ colors parameters := by
  induction parameters generalizing colors with
  | nil => rfl
  | cons v rest ih =>
    rw [writeParameters, writeParameters]
    simp only [ih]
    rfl

/-- The code of a program depends on the bodies of its definitions. -/
theorem writeProgram_congr (h : ∀ callee definition,
      program.findDefinition? callee = some definition → w definition = w' definition) :
    writeProgram ⟨program, usage, w⟩ = writeProgram ⟨program, usage, w'⟩ := by
  have hsame (nodes : List Node) : SameBodies program w w' nodes :=
    fun _ _ callee _ _ definition => h callee definition
  have hglobals (globals : List (Variable × Option Expr)) :
      writeGlobals ⟨program, usage, w⟩ globals = writeGlobals ⟨program, usage, w'⟩ globals := by
    unfold writeGlobals
    simp only [writeDeclaration_congr (hsame _)]
    rfl
  have hfunction (f : FunctionDef) (result : Option SlotRange) :
      writeFunction ⟨program, usage, w⟩ f result = writeFunction ⟨program, usage, w'⟩ f result :=
    writeFunction_congr result fun callee _ _ definition => h callee definition
  have hparameters (colors : Nat) (parameters : List Variable) :
      writeParameters ⟨program, usage, w⟩ colors parameters =
        writeParameters ⟨program, usage, w'⟩ colors parameters :=
    writeParameters_congr colors parameters
  unfold writeProgram
  dsimp only
  cases program.main? with
  | none => rfl
  | some main =>
    simp only [hglobals, hfunction, hparameters]
    rfl

end

/-! ## Functions that are written out within others -/

namespace CallGraph

/-- A call has the definition at the place that it has in the call graph. -/
theorem findDefinition?_eq (functions : List FunctionDef) (f : FunctionDecl) :
    findDefinition? functions f = (target? functions f).bind (functions[·]?) := by
  have hfind (p : FunctionDef → Bool) :
      functions.find? p = (functions.findIdx? p).bind (functions[·]?) := by
    induction functions with
    | nil => rfl
    | cons g rest ih =>
      rw [List.find?_cons, List.findIdx?_cons]
      cases p g with
      | true => rfl
      | false =>
        rw [ih]
        cases rest.findIdx? p <;> rfl
  rw [findDefinition?, target?, hfind, hfind]
  cases hid : functions.findIdx? (·.decl.id == f.id) with
  | none => rfl
  | some i =>
    have hlt := (List.findIdx?_eq_some_iff_getElem.1 hid).1
    simp [List.getElem?_eq_getElem hlt]

end CallGraph

/-- The functions that a module defines call nothing but intrinsics. -/
def Module.CallsIntrinsics (m : Module) : Prop :=
  ∀ f ∈ definitions m.elements, ∀ callee ∈ f.body.calledFunctions, callee.intrinsic.isSome = true

instance (m : Module) : Decidable m.CallsIntrinsics :=
  inferInstanceAs (Decidable (∀ f ∈ definitions m.elements, ∀ callee ∈ f.body.calledFunctions,
    callee.intrinsic.isSome = true))

namespace Program

variable {program : Program}

/-- The code of one body holds the code of another: it calls the function, and not as an
intrinsic. -/
def Inlines (program : Program) (f g : FunctionDef) : Prop :=
  ∃ callee ∈ f.body.calledFunctions, callee.intrinsic = none ∧
    program.findDefinition? callee = some g

/-- Bodies are written out within the code of a function at most so many levels deep. -/
def NestsWithin (program : Program) : Nat → FunctionDef → Prop
  | 0, f => ∀ g, ¬program.Inlines f g
  | n + 1, f => ∀ g, program.Inlines f g → program.NestsWithin n g

theorem NestsWithin.succ {n : Nat} {f : FunctionDef} (h : program.NestsWithin n f) :
    program.NestsWithin (n + 1) f := by
  induction n generalizing f with
  | zero => exact fun g hg => absurd hg (h g)
  | succ n ih => exact fun g hg => ih (h g hg)

theorem NestsWithin.mono {m n : Nat} {f : FunctionDef} (h : program.NestsWithin m f)
    (hle : m ≤ n) : program.NestsWithin n f := by
  induction hle with
  | refl => exact h
  | step _ ih => exact ih.succ

theorem NestsWithin.acc {n : Nat} {f : FunctionDef} (h : program.NestsWithin n f) :
    Acc (fun g f => program.Inlines f g) f := by
  induction n generalizing f with
  | zero => exact ⟨f, fun g hg => absurd hg (h g)⟩
  | succ n ih => exact ⟨f, fun g hg => ih (h g hg)⟩

/-- The functions that the modules of a program define. -/
def libraryFunctions (program : Program) : List FunctionDef :=
  program.modules.flatMap fun m => definitions m.elements

/-- A call that is written out leads to a function of the program, where the call graph has it, or
to one of a module. -/
theorem findDefinition?_cases {callee : FunctionDecl} {g : FunctionDef}
    (h : program.findDefinition? callee = some g) :
    (∃ j, CallGraph.target? program.functions callee = some j ∧ program.functions[j]? = some g) ∨
      ∃ m ∈ program.modules, g ∈ definitions m.elements := by
  rw [findDefinition?] at h
  split at h
  · rename_i f hf
    obtain rfl := Option.some.inj h
    rw [CallGraph.findDefinition?_eq, Option.bind_eq_some_iff] at hf
    exact .inl hf
  · obtain ⟨m, hm, hg⟩ := List.exists_of_findSome?_eq_some h
    rw [CallGraph.findDefinition?_eq, Option.bind_eq_some_iff] at hg
    obtain ⟨j, -, hj⟩ := hg
    exact .inr ⟨m, hm, List.mem_of_getElem? hj⟩

section

variable (modules : ∀ m ∈ program.modules, m.CallsIntrinsics)

include modules

theorem nestsWithin_zero {m : Module} (hm : m ∈ program.modules) {f : FunctionDef}
    (hf : f ∈ definitions m.elements) : program.NestsWithin 0 f := by
  rintro g ⟨callee, hcallee, hintrinsic, -⟩
  have hsome := modules m hm f hf callee hcallee
  rw [hintrinsic] at hsome
  cases hsome

/-- Within a settled function no more bodies are nested than functions are settled before it. -/
theorem exists_nestsWithin {done : List Nat}
    (hsettled : CallGraph.Settled (CallGraph.edges program.functions) done) {i : Nat}
    (hi : i ∈ done) {f : FunctionDef} (hf : program.functions[i]? = some f) :
    ∃ n < done.length + program.libraryFunctions.length, program.NestsWithin n f := by
  induction hsettled generalizing i f with
  | nil => cases hi
  | @cons node done leads _ _ ih =>
    rw [List.length_cons]
    obtain rfl | hi := List.mem_cons.1 hi
    · refine ⟨done.length + program.libraryFunctions.length, by omega, ?_⟩
      -- What the function calls is settled before it, or calls intrinsics only.
      have hnests (g : FunctionDef) (hg : program.Inlines f g) :
          ∃ n < done.length + program.libraryFunctions.length, program.NestsWithin n g := by
        obtain ⟨callee, hcallee, -, hfind⟩ := hg
        obtain ⟨j, hj, hjg⟩ | ⟨m, hm, hgm⟩ := findDefinition?_cases hfind
        · exact ih (leads j (CallGraph.edge_iff.2 ⟨f, hf, callee, hcallee, hj⟩)) hjg
        · have hlibrary : g ∈ program.libraryFunctions := List.mem_flatMap.2 ⟨m, hm, hgm⟩
          have hpos := List.length_pos_of_mem hlibrary
          exact ⟨0, by omega, nestsWithin_zero modules hm hgm⟩
      cases hbound : done.length + program.libraryFunctions.length with
      | zero =>
        intro g hg
        obtain ⟨n, hn, -⟩ := hnests g hg
        omega
      | succ bound =>
        intro g hg
        obtain ⟨n, hn, hnest⟩ := hnests g hg
        exact hnest.mono (by omega)
    · obtain ⟨n, hn, hnest⟩ := ih hi hf
      exact ⟨n, by omega, hnest⟩

variable (acyclic : CallGraph.cycle? program.functions = none)

include acyclic

/-- Every function that can be called nests less deeply than there are functions. -/
theorem nestsWithin_of_findDefinition? {callee : FunctionDecl} {g : FunctionDef}
    (h : program.findDefinition? callee = some g) :
    ∃ n < program.functions.length + program.libraryFunctions.length, program.NestsWithin n g := by
  obtain ⟨done, hsettled, hbounded, hall⟩ := CallGraph.exists_settled_of_cycle?_eq_none acyclic
  have hlength : done.length ≤ program.functions.length := by
    have hsub : done ⊆ List.range program.functions.length :=
      fun i hi => List.mem_range.2 (hbounded i hi)
    simpa using (hsettled.nodup.subperm hsub).length_le
  obtain ⟨j, -, hjg⟩ | ⟨m, hm, hgm⟩ := findDefinition?_cases h
  · have hj := hall j (List.getElem?_eq_some_iff.1 hjg).1
    obtain ⟨n, hn, hnest⟩ := exists_nestsWithin modules hsettled hj hjg
    exact ⟨n, by omega, hnest⟩
  · have hpos : 0 < program.libraryFunctions.length :=
      List.length_pos_of_mem (List.mem_flatMap.2 ⟨m, hm, hgm⟩)
    exact ⟨0, by omega, nestsWithin_zero modules hm hgm⟩

/-- No function leads back to itself by calls that are written out. -/
theorem wellFounded_inlines : WellFounded fun g f => program.Inlines f g := by
  refine ⟨fun f => ⟨f, fun g hg => ?_⟩⟩
  obtain ⟨_, _, _, hfind⟩ := hg
  obtain ⟨n, -, hnest⟩ := nestsWithin_of_findDefinition? modules acyclic hfind
  exact hnest.acc

end

/-! ## The depth to which calls may nest -/

theorem ofDepth_eq (usage : Usage) (depth : Nat) : CodeContext.ofDepth program usage depth =
    ⟨program, usage, (CodeContext.ofDepth program usage depth).writeBody⟩ := by
  cases depth <;> rfl

/-- Depths that a function does not exceed give the same code of it. -/
theorem NestsWithin.writeFunction_eq {usage : Usage} {n depth depth' : Nat} {f : FunctionDef}
    (h : program.NestsWithin n f) (hn : n ≤ depth) (hn' : n ≤ depth') :
    writeFunction (.ofDepth program usage depth) f =
      writeFunction (.ofDepth program usage depth') f := by
  induction n generalizing f depth depth' with
  | zero =>
    rw [ofDepth_eq, ofDepth_eq usage depth']
    refine funext fun result => writeFunction_congr result ?_
    exact fun callee hcallee hintrinsic g hg => absurd ⟨callee, hcallee, hintrinsic, hg⟩ (h g)
  | succ n ih =>
    obtain ⟨depth, rfl⟩ := Nat.exists_eq_add_of_le' (Nat.one_le_of_lt hn)
    obtain ⟨depth', rfl⟩ := Nat.exists_eq_add_of_le' (Nat.one_le_of_lt hn')
    refine funext fun result => writeFunction_congr result ?_
    intro callee hcallee hintrinsic g hg
    exact ih (h g ⟨callee, hcallee, hintrinsic, hg⟩) (Nat.le_of_succ_le_succ hn)
      (Nat.le_of_succ_le_succ hn')

/-- Calls never nest as deeply as the code generator lets them. -/
theorem writeProgram_ofDepth (modules : ∀ m ∈ program.modules, m.CallsIntrinsics)
    (acyclic : CallGraph.cycle? program.functions = none) {depth : Nat}
    (hdepth : program.functions.length + program.libraryFunctions.length ≤ depth) :
    writeProgram (.ofDepth program (.ofProgram program) depth) =
      writeProgram (.ofProgram program) := by
  have hbound : CodeContext.ofProgram program = .ofDepth program (.ofProgram program)
      (program.functions.length + program.libraryFunctions.length) := rfl
  rw [hbound, ofDepth_eq, ofDepth_eq _ (_ + _)]
  refine writeProgram_congr fun callee g hg => ?_
  obtain ⟨n, hn, hnest⟩ := nestsWithin_of_findDefinition? modules acyclic hg
  obtain ⟨bound, hbound⟩ := Nat.exists_eq_add_of_lt hn
  obtain ⟨depth, rfl⟩ := Nat.exists_eq_add_of_le' (show 1 ≤ depth by omega)
  rw [hbound]
  exact hnest.writeFunction_eq (by omega) (by omega)

end Program

/-! ## Detection of recursion -/

namespace CallGraph

open Relation

/-- Recursion is detected exactly: a function is reported if and only if some function leads back to
itself, and the one that is reported does.  Where a call leads in the call graph is where it leads
in the code, and functions of modules call nothing but intrinsics; hence in an accepted program the
bodies that are written out within each other come to an end, before calls nest as deeply as the
code generator lets them. -/
theorem cycle?_exact (functions : List FunctionDef) :
    (cycle? functions = none ↔ ¬∃ i, TransGen (Calls functions) i i) ∧
    (∀ decl, cycle? functions = some decl →
      ∃ i f, functions[i]? = some f ∧ f.decl = decl ∧ TransGen (Calls functions) i i) ∧
    (∀ callee, findDefinition? functions callee =
      (target? functions callee).bind (functions[·]?)) ∧
    ∀ library dialect source program, (∀ m ∈ library.modules, m.CallsIntrinsics) →
      Program.readOn library dialect source = .ok program →
      WellFounded (fun g f => program.Inlines f g) ∧
      ∀ depth, program.functions.length + program.libraryFunctions.length ≤ depth →
        writeProgram (.ofDepth program (.ofProgram program) depth) =
          writeProgram (.ofProgram program) := by
  refine ⟨cycle?_eq_none_iff, fun decl => exists_of_cycle?_eq_some, findDefinition?_eq functions,
    fun library dialect source program hlibrary hread => ?_⟩
  obtain ⟨hmodules, -, -, acyclic⟩ := Program.finished_of_readOn hread
  have modules : ∀ m ∈ program.modules, m.CallsIntrinsics := hmodules ▸ hlibrary
  exact ⟨Program.wellFounded_inlines modules acyclic,
    fun depth => Program.writeProgram_ofDepth modules acyclic⟩

/-- A module that declares an intrinsic function, and one whose function calls it. -/
def clipLibrary : Library :=
  (Library.root.extend .generic "shared" ["float max(float a, float b);"]).extend .generic
    "public" ["float clip(float x) \x7b return max(x, 0.); \x7d"]

/-- A program with a call of its own function and one of the module's. -/
def clippingSource : String :=
  "float f(float x) \x7b return clip(x); \x7d float g(float x) \x7b return f(x); \x7d"

theorem cycle?_exact_clipping :
    (∀ m ∈ clipLibrary.modules, m.CallsIntrinsics) ∧ ∃ program,
      Program.readOn clipLibrary ⟨.fragment, .standard⟩ clippingSource = .ok program ∧
      program.functions.map (·.decl.name) = ["f", "g"] ∧
      WellFounded fun g f => program.Inlines f g := by
  have hlibrary : ∀ m ∈ clipLibrary.modules, m.CallsIntrinsics := by decide +kernel
  have hnames : (Program.readOn clipLibrary ⟨.fragment, .standard⟩ clippingSource).toOption.map
      (fun program => program.functions.map (·.decl.name)) = some ["f", "g"] := by
    decide +kernel
  cases hread : Program.readOn clipLibrary ⟨.fragment, .standard⟩ clippingSource with
  | error reports =>
    rw [hread] at hnames
    cases hnames
  | ok program =>
    rw [hread] at hnames
    have exact := cycle?_exact program.functions
    exact ⟨hlibrary, program, rfl, Option.some.inj hnames,
      (exact.2.2.2 _ _ _ program hlibrary hread).1⟩

end CallGraph

end RasterShader
