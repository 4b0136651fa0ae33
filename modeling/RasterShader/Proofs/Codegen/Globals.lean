import RasterShader.Proofs.Analysis.Usage
import RasterShader.Proofs.Codegen.Nesting
import RasterShader.Proofs.Codegen.Program

/-!
# Global variables that are left out

A program gives those global variables their values that it has use for (`isUsed`).  The bodies that
are written out within the code of its functions have been counted, those of built-in functions
included (`Program.nodes_counted`).  What it leaves out is therefore referred to neither by its own
elements nor by a body that is written out within one of its functions
(`Program.unreferenced_of_not_isUsed`).  Where every global variable counted as read, `isUsed` would
hold of all of them and everything else would stay as it is (`writeGlobals_readingAll`).

The initializer is left out with the variable, and is not looked at.  A call in it may store to
other variables, and the colors show whether it was made
(`Program.skipped_initializer_changes_color`).
-/

namespace RasterShader

/-! ## Functions that are counted -/

namespace Usage

/-- Up to its identity, a function that remains is reached by any call of it that is pending or that
stands in a body which is reached. -/
theorem exists_mem_reached {find? : FunctionDecl → Option FunctionDef}
    {remaining : List FunctionDef} {pending : List FunctionDecl} {callee : FunctionDecl}
    {f : FunctionDef} (hfind : find? callee = some f)
    (hremains : ∃ r ∈ remaining, r.decl.id = f.decl.id)
    (hcall : callee ∈ pending ∨
      ∃ caller ∈ reached find? remaining pending, callee ∈ caller.body.calledFunctions) :
    ∃ g ∈ reached find? remaining pending, g.decl.id = f.decl.id := by
  fun_induction reached find? remaining pending with
  | case1 remaining pending hnone =>
    obtain hpending | ⟨_, hcaller, -⟩ := hcall
    · obtain ⟨r, hr, hid⟩ := hremains
      have hskipped : ∀ r ∈ remaining, r.decl.id ≠ f.decl.id := by
        simpa [hfind] using List.findSome?_eq_none_iff.1 hnone callee hpending
      exact absurd hid (hskipped r hr)
    · cases hcaller
  | case2 remaining pending next hnext ih =>
    by_cases hid : next.decl.id = f.decl.id
    · exact ⟨next, List.mem_cons_self .., hid⟩
    · obtain ⟨r, hr, hrf⟩ := hremains
      have hothers : r ∈ others remaining next :=
        List.mem_filter.2 ⟨hr, by simpa [hrf] using Ne.symm hid⟩
      have hcall : callee ∈ next.body.calledFunctions ++ pending ∨
          ∃ caller ∈ reached find? (others remaining next)
            (next.body.calledFunctions ++ pending), callee ∈ caller.body.calledFunctions := by
        obtain hpending | ⟨caller, hcaller, hcall⟩ := hcall
        · exact .inl (List.mem_append_right _ hpending)
        · obtain rfl | hcaller := List.mem_cons.1 hcaller
          · exact .inl (List.mem_append_left _ hcall)
          · exact .inr ⟨caller, hcaller, hcall⟩
      obtain ⟨g, hg, hgf⟩ := ih ⟨r, hothers, hrf⟩ hcall
      exact ⟨g, List.mem_cons_of_mem _ hg, hgf⟩

end Usage

namespace Program

variable {program : Program}

/-- The built-in functions whose bodies are counted. -/
def countedLibrary (program : Program) : List FunctionDef :=
  Usage.reached program.findDefinition?
    (program.libraryFunctions.filter fun f => !program.functions.any (·.decl.id == f.decl.id))
    (program.functions.flatMap fun f => f.body.calledFunctions)

theorem nodes_ofProgram : (Usage.ofProgram program).nodes =
    program.elements.flatMap Element.nodes ++ program.countedLibrary.flatMap (·.body.nodes) := rfl

theorem mem_of_program_findDefinition? {callee : FunctionDecl} {f : FunctionDef}
    (h : program.findDefinition? callee = some f) :
    f ∈ program.functions ++ program.libraryFunctions := by
  obtain ⟨j, -, hj⟩ | ⟨m, hm, hf⟩ := findDefinition?_cases h
  · exact List.mem_append_left _ (List.mem_of_getElem? hj)
  · exact List.mem_append_right _ (List.mem_flatMap.2 ⟨m, hm, hf⟩)

/-- A body that is written out within the code of a function is that of one of the program's
functions, or is counted among the built-in ones. -/
theorem mem_of_inlines (hapart : ((program.functions ++ program.libraryFunctions).map
      (·.decl.id)).Nodup)
    {f g : FunctionDef} (hf : f ∈ program.functions)
    (hinlines : Relation.ReflTransGen program.Inlines f g) :
    g ∈ program.functions ∨ g ∈ program.countedLibrary := by
  induction hinlines with
  | refl => exact .inl hf
  | @tail caller g _ hcall ih =>
    obtain ⟨callee, hcallee, -, hfind⟩ := hcall
    obtain hown | hlibrary := List.mem_append.1 (mem_of_program_findDefinition? hfind)
    · exact .inl hown
    · refine .inr ?_
      have hforeign : ∀ e ∈ program.functions, e.decl.id ≠ g.decl.id := by
        rw [List.map_append, List.nodup_append] at hapart
        exact fun e he => hapart.2.2 _ (List.mem_map_of_mem he) _ (List.mem_map_of_mem hlibrary)
      have hremains : g ∈ program.libraryFunctions.filter fun f =>
          !program.functions.any (·.decl.id == f.decl.id) :=
        List.mem_filter.2 ⟨hlibrary, by simpa using hforeign⟩
      obtain ⟨found, hfound, hid⟩ := Usage.exists_mem_reached hfind ⟨g, hremains, rfl⟩
        (ih.imp (fun hcaller => List.mem_flatMap.2 ⟨caller, hcaller, hcallee⟩)
          fun hcaller => ⟨caller, hcaller, hcallee⟩)
      obtain ⟨_, hdefinition⟩ := Usage.exists_find?_of_mem_reached hfound
      have hsame : found = g := List.inj_on_of_nodup_map hapart
        (mem_of_program_findDefinition? hdefinition) (mem_of_program_findDefinition? hfind) hid
      exact hsame ▸ hfound

/-- The body of every function that is written out within the code of a program's functions is
counted. -/
theorem nodes_counted (hapart : ((program.functions ++ program.libraryFunctions).map
      (·.decl.id)).Nodup)
    {f g : FunctionDef} (hf : f ∈ program.functions)
    (hinlines : Relation.ReflTransGen program.Inlines f g) :
    g.body.nodes ⊆ (Usage.ofProgram program).nodes := by
  intro node hnode
  rw [nodes_ofProgram]
  obtain hown | hlibrary := mem_of_inlines hapart hf hinlines
  · exact List.mem_append_left _
      (List.mem_flatMap.2 ⟨_, mem_definitions_iff.1 hown, hnode⟩)
  · exact List.mem_append_right _ (List.mem_flatMap.2 ⟨g, hlibrary, hnode⟩)

end Program

/-! ## Counts of a variable that is left out -/

section

variable {ctx : CodeContext} {v : Variable} {value : Option Expr}

/-- It is not read, and written by its initializer at most. -/
theorem isUsed_eq_false_iff : isUsed ctx v value = false ↔
    (ctx.usage.uses v).reads = 0 ∧
      (ctx.usage.uses v).writes ≤ if value.isSome then 1 else 0 := by
  simp [isUsed]

end

/-- A reference to a variable is a use of it for reading or for anything else than reading. -/
theorem Usage.refers_of_uses {nodes : List Node} {v : Variable}
    (hreads : nodes.countP (refers v (· != .write)) = 0)
    (hmarks : nodes.countP (refers v (· != .read)) = 0) :
    ∀ node ∈ nodes, refers v (fun _ => true) node = false := by
  intro node hnode
  have hread := List.countP_eq_zero.1 hreads node hnode
  have hmark := List.countP_eq_zero.1 hmarks node hnode
  cases node with
  | statement => rfl
  | expression e =>
    cases e with
    | reference head w init ref => cases ref <;> simp_all [refers]
    | _ => rfl

namespace Program

variable {program : Program} {v : Variable} {value : Option Expr}

/-- The declaration of a global variable is among the nodes that are counted. -/
theorem countP_initializes_of_globals (hglobal : (v, value) ∈ program.globals) :
    (if value.isSome then 1 else 0) ≤
      (Usage.ofProgram program).nodes.countP (Usage.initializes v) := by
  cases value with
  | none => exact Nat.zero_le _
  | some e =>
    obtain ⟨element, helement, hdeclared⟩ := List.mem_filterMap.1 hglobal
    cases element with
    | global span w value =>
      obtain ⟨rfl, rfl⟩ := Prod.mk.inj (Option.some.inj hdeclared)
      have hnode : Node.statement (.declare span w (some e)) ∈
          (Usage.ofProgram program).nodes := by
        refine List.mem_append_left _ (List.mem_flatMap.2 ⟨_, helement, ?_⟩)
        exact List.mem_cons_self ..
      exact List.countP_pos_iff.2 ⟨_, hnode, by simp [Usage.initializes]⟩
    | interfaceBlock => cases hdeclared
    | _ => cases hdeclared

/-- The functions of an accepted program and of its modules have identities of their own. -/
theorem nodup_ids_of_readOn {library : Library} {dialect : Dialect} {source : String}
    (hlibrary : library.Numbered) (hread : readOn library dialect source = .ok program) :
    ((program.functions ++ program.libraryFunctions).map (·.decl.id)).Nodup := by
  obtain ⟨hmodules, helements, -⟩ := finished_of_readOn hread
  rw [functions, libraryFunctions, hmodules, helements]
  exact hlibrary.apart_readChars dialect false source.toList

theorem nodup_ids_of_read {dialect : Dialect} {source : String}
    (hread : read dialect source = .ok program) :
    ((program.functions ++ program.libraryFunctions).map (·.decl.id)).Nodup :=
  nodup_ids_of_readOn (Library.numbered_forKind dialect.kind) hread

/-- What a program leaves out among its global variables is referred to by none of its elements and
by no body that is written out within the code of its functions.  That functions have identities of
their own holds of every accepted program (`nodup_ids_of_read`). -/
theorem unreferenced_of_not_isUsed
    (hapart : ((program.functions ++ program.libraryFunctions).map (·.decl.id)).Nodup)
    (hglobal : (v, value) ∈ program.globals)
    (hunused : isUsed (.ofProgram program) v value = false) :
    (∀ e ∈ program.elements, ∀ node ∈ e.nodes, Usage.refers v (fun _ => true) node = false) ∧
      ∀ f ∈ program.functions, ∀ g, Relation.ReflTransGen program.Inlines f g →
        ∀ node ∈ g.body.nodes, Usage.refers v (fun _ => true) node = false := by
  have husage : (CodeContext.ofProgram program).usage = .ofProgram program :=
    CodeContext.ofDepth_usage ..
  obtain ⟨hreads, hwrites⟩ := isUsed_eq_false_iff.1 hunused
  rw [husage] at hreads hwrites
  have hinitializes := countP_initializes_of_globals hglobal
  have hmarks : (Usage.ofProgram program).nodes.countP (Usage.refers v (· != .read)) = 0 := by
    simp only [Usage.uses] at hwrites
    omega
  have hnodes := Usage.refers_of_uses hreads hmarks
  refine ⟨fun e he node hnode => hnodes node ?_, fun f hf g hinlines node hnode =>
    hnodes node (nodes_counted hapart hf hinlines hnode)⟩
  rw [nodes_ofProgram]
  exact List.mem_append_left _ (List.mem_flatMap.2 ⟨e, he, hnode⟩)

/-- A variable that nothing refers to. -/
def lonely : Variable := scalarIn .global 4 "x"

/-- The function `void main() { f(1, 2); }`. -/
def mainCallingLibrary : FunctionDef :=
  let literal (value : Float) : Expr := .literal ⟨default, .float⟩ value
  ⟨⟨0, "main", [], .void, default, none, false, default⟩, .block default
    [.expression default (.call ⟨default, .float⟩ firstOfTwo.decl [literal 1, literal 2])] true⟩

/-- The program `float x; void main() { f(1, 2); }`, with a built-in function `f`. -/
def lonelyProgram : Program :=
  ⟨⟨.fragment, .standard⟩, "", [⟨"library", default, [.function firstOfTwo]⟩],
    [.global default lonely none, .function mainCallingLibrary]⟩

theorem unreferenced_of_not_isUsed_lonely :
    ((lonelyProgram.functions ++ lonelyProgram.libraryFunctions).map (·.decl.id)).Nodup ∧
      (lonely, none) ∈ lonelyProgram.globals ∧
      isUsed (.ofProgram lonelyProgram) lonely none = false ∧
      lonelyProgram.Inlines mainCallingLibrary firstOfTwo ∧
      ∀ node ∈ firstOfTwo.body.nodes, Usage.refers lonely (fun _ => true) node = false := by
  have hapart :
      ((lonelyProgram.functions ++ lonelyProgram.libraryFunctions).map (·.decl.id)).Nodup := by
    decide
  have hglobal : (lonely, none) ∈ lonelyProgram.globals := List.mem_singleton_self _
  have hunused : isUsed (.ofProgram lonelyProgram) lonely none = false := by decide +kernel
  have hinlines : lonelyProgram.Inlines mainCallingLibrary firstOfTwo :=
    ⟨firstOfTwo.decl, List.mem_singleton_self _, rfl, rfl⟩
  have hbodies := (unreferenced_of_not_isUsed hapart hglobal hunused).2 mainCallingLibrary
    (List.mem_singleton_self _) firstOfTwo (.single hinlines)
  exact ⟨hapart, hglobal, hunused, hinlines, hbodies⟩

end Program

/-! ## Leaving nothing out -/

namespace Usage

/-- The uses of variables when given ones are read once more. -/
def readingAll (usage : Usage) (vs : List Variable) : Usage where
  parameters := usage.parameters
  nodes := usage.nodes ++ vs.map fun v => .expression (.ofVariable default v none)

theorem uses_readingAll (usage : Usage) (vs : List Variable) (v : Variable) :
    (usage.readingAll vs).uses v =
      { usage.uses v with reads := (usage.uses v).reads + vs.countP (·.id == v.id) } := by
  have hnone (p : Node → Bool) (h : ∀ w, p (.expression (.ofVariable default w none)) = false) :
      (vs.map fun w => Node.expression (.ofVariable default w none)).countP p = 0 := by
    rw [List.countP_map]
    exact List.countP_eq_zero.2 fun w _ => by simp [h]
  have hreads : (vs.map fun w => Node.expression (.ofVariable default w none)).countP
      (refers v (· != .write)) = vs.countP (·.id == v.id) := by
    rw [List.countP_map]
    exact List.countP_congr fun w _ => by simp [refers, Expr.ofVariable]
  simp only [uses, readingAll, List.countP_append, hreads, hnone (declares v) fun _ => rfl,
    hnone (initializes v) fun _ => rfl,
    hnone (refers v (· != .read)) fun _ => by simp [refers, Expr.ofVariable], Nat.add_zero]

end Usage

/-- The context of a program in which every global variable counts as read. -/
def CodeContext.readingAll (program : Program) : CodeContext :=
  let library := program.modules.flatMap fun m => definitions m.elements
  ofDepth program ((Usage.ofProgram program).readingAll (program.globals.map (·.1)))
    (program.functions.length + library.length)

theorem isUsed_readingAll {program : Program} {v : Variable} {value : Option Expr}
    (hglobal : (v, value) ∈ program.globals) : isUsed (.readingAll program) v value = true := by
  have husage : (CodeContext.readingAll program).usage =
      (Usage.ofProgram program).readingAll (program.globals.map (·.1)) :=
    CodeContext.ofDepth_usage ..
  have hcount : 0 < (program.globals.map (·.1)).countP (·.id == v.id) :=
    List.countP_pos_iff.2 ⟨v, List.mem_map.2 ⟨_, hglobal, rfl⟩, beq_self_eq_true v.id⟩
  rw [isUsed, husage, Usage.uses_readingAll]
  simp only [Bool.or_eq_true, decide_eq_true_eq]
  omega

/-- Where all global variables count as read, each of them is given its value that is not given one
elsewhere. -/
theorem writeGlobals_readingAll (program : Program) :
    writeGlobals (.readingAll program) program.globals = (do
      for (v, value) in program.globals do
        if !(v.isUniform || v.ty.isEffect || v.builtin) then
          writeDeclaration (.readingAll program) v value) := by
  unfold writeGlobals
  refine congrArg (fun loop => loop >>= fun _ => pure PUnit.unit)
    (List.forIn'_congr rfl rfl fun declared hdeclared _ => ?_)
  simp only [isUsed_readingAll hdeclared, Bool.and_true]

/-- Generates the code of a program in a context. -/
def CodeContext.generate (ctx : CodeContext) : Except CompileError Pipeline :=
  match (writeProgram ctx).run (.start ctx.trace) with
  | .error reason => .error (.unsupported reason)
  | .ok ((), g) =>
    let debugTrace := if ctx.trace then some g.debugTrace else none
    match Pipeline.ofBuilder g.builder g.values.next g.uniforms.next g.immutable.length
        debugTrace with
    | .error e => .error (.pipeline e)
    | .ok pipeline => .ok pipeline

theorem Program.generate_eq (program : Program) :
    program.generate = (CodeContext.ofProgram program).generate := by
  have htrace : (CodeContext.ofProgram program).trace = program.dialect.settings.debugTrace :=
    congrArg (·.dialect.settings.debugTrace) (CodeContext.ofDepth_program ..)
  unfold generate CodeContext.generate
  generalize (CodeContext.ofProgram program).trace = trace at htrace
  subst htrace
  rfl

/-- A variable whose initializer stores to another one, and which nothing reads. -/
def storingInitializer : String :=
  "float g = 0; float f() \x7b g = 1; return 0; \x7d float h = f(); " ++
    "half4 main(float2 p) \x7b return half4(half(g)); \x7d"

/-- The colors of a shader whose code is generated in a given context for its program. -/
def colorsIn? (context : Program → CodeContext) (source : String) (pixels : List Pixel) :
    Option (List (Rgba UInt32)) := do
  let program ← (Program.readOn .root ⟨.runtimeShader, Settings.standard⟩ source).toOption
  let pipeline ← (context program).generate.toOption
  let output ← (pipeline.evaluate 1 none [] pixels).toOption
  return output.colors

/-- The variable is left out with the call in its initializer, which the color shows. -/
theorem Program.skipped_initializer_changes_color :
    colorsIn? .ofProgram storingInitializer [.zero] = some [.splat 0] ∧
      colorsIn? .readingAll storingInitializer [.zero] = some [.splat Word.one] := by
  decide +kernel

end RasterShader
