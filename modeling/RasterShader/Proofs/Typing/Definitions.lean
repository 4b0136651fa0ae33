import Mathlib
import RasterShader.Proofs.Typing.Overloads

/-!
# The definition of a call

A call holds the declaration that was chosen when it was read, and its definition is looked up when
the whole program has been read.  In an accepted program, every call of a function that is not
intrinsic has a definition, and no two functions of the program have the same identity or the same
signature, so that it does not matter in which order the program's functions are asked
(`Program.definition_of_call`).

A declaration of a module can be hidden by a function of the same signature that a program defines.
Calls after that definition choose the program's function.  Calls before it have chosen the
module's, and still run the program's (`Program.later_definition_takes_call`).
-/

namespace RasterShader

open Session

/-! ## What a session keeps from its start -/

/-- The modules below stay, identities are not used again, and every buffer for reports that was
opened is closed. -/
structure Session.Alongside (s s' : Session) : Prop where
  modules : s'.modules = s.modules
  isBuiltin : s'.isBuiltin = s.isBuiltin
  buffers : s'.sink.buffers.length = s.sink.buffers.length
  nextId : s.nextId ≤ s'.nextId
  fresh : ∀ d ∈ definitions s'.elements, d ∈ definitions s.elements ∨ s.nextId ≤ d.decl.id

instance : SessionOrder Alongside where
  refl _ := ⟨rfl, rfl, rfl, le_rfl, fun _ => .inl⟩
  trans h h' :=
    ⟨h'.modules.trans h.modules, h'.isBuiltin.trans h.isBuiltin, h'.buffers.trans h.buffers,
      h.nextId.trans h'.nextId, fun d hd =>
        (h'.fresh d hd).elim (h.fresh d) fun hle => .inr (h.nextId.trans hle)⟩
  sink _ _ hbuffers := ⟨rfl, rfl, hbuffers, le_rfl, fun _ => .inl⟩

/-- Nothing is added to the elements. -/
def Session.SameElements (s s' : Session) : Prop := s'.elements = s.elements

instance : SessionOrder SameElements where
  refl _ := rfl
  trans h h' := Eq.trans h' h
  sink _ _ _ := rfl

namespace SessionM

@[grind ←] theorem alongside_freshId : Keeps Alongside freshId :=
  fun _ => ⟨rfl, rfl, rfl, Nat.le_succ _, fun _ => .inl⟩

@[grind ←] theorem alongside_modifySymbols (f : SymbolTable → SymbolTable) :
    Keeps Alongside (modifySymbols f) := fun _ => ⟨rfl, rfl, rfl, le_rfl, fun _ => .inl⟩

theorem sameElements_modifySymbols (f : SymbolTable → SymbolTable) :
    (modifySymbols f).Keeps SameElements := fun _ => rfl

theorem sameElements_freshId : freshId.Keeps SameElements := fun _ => rfl

theorem alongside_addElement (e : Element) (he : e.definition? = none) :
    Keeps Alongside (addElement e) := by
  intro s
  exact ⟨rfl, rfl, rfl, le_rfl, fun d hd => .inl (definitions_append_other s.elements he ▸ hd)⟩

end SessionM

namespace Typing

open SessionM

theorem sameElements_declareFunction (span : Span) (modifiers : Modifiers) (returns : Ty)
    (name : String) (parameters : List Variable) (isDefinition : Bool) :
    (declareFunction span modifiers returns name parameters isDefinition).Keeps SameElements :=
  keeps_declareFunction SessionM.sameElements_modifySymbols SessionM.sameElements_freshId
    _ _ _ _ _ _

/-- A function that is about to be defined has a fresh identity, which is given out by that. -/
theorem id_of_declareFunction {span : Span} {modifiers : Modifiers} {returns : Ty} {name : String}
    {parameters : List Variable} {s s' : Session} {f : FunctionDecl}
    (h : (declareFunction span modifiers returns name parameters true).run s = (some f, s')) :
    f.id = s.nextId ∧ s'.nextId = s.nextId + 1 := by
  obtain ⟨sink, hrun | ⟨decl, hid, -, -, hrun⟩⟩ :=
    run_declareFunction s span modifiers returns name parameters true
  · rw [hrun] at h
    cases h
  · rw [hrun] at h
    suffices decl = f ∧ s'.nextId = s.nextId + 1 from ⟨this.1 ▸ hid, this.2⟩
    obtain ⟨s', hnone, -⟩ | ⟨hfalse, -⟩ | ⟨-, e, -, -, -, hdefines⟩ | ⟨-, hadd⟩ :=
      run_settle_cases { s with sink, nextId := s.nextId + 1 } span decl true
        ((s.overloads name).filter (·.matchesSignature decl))
    · rw [hnone] at h
      cases h
    · cases hfalse
    · rw [hdefines] at h
      cases h
      exact ⟨rfl, rfl⟩
    · rw [hadd] at h
      obtain ⟨s', hnone, -⟩ | hput :=
        run_addOverload_cases { s with sink, nextId := s.nextId + 1 } span decl
      · rw [hnone] at h
        cases h
      · rw [hput] at h
        cases h
        exact ⟨rfl, rfl⟩

end Typing

namespace Session

theorem Beside.alongside {s s' : Session} (h : s.Beside s') : s.Alongside s' :=
  ⟨h.modules, h.isBuiltin, h.buffers, h.nextId, fun _ hd => .inl (h.elements ▸ hd)⟩

/-- Sessions stay alongside the one they started from. -/
theorem invariant_alongside (s : Session) :
    Session.Invariant s.Alongside fun f s' => s.Alongside s' ∧ s.nextId ≤ f.id where
  beside h hbeside := SessionOrder.trans h hbeside.alongside
  pending_beside h hbeside := ⟨SessionOrder.trans h.1 hbeside.alongside, h.2⟩
  of_pending := And.left
  declare _ _ _ _ _ h :=
    SessionOrder.trans h (SessionM.keeps_declare SessionM.alongside_modifySymbols _ _ _ _)
  declareFunction _ _ _ _ _ _ _ h := SessionOrder.trans h (Typing.keeps_declareFunction
    SessionM.alongside_modifySymbols SessionM.alongside_freshId _ _ _ _ _ _ _)
  pending {span modifiers returns name parameters s₁ s₂ f} h hrun := by
    have declared := Typing.keeps_declareFunction SessionM.alongside_modifySymbols
      SessionM.alongside_freshId span modifiers returns name parameters true s₁
    rw [hrun] at declared
    exact ⟨SessionOrder.trans h declared, h.nextId.trans (Typing.id_of_declareFunction hrun).1.ge⟩
  addElement _ he _ _ h := SessionOrder.trans h (SessionM.alongside_addElement _ he _)
  addFunction {f s₁ body} _ h := by
    refine ⟨h.1.modules, h.1.isBuiltin, h.1.buffers, h.1.nextId, fun d hd => ?_⟩
    have hd : d ∈ definitions s₁.elements ++ [⟨f, body⟩] :=
      definitions_append_function s₁.elements ⟨f, body⟩ ▸ hd
    obtain hd | rfl := (List.mem_append.1 hd).imp_right List.mem_singleton.1
    · exact h.1.fresh d hd
    · exact .inr h.2

theorem alongside_readChars (s : Session) (source : List Char) :
    s.Alongside (s.readChars source) :=
  (invariant_alongside s).readChars (SessionOrder.refl s) source

/-- The functions that are defined have identities of their own, which have all been given out. -/
structure Numbered (s : Session) : Prop where
  below : ∀ d ∈ definitions s.elements, d.decl.id < s.nextId
  apart : ((definitions s.elements).map (·.decl.id)).Nodup

theorem Numbered.of_same {s s' : Session} (h : s.Numbered) (same : s.SameElements s')
    (hle : s.nextId ≤ s'.nextId) : s'.Numbered where
  below d hd := (h.below d (same ▸ hd)).trans_le hle
  apart := by
    rw [show s'.elements = s.elements from same]
    exact h.apart

/-- A definition that has been announced has an identity behind those of all others. -/
theorem invariant_numbered : Session.Invariant Numbered fun f s =>
    s.Numbered ∧ f.id < s.nextId ∧ ∀ d ∈ definitions s.elements, d.decl.id < f.id where
  beside h hbeside := h.of_same hbeside.elements hbeside.nextId
  pending_beside h hbeside := ⟨h.1.of_same hbeside.elements hbeside.nextId,
    h.2.1.trans_le hbeside.nextId, fun d hd => h.2.2 d (hbeside.elements ▸ hd)⟩
  of_pending := And.left
  declare _ _ _ _ s h :=
    h.of_same (SessionM.keeps_declare SessionM.sameElements_modifySymbols _ _ _ s)
      (SessionM.keeps_declare SessionM.alongside_modifySymbols _ _ _ s).nextId
  declareFunction _ _ _ _ _ _ s h :=
    h.of_same (Typing.sameElements_declareFunction _ _ _ _ _ _ s)
      (Typing.keeps_declareFunction SessionM.alongside_modifySymbols SessionM.alongside_freshId
        _ _ _ _ _ _ s).nextId
  pending {span modifiers returns name parameters s s' f} h hrun := by
    have same := Typing.sameElements_declareFunction span modifiers returns name parameters true s
    rw [hrun] at same
    obtain ⟨hid, hnext⟩ := Typing.id_of_declareFunction hrun
    refine ⟨h.of_same same (by omega), by omega, fun d hd => ?_⟩
    rw [hid]
    exact h.below d (same ▸ hd)
  addElement _ he _ s h :=
    have hdefinitions := definitions_append_other s.elements he
    ⟨fun d hd => h.below d (hdefinitions ▸ hd), hdefinitions.symm ▸ h.apart⟩
  addFunction {f s body} _ h := by
    have hdefinitions := definitions_append_function s.elements ⟨f, body⟩
    obtain ⟨numbered, hlt, hbehind⟩ := h
    constructor
    · intro d hd
      obtain hd | rfl := (List.mem_append.1 (hdefinitions ▸ hd)).imp_right List.mem_singleton.1
      · exact numbered.below d hd
      · exact hlt
    · show ((definitions (s.elements ++ [.function ⟨f, body⟩])).map (·.decl.id)).Nodup
      rw [hdefinitions, List.map_append, List.nodup_append]
      refine ⟨numbered.apart, List.nodup_singleton _, fun n hn m hm => ?_⟩
      obtain ⟨d, hd, rfl⟩ := List.mem_map.1 hn
      obtain rfl := List.mem_singleton.1 hm
      exact (hbehind d hd).ne

theorem numbered_readChars (dialect : Dialect) (modules : List Module) (isBuiltin : Bool)
    (nextId : Nat) (source : List Char) :
    ((Session.start dialect modules isBuiltin nextId).readChars source).Numbered := by
  have start : (Session.start dialect modules isBuiltin nextId).Numbered := ⟨nofun, .nil⟩
  exact invariant_numbered.readChars start source

end Session

/-! ## Libraries -/

/-- What has been read of a built-in module may stand below others. -/
theorem Session.Settled.finished_module {s : Session} (h : s.Settled) (hb : s.isBuiltin = true)
    (name : String) : Module.Finished s.nextId ⟨name, s.symbols.layer, s.elements⟩ :=
  ⟨h.inner, hb ▸ h.scope, hb ▸ h.own⟩

/-- Every module of a library has been read. -/
def Library.Finished (library : Library) : Prop :=
  ∀ m ∈ library.modules, m.Finished library.nextId

namespace Library

theorem Finished.settled_start {library : Library} (h : library.Finished) (dialect : Dialect)
    (isBuiltin : Bool) :
    (Session.start dialect library.modules isBuiltin library.nextId).Settled where
  inner := rfl
  below := rfl
  finished := h
  scope := nofun
  own := nofun
  known _ := nofun
  once _ := .nil

theorem finished_root : root.Finished := by
  intro m hm
  obtain rfl := List.mem_singleton.1 hm
  refine ⟨rfl, fun name fs hfs => ?_, nofun⟩
  have htype (names : List (String × Ty)) :
      List.lookup name (names.map fun entry => (entry.1, Symbol.type entry.2)) ≠
        some (.functions fs) := by
    induction names with
    | nil => simp
    | cons entry names ih =>
      rw [List.map_cons, List.lookup_cons]
      split
      · simp
      · exact ih
  exact absurd hfs (htype Ty.named)

/-- A module that is read on top of others is as finished as they are. -/
theorem Finished.extend {library : Library} (h : library.Finished) (kind : ProgramKind)
    (name : String) (lines : List String) : (library.extend kind name lines).Finished := by
  have settled := invariant_settled.readChars (h.settled_start ⟨kind, moduleSettings⟩ true)
    (sourceChars lines)
  have alongside := alongside_readChars
    (Session.start ⟨kind, moduleSettings⟩ library.modules true library.nextId) (sourceChars lines)
  rintro m (_ | ⟨_, hm⟩)
  · exact settled.finished_module alongside.isBuiltin name
  · exact settled.finished m (alongside.modules ▸ hm)

/-- What holds of the named types, and of every module on top of others that it holds of, holds of
the modules of every kind of program. -/
theorem forKind_induction {P : Library → Prop} (hroot : P root)
    (extend : ∀ library kind name lines, P library → P (library.extend kind name lines))
    (kind : ProgramKind) : P (forKind kind) := by
  have hshared : P shared := extend _ _ _ _ hroot
  have hgpu : P gpu := extend _ _ _ _ hshared
  have hvertex : P vertex := extend _ _ _ _ hgpu
  have hfragment : P fragment := extend _ _ _ _ hgpu
  have heffects : P effects := extend _ _ _ _ hshared
  cases kind with
  | vertex => exact hvertex
  | fragment => exact hfragment
  | compute => exact extend _ _ _ _ hgpu
  | graphiteVertex | graphiteVertexEs2 => exact extend _ _ _ _ hvertex
  | graphiteFragment | graphiteFragmentEs2 => exact extend _ _ _ _ hfragment
  | runtimeShader => exact extend _ _ _ _ heffects
  | runtimeColorFilter | runtimeBlender | generic => exact heffects

/-- The modules of every kind of program are finished. -/
theorem finished_forKind (kind : ProgramKind) : (forKind kind).Finished :=
  forKind_induction finished_root (fun _ _ _ _ h => h.extend _ _ _) kind

/-- The functions that the modules define. -/
def definitions (library : Library) : List FunctionDef :=
  library.modules.flatMap fun m => RasterShader.definitions m.elements

/-- The functions of all modules have identities of their own, which have all been given out. -/
structure Numbered (library : Library) : Prop where
  below : ∀ d ∈ library.definitions, d.decl.id < library.nextId
  apart : (library.definitions.map (·.decl.id)).Nodup

/-- Functions that are defined on top of modules have other identities than those of the modules. -/
theorem Numbered.apart_readChars {library : Library} (h : library.Numbered) (dialect : Dialect)
    (isBuiltin : Bool) (source : List Char) :
    let s := (Session.start dialect library.modules isBuiltin library.nextId).readChars source
    ((RasterShader.definitions s.elements ++ library.definitions).map (·.decl.id)).Nodup := by
  intro s
  have numbered := numbered_readChars dialect library.modules isBuiltin library.nextId source
  have alongside := alongside_readChars
    (Session.start dialect library.modules isBuiltin library.nextId) source
  rw [List.map_append, List.nodup_append]
  refine ⟨numbered.apart, h.apart, fun n hn m hm => ?_⟩
  obtain ⟨d, hd, rfl⟩ := List.mem_map.1 hn
  obtain ⟨e, he, rfl⟩ := List.mem_map.1 hm
  exact ((h.below e he).trans_le ((alongside.fresh d hd).resolve_left List.not_mem_nil)).ne'

theorem Numbered.extend {library : Library} (h : library.Numbered) (kind : ProgramKind)
    (name : String) (lines : List String) : (library.extend kind name lines).Numbered := by
  have numbered := numbered_readChars ⟨kind, moduleSettings⟩ library.modules true library.nextId
    (sourceChars lines)
  have alongside := alongside_readChars
    (Session.start ⟨kind, moduleSettings⟩ library.modules true library.nextId) (sourceChars lines)
  have hdefinitions : (library.extend kind name lines).definitions = _ ++ library.definitions :=
    List.flatMap_cons
  constructor
  · rw [hdefinitions]
    refine List.forall_mem_append.2 ⟨numbered.below, fun d hd => ?_⟩
    exact (h.below d hd).trans_le alongside.nextId
  · rw [hdefinitions]
    exact h.apart_readChars ⟨kind, moduleSettings⟩ true (sourceChars lines)

theorem numbered_root : root.Numbered := ⟨nofun, .nil⟩

/-- The built-in functions of every kind of program have identities of their own. -/
theorem numbered_forKind (kind : ProgramKind) : (forKind kind).Numbered :=
  forKind_induction numbered_root (fun _ _ _ _ h => h.extend _ _ _) kind

end Library

/-! ## Accepted programs -/

theorem Sink.delivered_reportAll {α : Type} {sink : Sink α} (h : sink.buffers = [])
    (entries : List α) : (sink.reportAll entries).delivered = sink.delivered ++ entries := by
  obtain ⟨delivered, _⟩ := sink
  obtain rfl := h
  rw [reportAll_of_no_buffer]

theorem SessionM.run_forM_report {α : Type} (place : α → Span × Issue) (xs : List α)
    (s : Session) : ((xs.forM fun x => report (place x).1 (place x).2).run s).2 =
      { s with sink := s.sink.reportAll (xs.map fun x => ⟨(place x).1, (place x).2⟩) } := by
  induction xs generalizing s with
  | nil => rfl
  | cons x xs ih => exact ih { s with sink := s.sink.report ⟨(place x).1, (place x).2⟩ }

namespace CallGraph

theorem isNone_target? (functions : List FunctionDef) (f : FunctionDecl) :
    (target? functions f).isNone = (findDefinition? functions f).isNone := by
  have hfind (p : FunctionDef → Bool) :
      (functions.findIdx? p).isNone = (functions.find? p).isNone := by
    rw [Bool.eq_iff_iff, Option.isNone_iff_eq_none, Option.isNone_iff_eq_none,
      List.findIdx?_eq_none_iff, List.find?_eq_none]
    simp
  have hid := hfind (·.decl.id == f.id)
  rw [target?, findDefinition?]
  split <;> split <;> simp_all

/-- Without undefined calls, every function that is called is intrinsic or has a definition. -/
theorem isSome_of_undefinedCalls {functions : List FunctionDef} {elsewhere : FunctionDecl → Bool}
    (h : undefinedCalls functions elsewhere = []) {caller : FunctionDef}
    (hcaller : caller ∈ functions) {f : FunctionDecl} (hf : f ∈ caller.body.calledFunctions)
    (hintrinsic : f.intrinsic = none) :
    (findDefinition? functions f).isSome = true ∨ elsewhere f = true := by
  have hgrow (sites found : List (Span × FunctionDecl)) (hfound : found ≠ []) :
      sites.foldl (fun found site =>
        if found.any (·.2.id == site.2.id) then found else found ++ [site]) found ≠ [] := by
    induction sites generalizing found with
    | nil => exact hfound
    | cons site sites ih =>
      rw [List.foldl_cons]
      refine ih _ ?_
      split
      · exact hfound
      · simp
  by_contra hmissing
  obtain ⟨⟨span, callee⟩, hsite, hcallee⟩ := List.mem_map.1 hf
  obtain rfl : callee = f := hcallee
  have hmem : (span, callee) ∈
      (functions.flatMap fun f => f.body.callSites).filter fun site =>
        site.2.intrinsic.isNone && (target? functions site.2).isNone && !elsewhere site.2 := by
    refine List.mem_filter.2 ⟨List.mem_flatMap.2 ⟨caller, hcaller, hsite⟩, ?_⟩
    simpa [isNone_target?, hintrinsic] using hmissing
  obtain ⟨site, sites, hsites⟩ := List.exists_cons_of_ne_nil (List.ne_nil_of_mem hmem)
  have hfold : undefinedCalls functions elsewhere =
      ((functions.flatMap fun f => f.body.callSites).filter fun site =>
        site.2.intrinsic.isNone && (target? functions site.2).isNone && !elsewhere site.2).foldl
          (fun found site =>
            if found.any (·.2.id == site.2.id) then found else found ++ [site]) [] := rfl
  rw [hfold, hsites, List.foldl_cons] at h
  exact hgrow sites _ (by simp) h

end CallGraph

/-- A program is finished with reports of its call cycles and its calls without a definition. -/
theorem Typing.run_finishProgram {s : Session} (hb : s.isBuiltin = false) :
    (finishProgram.run s).2 = { s with
      sink := s.sink.reportAll (((CallGraph.cycle? (definitions s.elements)).toList.map fun decl =>
        ⟨decl.span, .recursion⟩) ++ (CallGraph.undefinedCalls (definitions s.elements)
          fun f => (Module.findDefinition? s.modules f).isSome).map fun site =>
            ⟨site.1, .undefinedFunction site.2.signature⟩) } := by
  have hcalls (s' : Session) := SessionM.run_forM_report
    (fun site : Span × FunctionDecl => (site.1, Issue.undefinedFunction site.2.signature))
    (CallGraph.undefinedCalls (definitions s.elements)
      fun f => (Module.findDefinition? s.modules f).isSome) s'
  have hown : (!s.isBuiltin) = true := by simp [hb]
  cases hcycle : CallGraph.cycle? (definitions s.elements) with
  | none =>
    refine ((hcalls s).symm.trans ?_).symm
    simp only [finishProgram, StateT.run, bind, StateT.bind, get, getThe, MonadStateOf.get,
      StateT.get, pure, hown, hcycle]
    rfl
  | some decl =>
    refine ((hcalls { s with sink := s.sink.report ⟨decl.span, .recursion⟩ }).symm.trans ?_).symm
    simp only [finishProgram, StateT.run, bind, StateT.bind, get, getThe, MonadStateOf.get,
      StateT.get, pure, hown, hcycle]
    rfl

/-- If a finished program has no reports, there were none before, every call of a function that is
not intrinsic has a definition, and no function takes part in a call cycle. -/
theorem Typing.unreported_of_finishProgram {s : Session} (hb : s.isBuiltin = false)
    (hbuffers : s.sink.buffers = [])
    (h : (finishProgram.run s).2.sink.delivered = []) :
    s.sink.delivered = [] ∧ (∃ sink, (finishProgram.run s).2 = { s with sink }) ∧
      CallGraph.undefinedCalls (definitions s.elements)
        (fun f => (Module.findDefinition? s.modules f).isSome) = [] ∧
      CallGraph.cycle? (definitions s.elements) = none := by
  have hrun := run_finishProgram hb
  rw [hrun] at h
  rw [Sink.delivered_reportAll hbuffers, List.append_eq_nil_iff, List.append_eq_nil_iff,
    List.map_eq_nil_iff, List.map_eq_nil_iff, Option.toList_eq_nil_iff] at h
  exact ⟨h.1, ⟨_, hrun⟩, h.2.2, h.2.1⟩

/-- What is accepted has been read in full, and nothing is reported of its calls. -/
theorem Program.finished_of_readOn {library : Library} {dialect : Dialect} {source : String}
    {program : Program} (h : readOn library dialect source = .ok program) :
    program.modules = library.modules ∧
    program.elements = ((Session.start dialect library.modules false library.nextId).readChars
      source.toList).elements ∧
    CallGraph.undefinedCalls program.functions
      (fun f => (Module.findDefinition? program.modules f).isSome) = [] ∧
    CallGraph.cycle? program.functions = none := by
  let start := Session.start dialect library.modules false library.nextId
  have alongside : start.Alongside (start.read source) := by
    rw [Session.read]
    split
    · exact SessionM.keeps_report _ _ start
    · exact alongside_readChars start _
  rw [readOn] at h
  split at h
  · rename_i hempty
    obtain ⟨hdelivered, ⟨sink, hrun⟩, hcalls, hcycle⟩ :=
      Typing.unreported_of_finishProgram (s := start.read source) alongside.isBuiltin
        (List.length_eq_zero_iff.1 alongside.buffers) (List.isEmpty_iff.1 hempty)
    have hread : start.read source = start.readChars source.toList := by
      refine if_neg fun hlength => ?_
      rw [Session.read, if_pos hlength] at hdelivered
      cases hdelivered
    obtain rfl := Except.ok.inj h
    rw [hrun, functions]
    exact ⟨alongside.modules, congrArg Session.elements hread, hcalls, hcycle⟩
  · cases h

/-- What is accepted has been read in full, and every function it calls has a definition. -/
theorem Program.exists_of_readOn {library : Library} {dialect : Dialect} {source : String}
    {program : Program} (h : readOn library dialect source = .ok program) :
    program.modules = library.modules ∧
    program.elements = ((Session.start dialect library.modules false library.nextId).readChars
      source.toList).elements ∧
    CallGraph.undefinedCalls program.functions
      (fun f => (Module.findDefinition? program.modules f).isSome) = [] :=
  let ⟨hmodules, helements, hcalls, _⟩ := finished_of_readOn h
  ⟨hmodules, helements, hcalls⟩

/-! ## The definition of a call -/

section

variable {functions : List FunctionDef} {f : FunctionDecl} {d : FunctionDef}

/-- Among functions with identities and signatures of their own, a declaration has the definition of
its identity or, without one, that of its signature. -/
theorem findDefinition?_eq_some_iff
    (hapart : functions.Pairwise fun d e =>
      d.decl.id ≠ e.decl.id ∧ d.decl.matchesSignature e.decl = false) :
    findDefinition? functions f = some d ↔ d ∈ functions ∧ (d.decl.id = f.id ∨
      d.decl.matchesSignature f = true ∧ ∀ e ∈ functions, e.decl.id ≠ f.id) := by
  have : Std.Symm fun d e : FunctionDef =>
      d.decl.id ≠ e.decl.id ∧ d.decl.matchesSignature e.decl = false :=
    ⟨fun d e h => ⟨h.1.symm, d.decl.matchesSignature_comm e.decl ▸ h.2⟩⟩
  have hid {d e : FunctionDef} (hd : d ∈ functions) (he : e ∈ functions)
      (h : d.decl.id = e.decl.id) : d = e :=
    by_contra fun hne => (hapart.forall hd he hne).1 h
  have hsignature {d e : FunctionDef} (hd : d ∈ functions) (he : e ∈ functions)
      (hdf : d.decl.matchesSignature f = true) (hef : e.decl.matchesSignature f = true) :
      d = e := by
    refine by_contra fun hne => Bool.false_ne_true ?_
    rw [← (hapart.forall hd he hne).2, FunctionDecl.matchesSignature_congr hdf,
      FunctionDecl.matchesSignature_comm, hef]
  rw [findDefinition?]
  cases hfound : functions.find? (·.decl.id == f.id) with
  | some e =>
    have he := List.mem_of_find?_eq_some hfound
    have hef : e.decl.id = f.id := by simpa using List.find?_some hfound
    constructor
    · rintro ⟨⟩
      exact ⟨he, .inl hef⟩
    · rintro ⟨hd, hdf | ⟨-, hnone⟩⟩
      · rw [hid he hd (hef.trans hdf.symm)]
      · exact absurd hef (hnone e he)
  | none =>
    have hnone : ∀ e ∈ functions, e.decl.id ≠ f.id := by simpa using hfound
    dsimp only
    constructor
    · intro hd
      exact ⟨List.mem_of_find?_eq_some hd, .inr ⟨by simpa using List.find?_some hd, hnone⟩⟩
    · rintro ⟨hd, hdf | ⟨hdf, -⟩⟩
      · exact absurd hdf (hnone d hd)
      · obtain ⟨e, he⟩ := Option.isSome_iff_exists.1
          (List.find?_isSome (p := (·.decl.matchesSignature f)) |>.2 ⟨d, hd, hdf⟩)
        have hef : e.decl.matchesSignature f = true := by simpa using List.find?_some he
        rw [he, hsignature (List.mem_of_find?_eq_some he) hd hef hdf]

theorem findDefinition?_eq_none_iff :
    findDefinition? functions f = none ↔
      ∀ e ∈ functions, e.decl.id ≠ f.id ∧ e.decl.matchesSignature f = false := by
  rw [findDefinition?]
  cases hfound : functions.find? (·.decl.id == f.id) with
  | some e =>
    have he := List.mem_of_find?_eq_some hfound
    have hef : e.decl.id = f.id := by simpa using List.find?_some hfound
    simpa using ⟨e, he, fun hne => absurd hef hne⟩
  | none =>
    have hnone : ∀ e ∈ functions, e.decl.id ≠ f.id := by simpa using hfound
    dsimp only
    rw [List.find?_eq_none]
    exact ⟨fun h e he => ⟨hnone e he, by simpa using h e he⟩, fun h e he => by simp [(h e he).2]⟩

end

/-- A module of the library declares the function. -/
def Library.Declares (library : Library) (f : FunctionDecl) : Prop :=
  ∃ m ∈ library.modules, ∃ fs, m.layer.global.lookup f.name = some (.functions fs) ∧ f ∈ fs

namespace Program

variable {library : Library} {dialect : Dialect} {source : String} {program : Program}

/-- The functions of an accepted program have identities and signatures of their own, and
identities that no module has used. -/
theorem pairwise_functions (hlibrary : library.Finished)
    (hread : readOn library dialect source = .ok program) :
    (program.functions.Pairwise fun d e =>
      d.decl.id ≠ e.decl.id ∧ d.decl.matchesSignature e.decl = false) ∧
    ∀ d ∈ program.functions, library.nextId ≤ d.decl.id := by
  obtain ⟨-, helements, -⟩ := exists_of_readOn hread
  have alongside := alongside_readChars
    (Session.start dialect library.modules false library.nextId) source.toList
  have settled := invariant_settled.readChars (hlibrary.settled_start dialect false) source.toList
  rw [functions, helements]
  exact ⟨settled.once alongside.isBuiltin, fun d hd =>
    (alongside.fresh d hd).resolve_left List.not_mem_nil⟩

/-- The program is asked before its modules. -/
theorem findDefinition?_eq_some_iff (hlibrary : library.Finished)
    (hread : readOn library dialect source = .ok program) {f : FunctionDecl} {d : FunctionDef} :
    program.findDefinition? f = some d ↔
      (d ∈ program.functions ∧ (d.decl.id = f.id ∨
        d.decl.matchesSignature f = true ∧ ∀ e ∈ program.functions, e.decl.id ≠ f.id)) ∨
      (Module.findDefinition? library.modules f = some d ∧
        ∀ e ∈ program.functions, e.decl.id ≠ f.id ∧ e.decl.matchesSignature f = false) := by
  have hown := RasterShader.findDefinition?_eq_some_iff (f := f) (d := d)
    (pairwise_functions hlibrary hread).1
  have hnone : RasterShader.findDefinition? program.functions f = none ↔ _ :=
    findDefinition?_eq_none_iff
  rw [← hown, ← hnone, findDefinition?, (exists_of_readOn hread).1]
  cases RasterShader.findDefinition? program.functions f <;> simp

/-- In an accepted program every call of a function that is not intrinsic has one definition: the
program's of the same identity, or else the program's of the same signature, or else that of the
modules. Since identities of modules are not used again, a call of a function that a module declares
is taken over by the program's function of its signature, if there is one. -/
theorem definition_of_call (hlibrary : library.Finished)
    (hread : readOn library dialect source = .ok program) :
    (∀ caller ∈ program.functions, ∀ f ∈ caller.body.calledFunctions, f.intrinsic = none →
      (program.findDefinition? f).isSome = true) ∧
    (∀ f d, program.findDefinition? f = some d ↔
      (d ∈ program.functions ∧ (d.decl.id = f.id ∨
        d.decl.matchesSignature f = true ∧ ∀ e ∈ program.functions, e.decl.id ≠ f.id)) ∨
      (Module.findDefinition? library.modules f = some d ∧
        ∀ e ∈ program.functions, e.decl.id ≠ f.id ∧ e.decl.matchesSignature f = false)) ∧
    ∀ f, library.Declares f → ∀ d, program.findDefinition? f = some d ↔
      (d ∈ program.functions ∧ d.decl.matchesSignature f = true) ∨
      (Module.findDefinition? library.modules f = some d ∧
        ∀ e ∈ program.functions, e.decl.matchesSignature f = false) := by
  refine ⟨fun caller hcaller f hf hintrinsic => ?_,
    fun f d => findDefinition?_eq_some_iff hlibrary hread, fun f hdeclares d => ?_⟩
  · have hcall := CallGraph.isSome_of_undefinedCalls (exists_of_readOn hread).2.2 hcaller hf
      hintrinsic
    rw [findDefinition?]
    split
    · rfl
    · rename_i hnone
      rw [hnone] at hcall
      exact hcall.resolve_left Bool.false_ne_true
  · obtain ⟨m, hm, fs, hfs, hmem⟩ := hdeclares
    have hlt : f.id < library.nextId := ((hlibrary m hm).global f.name fs hfs).1.below f hmem
    have hne (e : FunctionDef) (he : e ∈ program.functions) : e.decl.id ≠ f.id :=
      (hlt.trans_le ((pairwise_functions hlibrary hread).2 e he)).ne'
    rw [findDefinition?_eq_some_iff hlibrary hread]
    refine or_congr (and_congr_right fun hd => ?_) (and_congr_right fun _ => ?_)
    · simp only [hne d hd, false_or, and_iff_left_iff_imp]
      exact fun _ => hne
    · exact forall₂_congr fun e he => and_iff_right (hne e he)

/-- The module `$pure float f(float x) { return x; }` on top of the named types. -/
def pureLibrary : Library :=
  Library.root.extend .generic "pure" ["$pure float f(float x) \x7b return x; \x7d"]

/-- A program that calls a built-in function and then defines its own, which writes a variable. -/
def shadowingSource : String :=
  "float t; float g(float x) \x7b return f(x); \x7d " ++
    "float f(float x) \x7b t = x; return x; \x7d void main() \x7b\x7d"

/-- The calls, by the caller's name and the name of the function called, of built-in functions that
are pure, where the definition is neither built-in nor pure. -/
def takenCalls (program : Program) : List (String × String) :=
  program.functions.flatMap fun caller =>
    (caller.body.calledFunctions.filter fun f => f.builtin && f.isPure &&
      (program.findDefinition? f).any fun d => !d.decl.builtin && !d.decl.isPure).map fun f =>
        (caller.decl.name, f.name)

theorem definition_of_call_shadowed :
    pureLibrary.Finished ∧ ∃ program,
      readOn pureLibrary ⟨.fragment, .standard⟩ shadowingSource = .ok program ∧
      program.functions.map (·.decl.name) = ["g", "f", "main"] ∧
      (∀ caller ∈ program.functions, ∀ f ∈ caller.body.calledFunctions, f.intrinsic = none →
        (program.findDefinition? f).isSome = true) ∧
      ∀ f, pureLibrary.Declares f → ∀ d, program.findDefinition? f = some d ↔
        (d ∈ program.functions ∧ d.decl.matchesSignature f = true) ∨
        (Module.findDefinition? pureLibrary.modules f = some d ∧
          ∀ e ∈ program.functions, e.decl.matchesSignature f = false) := by
  have hlibrary : pureLibrary.Finished := Library.finished_root.extend _ _ _
  have hnames : (readOn pureLibrary ⟨.fragment, .standard⟩ shadowingSource).toOption.map
      (fun program => program.functions.map (·.decl.name)) = some ["g", "f", "main"] := by
    decide +kernel
  cases hread : readOn pureLibrary ⟨.fragment, .standard⟩ shadowingSource with
  | error reports =>
    rw [hread] at hnames
    cases hnames
  | ok program =>
    rw [hread] at hnames
    have hcall := definition_of_call hlibrary hread
    exact ⟨hlibrary, program, rfl, Option.some.inj hnames, hcall.1, hcall.2.2⟩

/-- A call of a built-in function that is pure runs the function of the same signature that the
program defines after the call, and that is not pure. -/
theorem later_definition_takes_call :
    (readOn pureLibrary ⟨.fragment, .standard⟩ shadowingSource).toOption.map takenCalls =
      some [("g", "f")] := by
  decide +kernel

end Program

end RasterShader
