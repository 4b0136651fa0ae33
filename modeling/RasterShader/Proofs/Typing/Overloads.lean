import Mathlib
import RasterShader.Program
import RasterShader.Proofs.Reading.Invariants

/-!
# Overloads and their definitions

The overloads of a name have identities of their own, and those of a program have signatures of
their own as well (`Overloads`).  A session between two declarations is `Settled` when this holds of
every name in scope and when what a program has defined is among the overloads in scope, each
identity and each signature once.  It stays settled: a definition either replaces the prototype of
its signature, or it joins overloads of which none but built-in ones have its signature
(`Settled.declareFunction`), and until its body has been read nothing else of its signature is
defined (`Announced`).
-/

namespace RasterShader

open Session

/-! ## Signatures -/

namespace FunctionDecl

theorem matchesSignature_iff {f g : FunctionDecl} :
    f.matchesSignature g = true ↔
      f.name = g.name ∧ f.parameters.map (·.ty.name) = g.parameters.map (·.ty.name) := by
  have hparameters (xs ys : List Variable) :
      (xs.length = ys.length ∧ (xs.zip ys).all (fun x => x.1.ty.same x.2.ty) = true) ↔
        xs.map (·.ty.name) = ys.map (·.ty.name) := by
    induction xs generalizing ys with
    | nil => cases ys <;> simp
    | cons x xs ih =>
      cases ys with
      | nil => simp
      | cons y ys =>
        simp only [List.length_cons, Nat.add_right_cancel_iff, List.zip_cons_cons, List.all_cons,
          Bool.and_eq_true, List.map_cons, List.cons.injEq, ← ih ys, Ty.same, beq_iff_eq]
        tauto
  rw [matchesSignature, Bool.and_eq_true, Bool.and_eq_true, beq_iff_eq, beq_iff_eq, and_assoc]
  exact and_congr_right fun _ => hparameters f.parameters g.parameters

theorem matchesSignature_comm (f g : FunctionDecl) :
    f.matchesSignature g = g.matchesSignature f := by
  rw [Bool.eq_iff_iff, matchesSignature_iff, matchesSignature_iff]
  exact and_congr eq_comm eq_comm

/-- Functions with one signature match the same functions. -/
theorem matchesSignature_congr {f g : FunctionDecl} (h : f.matchesSignature g = true)
    (k : FunctionDecl) : f.matchesSignature k = g.matchesSignature k := by
  obtain ⟨hname, hparameters⟩ := matchesSignature_iff.1 h
  rw [Bool.eq_iff_iff, matchesSignature_iff, matchesSignature_iff, hname, hparameters]

end FunctionDecl

/-! ## Definitions among elements -/

theorem mem_definitions_iff {elements : List Element} {f : FunctionDef} :
    f ∈ definitions elements ↔ Element.function f ∈ elements := by
  refine ⟨fun h => ?_, fun h => List.mem_filterMap.2 ⟨_, h, rfl⟩⟩
  obtain ⟨e, he, hdefinition⟩ := List.mem_filterMap.1 h
  cases e with
  | function g =>
    obtain rfl := Option.some.inj hdefinition
    exact he
  | global | interfaceBlock | prototype | struct | extension => cases hdefinition

theorem definitions_append_function (elements : List Element) (d : FunctionDef) :
    definitions (elements ++ [.function d]) = definitions elements ++ [d] := by
  simp [definitions, Element.definition?]

theorem definitions_append_other (elements : List Element) {e : Element}
    (he : e.definition? = none) : definitions (elements ++ [e]) = definitions elements := by
  simp [definitions, he]

/-! ## Overloads in scope -/

/-- Overloads of a name: each has an identity of its own, and no two of a program have one
signature. -/
structure Overloads (nextId : Nat) (name : String) (fs : List FunctionDecl) : Prop where
  named : ∀ f ∈ fs, f.name = name
  below : ∀ f ∈ fs, f.id < nextId
  once : fs.Pairwise fun f g => f.id ≠ g.id
  apart : fs.Pairwise fun f g =>
    f.builtin = false → g.builtin = false → f.matchesSignature g = false

namespace Overloads

variable {nextId nextId' : Nat} {name : String} {fs : List FunctionDecl} {decl e : FunctionDecl}

theorem mono (h : Overloads nextId name fs) (hle : nextId ≤ nextId') : Overloads nextId' name fs :=
  ⟨h.named, fun f hf => (h.below f hf).trans_le hle, h.once, h.apart⟩

theorem nil : Overloads nextId name [] := ⟨by simp, by simp, .nil, .nil⟩

theorem eq_of_id_eq (h : Overloads nextId name fs) (hdecl : decl ∈ fs) (he : e ∈ fs)
    (hid : decl.id = e.id) : decl = e := by
  have : Std.Symm fun f g : FunctionDecl => f.id ≠ g.id := ⟨fun _ _ h => h.symm⟩
  exact by_contra fun hne => h.once.forall hdecl he hne hid

theorem eq_of_matches (h : Overloads nextId name fs) (hdecl : decl ∈ fs) (he : e ∈ fs)
    (hb : decl.builtin = false) (hb' : e.builtin = false)
    (hmatches : decl.matchesSignature e = true) : decl = e := by
  have : Std.Symm fun f g : FunctionDecl =>
      f.builtin = false → g.builtin = false → f.matchesSignature g = false :=
    ⟨fun f g h hf hg => f.matchesSignature_comm g ▸ h hg hf⟩
  refine by_contra fun hne => ?_
  have happart := h.apart.forall hdecl he hne hb hb'
  rw [hmatches] at happart
  cases happart

/-- A new overload. -/
theorem cons (h : Overloads nextId name fs) (hname : decl.name = name) (hid : nextId ≤ decl.id)
    (hlt : decl.id < nextId') (hapart : ∀ f ∈ fs, f.builtin = false → decl.builtin = false →
      decl.matchesSignature f = false) : Overloads nextId' name (decl :: fs) where
  named := by simpa [hname] using h.named
  below := by
    simp only [List.mem_cons, forall_eq_or_imp]
    exact ⟨hlt, fun f hf => ((h.below f hf).trans_le hid).trans hlt⟩
  once := List.pairwise_cons.2 ⟨fun f hf => ((h.below f hf).trans_le hid).ne', h.once⟩
  apart := List.pairwise_cons.2 ⟨fun f hf hb hb' => hapart f hf hb' hb, h.apart⟩

/-- An overload in the place of another one with its signature. -/
theorem replace (h : Overloads nextId name fs) (he : e ∈ fs) (hid : nextId ≤ decl.id)
    (hlt : decl.id < nextId') (hmatches : e.matchesSignature decl = true)
    (hb : e.builtin = false) :
    Overloads nextId' name (fs.map fun f => if f.id == e.id then decl else f) := by
  have hne (f : FunctionDecl) (hf : f ∈ fs) : f.id ≠ decl.id := ((h.below f hf).trans_le hid).ne
  have hreplaced (f : FunctionDecl) (hf : f ∈ fs) (hfe : (f.id == e.id) = true) : f = e :=
    h.eq_of_id_eq hf he (beq_iff_eq.1 hfe)
  refine ⟨?_, ?_, ?_, ?_⟩
  · simp only [List.mem_map, forall_exists_index, and_imp, forall_apply_eq_imp_iff₂]
    intro f hf
    split
    · exact (FunctionDecl.matchesSignature_iff.1 hmatches).1.symm.trans (h.named e he)
    · exact h.named f hf
  · simp only [List.mem_map, forall_exists_index, and_imp, forall_apply_eq_imp_iff₂]
    intro f hf
    split
    · exact hlt
    · exact ((h.below f hf).trans_le hid).trans hlt
  · refine List.pairwise_map.2 (h.once.imp_of_mem fun {f g} hf hg hfg => ?_)
    split <;> split
    · rename_i hfe hge
      exact absurd ((beq_iff_eq.1 hfe).trans (beq_iff_eq.1 hge).symm) hfg
    · exact (hne g hg).symm
    · exact hne f hf
    · exact hfg
  · refine List.pairwise_map.2 ((h.once.and h.apart).imp_of_mem fun {f g} hf hg hfg => ?_)
    split <;> split
    · rename_i hfe hge
      exact absurd ((beq_iff_eq.1 hfe).trans (beq_iff_eq.1 hge).symm) hfg.1
    · rename_i hfe _
      intro _ hg'
      obtain rfl := hreplaced f hf hfe
      rw [← FunctionDecl.matchesSignature_congr hmatches]
      exact hfg.2 hb hg'
    · rename_i _ hge
      intro hf' _
      obtain rfl := hreplaced g hg hge
      rw [FunctionDecl.matchesSignature_comm, ← FunctionDecl.matchesSignature_congr hmatches,
        FunctionDecl.matchesSignature_comm]
      exact hfg.2 hf' hb
    · exact hfg.2

end Overloads

/-- The overloads in a scope are as they may be, and all built-in in one of a built-in module. -/
def Scope.Overloading (nextId : Nat) (builtin : Bool) (scope : Scope) : Prop :=
  ∀ name fs, scope.lookup name = some (.functions fs) →
    Overloads nextId name fs ∧ (builtin = true → ∀ f ∈ fs, f.builtin = true)

namespace Scope

variable {nextId nextId' : Nat} {builtin : Bool} {scope : Scope} {name : String} {symbol : Symbol}

theorem Overloading.mono (h : scope.Overloading nextId builtin) (hle : nextId ≤ nextId') :
    scope.Overloading nextId' builtin := fun name fs hfs =>
  ⟨(h name fs hfs).1.mono hle, (h name fs hfs).2⟩

theorem lookup_put (scope : Scope) (name name' : String) (symbol : Symbol) :
    (scope.put name symbol).lookup name' =
      if name' = name then some symbol else scope.lookup name' := by
  by_cases hname : name' = name
  · simp [put, hname]
  · have hbeq : (name' == name) = false := by simpa using hname
    rw [if_neg hname, put, List.lookup, hbeq]
    induction scope with
    | nil => rfl
    | cons entry scope ih =>
      obtain ⟨key, value⟩ := entry
      by_cases hkey : key = name
      · subst hkey
        simp only [List.filter_cons, bne_self_eq_false, Bool.false_eq_true, if_false,
          List.lookup, hbeq]
        exact ih
      · simp only [List.filter_cons, bne_iff_ne, ne_eq, hkey, not_false_eq_true, if_true,
          List.lookup]
        split
        · rfl
        · exact ih

theorem Overloading.put (h : scope.Overloading nextId builtin)
    (hsymbol : ∀ fs, symbol = .functions fs →
      Overloads nextId name fs ∧ (builtin = true → ∀ f ∈ fs, f.builtin = true)) :
    (scope.put name symbol).Overloading nextId builtin := by
  intro name' fs hfs
  rw [lookup_put] at hfs
  split at hfs
  · rename_i hname
    subst hname
    exact hsymbol fs (Option.some.inj hfs)
  · exact h name' fs hfs

/-- One overload is replaced in its list, and everything else stays. -/
theorem lookup_replaceOverload? {old : Nat} {new : FunctionDecl} {fs : List FunctionDecl}
    (hfs : scope.lookup new.name = some (.functions fs)) (hold : ∃ f ∈ fs, f.id = old) :
    ∃ scope', scope.replaceOverload? old new = some scope' ∧ ∀ name,
      scope'.lookup name = if name = new.name
        then some (.functions (fs.map fun f => if f.id == old then new else f))
        else scope.lookup name := by
  have hany : fs.any (·.id == old) = true := by simpa using hold
  refine ⟨_, by rw [replaceOverload?, hfs]; exact if_pos hany, fun name => ?_⟩
  generalize (fs.map fun f => if f.id == old then new else f) = replaced
  have hmap (scope : Scope) : (scope.map fun entry =>
      if entry.1 == new.name then (entry.1, Symbol.functions replaced) else entry).lookup name =
        (scope.lookup name).map fun symbol => if name = new.name then .functions replaced
          else symbol := by
    induction scope with
    | nil => rfl
    | cons entry scope ih =>
      obtain ⟨key, value⟩ := entry
      rw [List.map_cons, List.lookup_cons]
      by_cases hnew : key = new.name
      · subst hnew
        by_cases hname : name = new.name
        · simp [hname]
        · have hbeq : (name == new.name) = false := by simpa using hname
          simp only [beq_self_eq_true, if_true, List.lookup_cons, hbeq]
          exact ih
      · have hbeq : (key == new.name) = false := by simpa using hnew
        simp only [hbeq, Bool.false_eq_true, if_false, List.lookup_cons]
        cases hname : name == key with
        | false => exact ih
        | true =>
          rw [beq_iff_eq] at hname
          simp [hname, hnew]
  refine (hmap scope).trans ?_
  by_cases hname : name = new.name
  · rw [if_pos hname, hname, hfs]
    simp
  · simp [hname]

end Scope

/-- A built-in module that has been read. -/
structure Module.Finished (nextId : Nat) (m : Module) : Prop where
  inner : m.layer.inner = []
  global : m.layer.global.Overloading nextId true
  own : ∀ d ∈ definitions m.elements, d.decl.builtin = true

theorem Module.Finished.mono {nextId nextId' : Nat} {m : Module} (h : m.Finished nextId)
    (hle : nextId ≤ nextId') : m.Finished nextId' :=
  ⟨h.inner, h.global.mono hle, h.own⟩

/-! ## Sessions between declarations -/

namespace Session

/-- The function is among the overloads in the global scope. -/
def Knows (s : Session) (f : FunctionDecl) : Prop :=
  ∃ fs, s.symbols.layer.global.lookup f.name = some (.functions fs) ∧ f ∈ fs

/-- The overloads of a name that are in scope. -/
def overloads (s : Session) (name : String) : List FunctionDecl :=
  match s.symbols.lookup? name with
  | some (.functions fs) => fs
  | _ => []

/-- A session between declarations.  What a program has defined is in scope, and nothing is defined
twice. -/
structure Settled (s : Session) : Prop where
  inner : s.symbols.layer.inner = []
  below : s.symbols.below = s.modules.map Module.layer
  finished : ∀ m ∈ s.modules, m.Finished s.nextId
  scope : s.symbols.layer.global.Overloading s.nextId s.isBuiltin
  own : ∀ d ∈ definitions s.elements, d.decl.builtin = s.isBuiltin
  known : s.isBuiltin = false → ∀ d ∈ definitions s.elements, s.Knows d.decl
  once : s.isBuiltin = false → (definitions s.elements).Pairwise fun d e =>
    d.decl.id ≠ e.decl.id ∧ d.decl.matchesSignature e.decl = false

/-- The definition of a function has been announced: nothing that is defined already has its
identity or signature. -/
structure Announced (f : FunctionDecl) (s : Session) : Prop where
  settled : s.Settled
  own : f.builtin = s.isBuiltin
  known : s.isBuiltin = false → s.Knows f
  free : s.isBuiltin = false → ∀ d ∈ definitions s.elements,
    d.decl.id ≠ f.id ∧ d.decl.matchesSignature f = false

variable {s s' : Session}

theorem Knows.of_global_eq {f : FunctionDecl} (h : s.Knows f)
    (hglobal : s'.symbols.layer.global = s.symbols.layer.global) : s'.Knows f := by
  rw [Knows, hglobal]
  exact h

theorem Settled.beside (h : s.Settled) (hbeside : s.Beside s') : s'.Settled where
  inner := hbeside.inner.trans h.inner
  below := by rw [hbeside.below, hbeside.modules, h.below]
  finished m hm := by
    rw [hbeside.modules] at hm
    exact (h.finished m hm).mono hbeside.nextId
  scope := by
    rw [hbeside.global, hbeside.isBuiltin]
    exact h.scope.mono hbeside.nextId
  own := by
    rw [hbeside.elements, hbeside.isBuiltin]
    exact h.own
  known := by
    rw [hbeside.elements, hbeside.isBuiltin]
    exact fun hb d hd => (h.known hb d hd).of_global_eq hbeside.global
  once := by
    rw [hbeside.elements, hbeside.isBuiltin]
    exact h.once

/-- Reports and fresh identities do not matter. -/
theorem Settled.later (h : s.Settled) (sink : Sink Report) {nextId : Nat}
    (hle : s.nextId ≤ nextId) : { s with sink, nextId }.Settled where
  inner := h.inner
  below := h.below
  finished m hm := (h.finished m hm).mono hle
  scope := h.scope.mono hle
  own := h.own
  known := h.known
  once := h.once

theorem Announced.beside {f : FunctionDecl} (h : Announced f s) (hbeside : s.Beside s') :
    Announced f s' where
  settled := h.settled.beside hbeside
  own := h.own.trans hbeside.isBuiltin.symm
  known hb := (h.known (hbeside.isBuiltin ▸ hb)).of_global_eq hbeside.global
  free hb := by
    rw [hbeside.elements]
    exact h.free (hbeside.isBuiltin ▸ hb)

theorem lookup?_of_inner {layer : Layer} (hinner : layer.inner = []) (name : String) :
    layer.lookup? name = layer.global.lookup name := by
  simp [Layer.lookup?, Layer.scopes, hinner]

/-- What a name stands for is found in the global scope, or in the modules below. -/
theorem Settled.lookup?_eq (h : s.Settled) (name : String) :
    s.symbols.lookup? name = (s.symbols.layer.global.lookup name).or
      (s.modules.findSome? fun m => m.layer.global.lookup name) := by
  have hmodules (ms : List Module) (hms : ∀ m ∈ ms, m.layer.inner = []) :
      (ms.map Module.layer).findSome? (·.lookup? name) =
        ms.findSome? fun m => m.layer.global.lookup name := by
    induction ms with
    | nil => rfl
    | cons m ms ih =>
      simp only [List.map_cons, List.findSome?_cons, lookup?_of_inner (hms m (by simp)),
        ih fun m hm => hms m (by simp [hm])]
  rw [SymbolTable.lookup?, SymbolTable.layers, List.findSome?_cons, lookup?_of_inner h.inner,
    h.below, hmodules _ fun m hm => (h.finished m hm).inner]
  cases s.symbols.layer.global.lookup name <;> rfl

/-- The overloads in scope are those of the program, or built-in. -/
theorem Settled.overloads (h : s.Settled) (name : String) :
    Overloads s.nextId name (s.overloads name) ∧
      (s.symbols.layer.global.lookup name = some (.functions (s.overloads name)) ∨
        ∀ f ∈ s.overloads name, f.builtin = true) := by
  have hlookup := h.lookup?_eq name
  rw [Session.overloads]
  split
  · rename_i fs hfs
    rw [hfs] at hlookup
    cases hglobal : s.symbols.layer.global.lookup name with
    | some symbol =>
      rw [hglobal, Option.some_or] at hlookup
      obtain rfl : Symbol.functions fs = symbol := Option.some.inj hlookup
      exact ⟨(h.scope name fs hglobal).1, .inl rfl⟩
    | none =>
      rw [hglobal, Option.none_or] at hlookup
      obtain ⟨m, hm, hfound⟩ := List.exists_of_findSome?_eq_some hlookup.symm
      obtain ⟨overloads, hbuiltin⟩ := (h.finished m hm).global name fs hfound
      exact ⟨overloads, .inr (hbuiltin rfl)⟩
  · exact ⟨.nil, .inr (by simp)⟩

/-- Known functions are among the overloads in scope. -/
theorem Settled.mem_overloads (h : s.Settled) {f : FunctionDecl} (hf : s.Knows f) :
    f ∈ s.overloads f.name := by
  obtain ⟨fs, hfs, hmem⟩ := hf
  have hlookup := h.lookup?_eq f.name
  rw [hfs, Option.some_or] at hlookup
  rw [Session.overloads, hlookup]
  exact hmem

/-- In the global scope a name is bound anew, and no overload that was known is given up. -/
theorem Knows.put {f : FunctionDecl} (h : s.Knows f) (hinner : s.symbols.layer.inner = [])
    {name : String} {symbol : Symbol}
    (hkeep : ∀ fs, s.symbols.layer.global.lookup name = some (.functions fs) →
      ∃ gs, symbol = .functions gs ∧ ∀ f ∈ fs, f ∈ gs) :
    { s with symbols := s.symbols.put name symbol }.Knows f := by
  obtain ⟨fs, hfs, hmem⟩ := h
  have hglobal : (s.symbols.put name symbol).layer.global =
      s.symbols.layer.global.put name symbol := by
    simp only [SymbolTable.put, Layer.modifyCurrent, hinner]
  rw [Knows, hglobal, Scope.lookup_put]
  by_cases hname : f.name = name
  · obtain ⟨gs, rfl, hgs⟩ := hkeep fs (hname ▸ hfs)
    exact ⟨gs, if_pos hname, hgs f hmem⟩
  · exact ⟨fs, (if_neg hname).trans hfs, hmem⟩

theorem Settled.put (h : s.Settled) {name : String} {symbol : Symbol}
    (hsymbol : ∀ fs, symbol = .functions fs →
      Overloads s.nextId name fs ∧ (s.isBuiltin = true → ∀ f ∈ fs, f.builtin = true))
    (hkeep : ∀ fs, s.symbols.layer.global.lookup name = some (.functions fs) →
      ∃ gs, symbol = .functions gs ∧ ∀ f ∈ fs, f ∈ gs) :
    { s with symbols := s.symbols.put name symbol }.Settled where
  inner := by simp only [SymbolTable.put, Layer.modifyCurrent, h.inner]
  below := h.below
  finished := h.finished
  scope := by
    simp only [SymbolTable.put, Layer.modifyCurrent, h.inner]
    exact h.scope.put hsymbol
  own := h.own
  known hb d hd := (h.known hb d hd).put h.inner hkeep
  once := h.once

/-! ## Declarations of variables and types -/

/-- A step takes settled sessions to settled ones. -/
abbrev Settles {α : Type} (x : SessionM α) : Prop := x.Keeps fun s s' => s.Settled → s'.Settled

/-- A name that is not that of a function is declared where it is free. -/
theorem settles_declare (span : Span) (name : String) {symbol : Symbol}
    (hsymbol : ∀ fs, symbol ≠ .functions fs) : Settles (SessionM.declare span name symbol) := by
  intro s h
  rw [run_declare]
  split
  · exact h.later _ le_rfl
  · rename_i hfree
    refine h.put (fun fs hfs => absurd hfs (hsymbol fs)) fun fs hfs => ?_
    rw [SymbolTable.definesHere, Layer.current, h.inner] at hfree
    simp [Scope.defines, hfs] at hfree

theorem settles_addElement (e : Element) (he : e.definition? = none) :
    Settles (SessionM.addElement e) := by
  intro s h
  have helements := definitions_append_other s.elements he
  exact ⟨h.inner, h.below, h.finished, h.scope, helements ▸ h.own, helements ▸ h.known,
    helements ▸ h.once⟩

/-! ## Declarations of functions -/

/-- Nothing but reports has been added. -/
def Reported (s s' : Session) : Prop := ∃ sink, s' = { s with sink }

instance : SessionOrder Reported where
  refl s := ⟨s.sink, rfl⟩
  trans := by
    rintro s _ _ ⟨sink, rfl⟩ ⟨sink', rfl⟩
    exact ⟨sink', rfl⟩
  sink _ sink _ := ⟨sink, rfl⟩

/-- A declaration is refused, or it is settled against earlier ones under a fresh identity. -/
theorem run_declareFunction (s : Session) (span : Span) (modifiers : Modifiers) (returns : Ty)
    (name : String) (parameters : List Variable) (isDefinition : Bool) :
    ∃ sink, (Typing.declareFunction span modifiers returns name parameters isDefinition).run s =
        (none, { s with sink }) ∨
      ∃ decl : FunctionDecl, decl.id = s.nextId ∧ decl.name = name ∧ decl.builtin = s.isBuiltin ∧
        (Typing.declareFunction span modifiers returns name parameters isDefinition).run s =
          (Typing.settle span decl isDefinition
            ((s.overloads name).filter (·.matchesSignature decl))).run
              { s with sink, nextId := s.nextId + 1 } := by
  obtain ⟨sink, hsink⟩ := SessionM.keeps_checkModifiers (R := Reported) modifiers
    (if s.isBuiltin then .inline ||| .noinline ||| .pure else .inline ||| .noinline) s
  have hearlier (decl : FunctionDecl) : (match s.symbols.lookup? name with
      | some (.functions overloads) => overloads.filter (·.matchesSignature decl)
      | _ => []) = (s.overloads name).filter (·.matchesSignature decl) := by
    unfold Session.overloads
    split <;> rfl
  have hrun : (Typing.declareFunction span modifiers returns name parameters isDefinition).run s =
      StateT.run (do
        if !(← SessionM.check (Typing.signature s span modifiers returns name parameters)) then
          return none
        let intrinsic := if s.isBuiltin then Intrinsic.ofName? name else none
        let decl : FunctionDecl := ⟨← SessionM.freshId, name, parameters, returns, modifiers,
          intrinsic, s.isBuiltin, span⟩
        Typing.settle span decl isDefinition ((s.overloads name).filter (·.matchesSignature decl)))
        { s with sink } := by
    rw [← hsink]
    simp only [← hearlier]
    rfl
  rw [hrun]
  cases hvalue : (Typing.signature s span modifiers returns name parameters).value with
  | false =>
    refine ⟨sink.reportAll (Typing.signature s span modifiers returns name parameters).reports,
      .inl ?_⟩
    simp only [SessionM.check, StateT.run, bind, StateT.bind, modify, modifyGet,
      MonadStateOf.modifyGet, StateT.modifyGet, pure, StateT.pure, hvalue]
    rfl
  | true =>
    refine ⟨sink.reportAll (Typing.signature s span modifiers returns name parameters).reports,
      .inr ⟨⟨s.nextId, name, parameters, returns, modifiers,
        if s.isBuiltin then Intrinsic.ofName? name else none, s.isBuiltin, span⟩,
        rfl, rfl, rfl, ?_⟩⟩
    simp only [SessionM.check, StateT.run, bind, StateT.bind, modify, modifyGet,
      MonadStateOf.modifyGet, StateT.modifyGet, pure, StateT.pure, hvalue]
    rfl

/-- What a declaration may be to an earlier one with its signature. -/
theorem redeclaration_spec (s : Session) (decl : FunctionDecl) (isDefinition : Bool)
    (e : FunctionDecl) :
    match Typing.redeclaration s decl isDefinition e with
    | .conflict _ => True
    | .repeated e' => e' = e ∧ isDefinition = false
    | .defines e' => e' = e ∧ isDefinition = true ∧ e.builtin = false ∧ s.hasDefinition e = false
    | .shadows => isDefinition = true ∧ e.builtin = true := by
  unfold Typing.redeclaration
  grind

/-- How a declaration is settled against earlier ones with its signature. -/
theorem run_settle_cases (s : Session) (span : Span) (decl : FunctionDecl) (isDefinition : Bool)
    (earlier : List FunctionDecl) :
    (∃ s', (Typing.settle span decl isDefinition earlier).run s = (none, s') ∧ Reported s s') ∨
    (isDefinition = false ∧ ∃ e ∈ earlier,
      (Typing.settle span decl isDefinition earlier).run s = (some e, s)) ∨
    (isDefinition = true ∧ ∃ e ∈ earlier, e.builtin = false ∧ s.hasDefinition e = false ∧
      (Typing.settle span decl isDefinition earlier).run s =
        (some decl, { s with symbols := s.symbols.replaceFunction e.id decl })) ∨
    ((∀ e ∈ earlier, isDefinition = true ∧ e.builtin = true) ∧
      (Typing.settle span decl isDefinition earlier).run s =
        (Typing.addOverload span decl).run s) := by
  induction earlier with
  | nil => exact .inr (.inr (.inr ⟨by simp, rfl⟩))
  | cons e earlier ih =>
    have hspec := redeclaration_spec s decl isDefinition e
    have hrun : (Typing.settle span decl isDefinition (e :: earlier)).run s =
        StateT.run (match Typing.redeclaration s decl isDefinition e with
          | .conflict issue => SessionM.refuse span issue
          | .repeated e' => pure (some e')
          | .defines e' => do
            SessionM.modifySymbols (·.replaceFunction e'.id decl)
            pure (some decl)
          | .shadows => Typing.settle span decl isDefinition earlier) s := rfl
    cases hcase : Typing.redeclaration s decl isDefinition e with
    | conflict issue =>
      rw [hcase] at hrun
      exact .inl ⟨_, hrun, _, rfl⟩
    | repeated e' =>
      rw [hcase] at hrun hspec
      obtain ⟨rfl, hdefinition⟩ := hspec
      exact .inr (.inl ⟨hdefinition, e', by simp, hrun⟩)
    | defines e' =>
      rw [hcase] at hrun hspec
      obtain ⟨rfl, hdefinition, hbuiltin, hfree⟩ := hspec
      exact .inr (.inr (.inl ⟨hdefinition, e', by simp, hbuiltin, hfree, hrun⟩))
    | shadows =>
      rw [hcase] at hrun hspec
      dsimp only at hrun
      rw [hrun]
      obtain hnone | ⟨hdefinition, f, hf, hsome⟩ | ⟨hdefinition, f, hf, hdefines⟩ |
        ⟨hall, hadd⟩ := ih
      · exact .inl hnone
      · exact .inr (.inl ⟨hdefinition, f, by simp [hf], hsome⟩)
      · exact .inr (.inr (.inl ⟨hdefinition, f, by simp [hf], hdefines⟩))
      · exact .inr (.inr (.inr ⟨by simpa [hspec] using hall, hadd⟩))

theorem run_addOverload_cases (s : Session) (span : Span) (decl : FunctionDecl) :
    (∃ s', (Typing.addOverload span decl).run s = (none, s') ∧ Reported s s') ∨
      (Typing.addOverload span decl).run s = (some decl, { s with
        symbols := s.symbols.put decl.name (.functions (decl :: s.overloads decl.name)) }) := by
  have hinsert {symbols : SymbolTable} (h : s.symbols.insertFunction? decl = some symbols) :
      (Typing.addOverload span decl).run s = (some decl, { s with symbols }) := by
    simp only [Typing.addOverload, StateT.run, bind, StateT.bind, get, getThe, MonadStateOf.get,
      StateT.get, pure, h]
    rfl
  have hrefuse (h : s.symbols.insertFunction? decl = none) :
      (Typing.addOverload span decl).run s =
        (SessionM.refuse span (.alreadyDefined decl.name)).run s := by
    simp only [Typing.addOverload, StateT.run, bind, StateT.bind, get, getThe, MonadStateOf.get,
      StateT.get, pure, h]
  rw [Session.overloads]
  cases hlookup : s.symbols.lookup? decl.name with
  | none => exact .inr (hinsert (by rw [SymbolTable.insertFunction?, hlookup]))
  | some symbol =>
    cases symbol with
    | functions fs => exact .inr (hinsert (by rw [SymbolTable.insertFunction?, hlookup]))
    | value | type | member =>
      cases hdefines : s.symbols.definesHere decl.name
      · exact .inr (hinsert (by simp [SymbolTable.insertFunction?, hlookup, hdefines]))
      · exact .inl ⟨_, hrefuse (by simp [SymbolTable.insertFunction?, hlookup, hdefines]), _, rfl⟩

theorem Settled.builtin_overloads (h : s.Settled) (hb : s.isBuiltin = true) (name : String) :
    ∀ f ∈ s.overloads name, f.builtin = true := by
  obtain hglobal | hbuiltin := (h.overloads name).2
  · exact (h.scope name _ hglobal).2 hb
  · exact hbuiltin

/-- What a program has defined is among the overloads in scope. -/
theorem Settled.mem_overloads_of_defined (h : s.Settled) (hb : s.isBuiltin = false)
    {d : FunctionDef} (hd : d ∈ definitions s.elements) :
    d.decl ∈ s.overloads d.decl.name ∧ d.decl.id < s.nextId ∧ d.decl.builtin = false := by
  have hmem := h.mem_overloads (h.known hb d hd)
  exact ⟨hmem, (h.overloads _).1.below _ hmem, (h.own d hd).trans hb⟩

/-- A new overload is announced if all that have its signature are built-in. -/
theorem Settled.announced_put (h : s.Settled) {decl : FunctionDecl} (hid : decl.id = s.nextId)
    (hown : decl.builtin = s.isBuiltin) (sink : Sink Report)
    (hbuiltin : ∀ f ∈ s.overloads decl.name, f.matchesSignature decl = true → f.builtin = true) :
    Announced decl { s with
      sink, nextId := s.nextId + 1
      symbols := s.symbols.put decl.name (.functions (decl :: s.overloads decl.name)) } := by
  have hnext : { s with sink, nextId := s.nextId + 1 }.Settled :=
    h.later sink (Nat.le_succ _)
  have hkeep (fs : List FunctionDecl)
      (hfs : s.symbols.layer.global.lookup decl.name = some (.functions fs)) :
      ∃ gs, Symbol.functions (decl :: s.overloads decl.name) = .functions gs ∧
        ∀ f ∈ fs, f ∈ gs := by
    refine ⟨_, rfl, fun f hf => List.mem_cons_of_mem _ ?_⟩
    have hname : f.name = decl.name := (h.scope _ fs hfs).1.named f hf
    exact hname ▸ h.mem_overloads ⟨fs, hname ▸ hfs, hf⟩
  refine ⟨hnext.put (fun fs hfs => ?_) hkeep, hown, fun _ => ?_, fun hb d hd => ?_⟩
  · obtain rfl : decl :: s.overloads decl.name = fs := Symbol.functions.inj hfs
    refine ⟨(h.overloads decl.name).1.cons rfl hid.ge (by simp [hid]) fun f hf hb _ => ?_,
      fun hb => ?_⟩
    · by_contra hmatches
      rw [FunctionDecl.matchesSignature_comm] at hmatches
      have := hbuiltin f hf (by simpa using hmatches)
      rw [hb] at this
      cases this
    · simp only [List.mem_cons, forall_eq_or_imp]
      exact ⟨hown.trans hb, h.builtin_overloads hb decl.name⟩
  · refine ⟨decl :: s.overloads decl.name, ?_, by simp⟩
    simp only [SymbolTable.put, Layer.modifyCurrent, h.inner, Scope.lookup_put, if_true]
  · obtain ⟨hmem, hlt, hprogram⟩ := h.mem_overloads_of_defined hb hd
    refine ⟨by omega, ?_⟩
    by_contra hmatches
    have hmatches' : d.decl.matchesSignature decl = true := by simpa using hmatches
    have := hbuiltin d.decl ((FunctionDecl.matchesSignature_iff.1 hmatches').1 ▸ hmem) hmatches'
    rw [hprogram] at this
    cases this

/-- In the global scope a definition takes the place of its prototype, which is not built-in. -/
theorem Settled.replaceFunction (h : s.Settled) {decl e : FunctionDecl}
    (he : e ∈ s.overloads decl.name) (hbuiltin : e.builtin = false) :
    s.symbols.layer.global.lookup decl.name = some (.functions (s.overloads decl.name)) ∧
    ∃ global, (s.symbols.replaceFunction e.id decl).layer = { s.symbols.layer with global } ∧
      ∀ name, global.lookup name = if name = decl.name
        then some (.functions ((s.overloads decl.name).map fun f =>
          if f.id == e.id then decl else f))
        else s.symbols.layer.global.lookup name := by
  have hglobal : s.symbols.layer.global.lookup decl.name =
      some (.functions (s.overloads decl.name)) := by
    refine (h.overloads decl.name).2.resolve_right fun hall => ?_
    rw [hall e he] at hbuiltin
    cases hbuiltin
  obtain ⟨global, hreplace, hlookup⟩ := Scope.lookup_replaceOverload? hglobal ⟨e, he, rfl⟩
  refine ⟨hglobal, global, ?_, hlookup⟩
  simp only [SymbolTable.replaceFunction, Layer.replaceOverload, h.inner,
    Layer.replaceOverload.within, hreplace, Option.getD_some]

/-- Among the overloads in scope a definition takes the place of its prototype, and all others stay
where they are. -/
theorem Settled.overloads_replaceFunction (h : s.Settled) {decl e : FunctionDecl}
    (he : e ∈ s.overloads decl.name) (hbuiltin : e.builtin = false) (name : String) :
    { s with symbols := s.symbols.replaceFunction e.id decl }.overloads name =
      if name = decl.name
        then (s.overloads decl.name).map fun f => if f.id == e.id then decl else f
        else s.overloads name := by
  obtain ⟨-, global, hlayer, hlookup⟩ := h.replaceFunction he hbuiltin
  have hinner : (s.symbols.replaceFunction e.id decl).layer.inner = [] := by
    rw [hlayer]
    exact h.inner
  have hown : (s.symbols.replaceFunction e.id decl).layer.lookup? name = global.lookup name := by
    rw [lookup?_of_inner hinner, hlayer]
  have hfound : (s.symbols.replaceFunction e.id decl).lookup? name =
      if name = decl.name
        then some (.functions ((s.overloads decl.name).map fun f =>
          if f.id == e.id then decl else f))
        else s.symbols.lookup? name := by
    simp only [SymbolTable.lookup?, SymbolTable.layers, List.findSome?_cons, hown, hlookup,
      lookup?_of_inner h.inner]
    split_ifs <;> rfl
  rw [Session.overloads, hfound]
  split_ifs <;> rfl

/-- A definition is announced in the place of its prototype. -/
theorem Settled.announced_replace (h : s.Settled) {decl e : FunctionDecl} (hid : decl.id = s.nextId)
    (hown : decl.builtin = s.isBuiltin) (sink : Sink Report) (he : e ∈ s.overloads decl.name)
    (hmatches : e.matchesSignature decl = true) (hbuiltin : e.builtin = false)
    (hfree : s.hasDefinition e = false) :
    Announced decl { s with
      sink, nextId := s.nextId + 1, symbols := s.symbols.replaceFunction e.id decl } := by
  have hnext : { s with sink, nextId := s.nextId + 1 }.Settled :=
    h.later sink (Nat.le_succ _)
  obtain ⟨hglobal, global, hlayer, hlookup⟩ := h.replaceFunction he hbuiltin
  have hprogram : s.isBuiltin = false := by
    by_contra hb
    rw [h.builtin_overloads (by simpa using hb) _ e he] at hbuiltin
    cases hbuiltin
  have hdefined (d : FunctionDef) (hd : d ∈ definitions s.elements) : d.decl.id ≠ e.id := by
    rw [Session.hasDefinition, Bool.or_eq_false_iff, List.any_eq_false] at hfree
    simpa using hfree.1 d hd
  have hknows (f : FunctionDecl) (hf : s.Knows f) (hne : f.id ≠ e.id) :
      ∃ fs, (s.symbols.replaceFunction e.id decl).layer.global.lookup f.name =
        some (.functions fs) ∧ f ∈ fs := by
    obtain ⟨fs, hfs, hmem⟩ := hf
    rw [hlayer, hlookup]
    by_cases hname : f.name = decl.name
    · rw [hname, hglobal] at hfs
      obtain rfl : s.overloads decl.name = fs := Symbol.functions.inj (Option.some.inj hfs)
      exact ⟨_, if_pos hname, List.mem_map.2 ⟨f, hmem, if_neg (by simpa using hne)⟩⟩
    · exact ⟨fs, (if_neg hname).trans hfs, hmem⟩
  refine ⟨⟨?_, h.below, hnext.finished, ?_, h.own, fun hb d hd =>
    hknows d.decl (h.known hb d hd) (hdefined d hd), h.once⟩, hown, fun _ => ?_, fun hb d hd => ?_⟩
  · show (s.symbols.replaceFunction e.id decl).layer.inner = []
    rw [hlayer]
    exact h.inner
  · intro name fs hfs
    dsimp only at hfs
    rw [hlayer, hlookup] at hfs
    split at hfs
    · rename_i hname
      subst hname
      obtain rfl := Symbol.functions.inj (Option.some.inj hfs)
      refine ⟨(h.overloads decl.name).1.replace he hid.ge (by simp [hid]) hmatches hbuiltin,
        fun hb => ?_⟩
      rw [hprogram] at hb
      cases hb
    · exact hnext.scope name fs hfs
  · show ∃ fs, (s.symbols.replaceFunction e.id decl).layer.global.lookup decl.name =
      some (.functions fs) ∧ decl ∈ fs
    rw [hlayer, hlookup]
    exact ⟨_, if_pos rfl, List.mem_map.2 ⟨e, he, if_pos (beq_self_eq_true _)⟩⟩
  · obtain ⟨hmem, hlt, hd'⟩ := h.mem_overloads_of_defined hprogram hd
    refine ⟨by omega, ?_⟩
    by_contra hboth
    have hboth : d.decl.matchesSignature decl = true := by simpa using hboth
    rw [(FunctionDecl.matchesSignature_iff.1 hboth).1] at hmem
    have heq : d.decl.matchesSignature e = true := by
      rw [FunctionDecl.matchesSignature_congr hboth, FunctionDecl.matchesSignature_comm]
      exact hmatches
    exact hdefined d hd
      (congrArg FunctionDecl.id ((h.overloads decl.name).1.eq_of_matches hmem he hd' hbuiltin heq))

/-- A function is declared in a settled session; what is announced is free to be defined. -/
theorem Settled.declareFunction (h : s.Settled) (span : Span) (modifiers : Modifiers) (returns : Ty)
    (name : String) (parameters : List Variable) (isDefinition : Bool) :
    ((Typing.declareFunction span modifiers returns name parameters isDefinition).run s).2.Settled ∧
      ∀ f s', isDefinition = true →
        (Typing.declareFunction span modifiers returns name parameters isDefinition).run s =
          (some f, s') → Announced f s' := by
  obtain ⟨sink, hrun | ⟨decl, hid, rfl, hown, hrun⟩⟩ :=
    run_declareFunction s span modifiers returns name parameters isDefinition
  · rw [hrun]
    exact ⟨h.later sink le_rfl, fun f s' _ hsome => nomatch hsome⟩
  have hnext : { s with sink, nextId := s.nextId + 1 }.Settled :=
    h.later sink (Nat.le_succ _)
  rw [hrun]
  have hmem {e : FunctionDecl}
      (he : e ∈ (s.overloads decl.name).filter (·.matchesSignature decl)) :
      e ∈ s.overloads decl.name ∧ e.matchesSignature decl = true := List.mem_filter.1 he
  obtain ⟨s', hnone, sink', rfl⟩ | ⟨hdefinition, e, he, hsome⟩ |
    ⟨hdefinition, e, he, hbuiltin, hfree, hdefines⟩ | ⟨hall, hadd⟩ :=
    run_settle_cases { s with sink, nextId := s.nextId + 1 } span decl isDefinition
      ((s.overloads decl.name).filter (·.matchesSignature decl))
  · rw [hnone]
    exact ⟨hnext.later sink' le_rfl, fun f s' _ hsome => nomatch hsome⟩
  · rw [hsome]
    exact ⟨hnext, fun f s' hdefinition' _ => by simp [hdefinition] at hdefinition'⟩
  · have announced := h.announced_replace hid hown sink (hmem he).1 (hmem he).2 hbuiltin hfree
    rw [hdefines]
    refine ⟨announced.settled, fun f s' _ hsome => ?_⟩
    obtain ⟨hf, rfl⟩ := Prod.mk.inj hsome
    obtain rfl : decl = f := Option.some.inj hf
    exact announced
  · rw [hadd]
    obtain ⟨s', hnone, sink', rfl⟩ | hput :=
      run_addOverload_cases { s with sink, nextId := s.nextId + 1 } span decl
    · rw [hnone]
      exact ⟨hnext.later sink' le_rfl, fun f s' _ hsome => nomatch hsome⟩
    · have announced := h.announced_put hid hown sink fun f hf hmatches =>
        (hall f (List.mem_filter.2 ⟨hf, hmatches⟩)).2
      rw [hput]
      refine ⟨announced.settled, fun f s' _ hsome => ?_⟩
      obtain ⟨hf, rfl⟩ := Prod.mk.inj hsome
      obtain rfl : decl = f := Option.some.inj hf
      exact announced

/-- An announced function is defined. -/
theorem Announced.define {f : FunctionDecl} (h : Announced f s) (body : Stmt) :
    ((SessionM.addElement (.function ⟨f, body⟩)).run s).2.Settled := by
  have helements := definitions_append_function s.elements ⟨f, body⟩
  have hsettled := h.settled
  refine ⟨hsettled.inner, hsettled.below, hsettled.finished, hsettled.scope,
    helements ▸ ?own, fun hb => helements ▸ ?known, fun hb => helements ▸ ?once⟩
  case own =>
    rintro d hd
    obtain hd | rfl := List.mem_append.1 hd |>.imp_right List.mem_singleton.1
    · exact hsettled.own d hd
    · exact h.own
  case known =>
    rintro d hd
    obtain hd | rfl := List.mem_append.1 hd |>.imp_right List.mem_singleton.1
    · exact hsettled.known hb d hd
    · exact h.known hb
  case once =>
    refine List.pairwise_append.2 ⟨hsettled.once hb, List.pairwise_singleton _ _, ?_⟩
    intro d hd e he
    obtain rfl := List.mem_singleton.1 he
    exact h.free hb d hd

/-- Settled sessions stay settled. -/
theorem invariant_settled : Session.Invariant Settled Announced where
  beside := Settled.beside
  pending_beside := Announced.beside
  of_pending := Announced.settled
  declare span name _ hsymbol := settles_declare span name hsymbol
  declareFunction _ _ _ _ _ _ _ h := (h.declareFunction _ _ _ _ _ _).1
  pending h hrun := (h.declareFunction _ _ _ _ _ _).2 _ _ rfl hrun
  addElement e he _ := settles_addElement e he
  addFunction _ h := h.define _

end Session

end RasterShader
