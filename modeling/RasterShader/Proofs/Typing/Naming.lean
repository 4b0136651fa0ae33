import Mathlib
import RasterShader.Program

/-!
# What the names of types stand for

Types are compared by their names.  Built-in types have names of their own, and the name of an array
spells out its element and its count, so that types made of built-in types and of structs with
different names are the same only if they are equal (`Ty.eq_of_name_eq`).

A struct can only be declared under a name that is free, and the name is taken from then on.  An
interface block does not take the name of its type.  The main result is `Session.same_types_equal`:
after any declarations in which the names of blocks are used once, types that are the same are
equal.  That condition is needed (`block_and_struct_share_name`).  In printed text the name of a
block may stand where it names nothing (`anonymousBlock_not_read_back`), and that of a type where it
names a block (`blockNamedAsType_not_read_back`).
-/

namespace RasterShader

/-! ## Names determine types -/

namespace Ty

/-- Types that are made of built-in types and given structs. -/
inductive MadeOf (structs : List Ty) : Ty → Prop
  | atom {ty : Ty} (h : ty = .poison ∨ ty ∈ builtins ∨ ty ∈ structs) : MadeOf structs ty
  | array {element : Ty} (h : MadeOf structs element) (count : Option Nat) :
    MadeOf structs (.array element count)

/-- Structs have different names, which are words and not those of built-in types. -/
structure WellNamed (structs : List Ty) : Prop where
  once : ∀ t ∈ structs, ∀ u ∈ structs, t.name = u.name → t = u
  word : ∀ t ∈ structs, t.name.toList.all Lexer.isIdentContinue = true
  fresh : ∀ t ∈ structs, ofName? t.name = none

theorem nodup_names_builtins : (builtins.map (·.name.toList)).Nodup := by decide +kernel

/-- Built-in types are named by words. -/
theorem word_builtins {t : Ty} (h : t ∈ builtins) :
    t.name.toList.all Lexer.isIdentContinue = true := by
  have hall : (builtins.all fun t => t.name.toList.all Lexer.isIdentContinue) = true := by
    decide +kernel
  exact List.all_eq_true.1 hall t h

/-- Every character of a word may stand in a word. -/
theorem notMem_of_word {cs : List Char} (h : cs.all Lexer.isIdentContinue = true) {c : Char}
    (hc : Lexer.isIdentContinue c = false) : c ∉ cs := by
  intro hmem
  rw [List.all_eq_true.1 h c hmem] at hc
  cases hc

/-- The brackets of an array with their count. -/
def suffix (count : Option Nat) : List Char :=
  '[' :: ((count.map Nat.repr).getD "").toList ++ [']']

theorem toList_name_array (element : Ty) (count : Option Nat) :
    (array element count).name.toList = element.name.toList ++ suffix count := by
  cases count with
  | none => simp [name, suffix, toString]
  | some n => simp [name, suffix, toString]

/-- A text is split at its last bracket in one way only. -/
theorem append_bracket_inj {a b d e : List Char} (hd : '[' ∉ d) (he : '[' ∉ e)
    (h : a ++ '[' :: d = b ++ '[' :: e) : a = b ∧ d = e := by
  obtain ⟨rest, rfl, hrest⟩ | ⟨rest, rfl, hrest⟩ := List.append_eq_append_iff.1 h
  all_goals
    rcases rest with _ | ⟨c, rest⟩
    · simpa [eq_comm] using hrest
    · obtain ⟨-, rfl⟩ := List.cons_eq_cons.1 hrest
      simp at hd he

theorem bracket_notMem_repr (n : Nat) : '[' ∉ n.repr.toList := by
  intro h
  rw [Nat.toList_repr] at h
  exact absurd (Nat.isDigit_of_mem_toDigits (by decide) (by decide) h) (by decide)

theorem append_suffix_inj {a b : List Char} {m n : Option Nat}
    (h : a ++ suffix m = b ++ suffix n) : a = b ∧ m = n := by
  have hfree (count : Option Nat) : '[' ∉ ((count.map Nat.repr).getD "").toList ++ [']'] := by
    cases count with
    | none => decide
    | some n => simpa using bracket_notMem_repr n
  obtain ⟨hab, hcount⟩ := append_bracket_inj (hfree m) (hfree n) h
  refine ⟨hab, ?_⟩
  have hcount := String.toList_inj.1 (List.append_cancel_right hcount)
  cases m with
  | none =>
    cases n with
    | none => rfl
    | some n => exact absurd hcount.symm (Nat.repr_ne_empty)
  | some m =>
    cases n with
    | none => exact absurd hcount (Nat.repr_ne_empty)
    | some n => rw [Nat.repr_injective hcount]

variable {structs : List Ty} {t u : Ty}

theorem bracket_notMem_atom (h : WellNamed structs)
    (ht : t = .poison ∨ t ∈ builtins ∨ t ∈ structs) : '[' ∉ t.name.toList := by
  obtain rfl | ht | ht := ht
  · decide
  · exact notMem_of_word (word_builtins ht) (by decide)
  · exact notMem_of_word (h.word t ht) (by decide)

theorem ne_poison_of_word {t : Ty} (word : t.name.toList.all Lexer.isIdentContinue = true) :
    t.name ≠ Ty.poison.name := by
  intro h
  have hopen : '<' ∉ t.name.toList := notMem_of_word word (by decide)
  exact absurd (h ▸ by decide) hopen

/-- Built-in types and structs are determined by their names. -/
theorem eq_of_name_eq_of_atom (h : WellNamed structs)
    (ht : t = .poison ∨ t ∈ builtins ∨ t ∈ structs) (hu : u = .poison ∨ u ∈ builtins ∨ u ∈ structs)
    (hname : t.name = u.name) : t = u := by
  have hfresh {t u : Ty} (ht : t ∈ structs) (hu : u ∈ builtins) : t.name ≠ u.name := by
    intro hname
    have hnone := h.fresh t ht
    rw [ofName?, hname, List.lookup_eq_none_iff] at hnone
    exact absurd (hnone (u.name, u) (List.mem_append_left _ (List.mem_map_of_mem hu))) (by simp)
  obtain rfl | ht | ht := ht <;> obtain rfl | hu | hu := hu
  · rfl
  · exact absurd hname.symm (ne_poison_of_word (word_builtins hu))
  · exact absurd hname.symm (ne_poison_of_word (h.word u hu))
  · exact absurd hname (ne_poison_of_word (word_builtins ht))
  · exact List.inj_on_of_nodup_map nodup_names_builtins ht hu (congrArg String.toList hname)
  · exact absurd hname.symm (hfresh hu ht)
  · exact absurd hname (ne_poison_of_word (h.word t ht))
  · exact absurd hname (hfresh ht hu)
  · exact h.once t ht u hu hname

/-- Types that are made of built-in types and well-named structs are determined by their names. -/
theorem eq_of_name_eq (h : WellNamed structs) (ht : MadeOf structs t) (hu : MadeOf structs u)
    (hname : t.name = u.name) : t = u := by
  induction ht generalizing u with
  | atom ht =>
    cases hu with
    | atom hu => exact eq_of_name_eq_of_atom h ht hu hname
    | array hu count =>
      refine absurd ?_ (bracket_notMem_atom h ht)
      rw [hname, toList_name_array]
      simp [suffix]
  | array ht count ih =>
    cases hu with
    | atom hu =>
      refine absurd ?_ (bracket_notMem_atom h hu)
      rw [← hname, toList_name_array]
      simp [suffix]
    | array hu count' =>
      have hlist := congrArg String.toList hname
      rw [toList_name_array, toList_name_array] at hlist
      obtain ⟨helement, rfl⟩ := append_suffix_inj hlist
      rw [ih hu (String.toList_inj.1 helement)]

end Ty

/-! ## Declaring types -/

/-- The struct or block that an element declares. -/
def Element.structure? : Element → Option Ty
  | .struct _ ty => some ty
  | .interfaceBlock _ v _ _ =>
    match v.ty with
    | .array element _ => some element
    | ty => some ty
  | _ => none

namespace Session

/-- The structs and blocks that have been declared. -/
def structs (s : Session) : List Ty := s.elements.filterMap Element.structure?

/-- The second session has some more elements and stays in the global scope, where no name has been
given up. -/
structure Extends (added : List Element) (s s' : Session) : Prop where
  elements : s'.elements = s.elements ++ added
  inner : s.symbols.layer.inner = [] → s'.symbols.layer.inner = []
  defines : ∀ name, s.symbols.layer.global.defines name = true →
    s'.symbols.layer.global.defines name = true

variable {s s' s'' : Session} {added added' : List Element}

theorem Extends.refl (s : Session) : Extends [] s s := ⟨by simp, id, fun _ h => h⟩

theorem Extends.trans (h : Extends added s s') (h' : Extends added' s' s'') :
    Extends (added ++ added') s s'' :=
  ⟨by rw [h'.elements, h.elements, List.append_assoc], fun hinner => h'.inner (h.inner hinner),
    fun name hname => h'.defines name (h.defines name hname)⟩

theorem extends_report (s : Session) (span : Span) (issue : Issue) :
    Extends [] s ((SessionM.report span issue).run s).2 :=
  ⟨(List.append_nil _).symm, id, fun _ h => h⟩

theorem extends_check {α : Type} (s : Session) (x : Checked α) :
    Extends [] s ((SessionM.check x).run s).2 :=
  ⟨(List.append_nil _).symm, id, fun _ h => h⟩

theorem extends_freshId (s : Session) : Extends [] s (SessionM.freshId.run s).2 :=
  ⟨(List.append_nil _).symm, id, fun _ h => h⟩

theorem extends_addElement (s : Session) (e : Element) :
    Extends [e] s ((SessionM.addElement e).run s).2 :=
  ⟨rfl, id, fun _ h => h⟩

/-- A name is declared, unless it is taken. -/
theorem run_declare (s : Session) (span : Span) (name : String) (symbol : Symbol) :
    (SessionM.declare span name symbol).run s =
      if s.symbols.definesHere name then
        (false, ((SessionM.report span (.alreadyDefined name)).run s).2)
      else (true, { s with symbols := s.symbols.put name symbol }) := by
  simp only [SessionM.declare, SymbolTable.insert?, StateT.run, bind, StateT.bind, get, getThe,
    MonadStateOf.get, StateT.get, pure]
  split <;> rfl

theorem defines_put_iff {scope : Scope} {name name' : String} {symbol : Symbol} :
    (scope.put name symbol).defines name' = true ↔ name' = name ∨ scope.defines name' = true := by
  simp only [Scope.defines, List.lookup_isSome_iff, Scope.put, beq_iff_eq, List.mem_cons,
    List.mem_filter, bne_iff_ne]
  constructor
  · rintro ⟨p, rfl | ⟨hp, -⟩, rfl⟩
    · exact .inl rfl
    · exact .inr ⟨p, hp, rfl⟩
  · rintro (rfl | ⟨p, hp, rfl⟩)
    · exact ⟨_, .inl rfl, rfl⟩
    · by_cases hname : p.1 = name
      · exact ⟨_, .inl rfl, hname⟩
      · exact ⟨p, .inr ⟨hp, hname⟩, rfl⟩

theorem extends_declare (s : Session) (span : Span) (name : String) (symbol : Symbol) :
    Extends [] s ((SessionM.declare span name symbol).run s).2 := by
  rw [run_declare]
  split
  · exact extends_report s span _
  · refine ⟨(List.append_nil _).symm, fun hinner => ?_, fun name' h => ?_⟩
    · simp only [SymbolTable.put, Layer.modifyCurrent, hinner]
    · simp only [SymbolTable.put, Layer.modifyCurrent]
      split
      · exact h
      · exact defines_put_iff.2 (.inr h)

/-- In the global scope a name is taken, or is taken from now on. -/
theorem run_declare_cases (hglobal : s.symbols.layer.inner = []) (span : Span) (name : String)
    (symbol : Symbol) :
    (∃ s', (SessionM.declare span name symbol).run s = (false, s') ∧ Extends [] s s') ∨
      ∃ s', (SessionM.declare span name symbol).run s = (true, s') ∧ Extends [] s s' ∧
        s.symbols.layer.global.defines name = false ∧
        s'.symbols.layer.global.defines name = true := by
  have hextends := extends_declare s span name symbol
  rw [run_declare] at hextends ⊢
  have hhere : s.symbols.definesHere name = s.symbols.layer.global.defines name := by
    rw [SymbolTable.definesHere, Layer.current, hglobal]
    rfl
  cases hname : s.symbols.layer.global.defines name with
  | true =>
    rw [if_pos (hhere.trans hname)] at hextends ⊢
    exact .inl ⟨_, rfl, hextends⟩
  | false =>
    rw [if_neg (by simp [hhere, hname])] at hextends ⊢
    refine .inr ⟨_, rfl, hextends, rfl, ?_⟩
    simp only [SymbolTable.put, Layer.modifyCurrent, hglobal]
    exact defines_put_iff.2 (.inl rfl)

/-- A declaration has failed and added nothing, or has added an element under a name that was
free. -/
def Takes (name : String) (e : Element) (s s' : Session) : Prop :=
  Extends [] s s' ∨ Extends [e] s s' ∧ s.symbols.layer.global.defines name = false ∧
    s'.symbols.layer.global.defines name = true

theorem Takes.after {name : String} {e : Element} (h : Extends [] s s')
    (h' : Takes name e s' s'') : Takes name e s s'' := by
  obtain h' | ⟨h', hfree, htaken⟩ := h'
  · exact .inl (h.trans h')
  · refine .inr ⟨h.trans h', ?_, htaken⟩
    by_contra hname
    rw [h.defines name (by simpa using hname)] at hfree
    cases hfree

theorem takes_declareStruct (s : Session) (span : Span) (name : String) (members : List Field)
    (hglobal : s.symbols.layer.inner = []) :
    Takes name (.struct span (.struct name members false)) s
      ((Typing.declareStruct span name members).run s).2 := by
  have hchecked := extends_check s (Typing.fields .struct name [] members)
  rw [Typing.declareStruct]
  split
  · exact .inl (extends_report s span _)
  refine .after hchecked ?_
  simp only [StateT.run, bind, StateT.bind] at hchecked ⊢
  generalize SessionM.check (Typing.fields .struct name [] members) s = outcome at hchecked ⊢
  obtain ⟨success, s₁⟩ := outcome
  dsimp only at hchecked ⊢
  split
  · exact .inl (.refl s₁)
  split
  · exact .inl (extends_report s₁ span _)
  obtain ⟨s₂, hrun, hextends⟩ | ⟨s₂, hrun, hextends, hfree, htaken⟩ :=
    run_declare_cases (hchecked.inner hglobal) span name (.type (.struct name members false))
  all_goals
    simp only [StateT.run] at hrun
    simp only [StateT.bind, hrun]
  · exact .inl hextends
  · exact .inr ⟨hextends.trans (extends_addElement s₂ _), hfree, htaken⟩

/-- A step adds elements of some sort only, and gives up no name. -/
def Adds {α : Type} (P : Element → Prop) (x : SessionM α) : Prop :=
  ∀ s, ∃ added, Extends added s (x.run s).2 ∧ ∀ e ∈ added, P e

section

variable {α β : Type} {P : Element → Prop}

theorem Adds.of_extends {x : SessionM α} (h : ∀ s, Extends [] s (x.run s).2) : Adds P x :=
  fun s => ⟨[], h s, by simp⟩

theorem Adds.pure (a : α) : Adds P (Pure.pure a : SessionM α) := .of_extends .refl

theorem Adds.bind {x : SessionM α} {f : α → SessionM β} (hx : Adds P x) (hf : ∀ a, Adds P (f a)) :
    Adds P (x >>= f) := by
  intro s
  obtain ⟨added, hextends, hadded⟩ := hx s
  obtain ⟨added', hextends', hadded'⟩ := hf (x.run s).1 (x.run s).2
  refine ⟨added ++ added', hextends.trans hextends', fun e he => ?_⟩
  exact (List.mem_append.1 he).elim (hadded e) (hadded' e)

theorem adds_report (span : Span) (issue : Issue) : Adds P (SessionM.report span issue) :=
  .of_extends fun s => extends_report s span issue

theorem adds_checkModifiers (modifiers : Modifiers) (permitted : ModifierFlags) :
    Adds P (SessionM.checkModifiers modifiers permitted) := by
  unfold SessionM.checkModifiers
  generalize (modifiers.flags.remove permitted).names = names
  induction names with
  | nil => exact .pure ()
  | cons name names ih => exact (adds_report _ _).bind fun _ => ih

theorem adds_declareMembers (owner : Variable) (members : List (Field × Nat)) :
    Adds P (Typing.declareMembers owner members) := by
  induction members with
  | nil => exact .pure true
  | cons member members ih =>
    obtain ⟨f, i⟩ := member
    refine .bind (.of_extends fun s => extends_declare s _ _ _) fun declared => ?_
    cases declared with
    | true => exact ih
    | false => exact .pure false

end

/-- A block adds at most itself. -/
theorem adds_declareBlock (span : Span) (modifiers : Modifiers) (typeName : String)
    (members : List Field) (instanceName : String) (size : Option Nat) :
    Adds (fun e => e.structure? = some (.struct typeName members true))
      (Typing.declareBlock span modifiers typeName members instanceName size) := by
  unfold Typing.declareBlock
  refine .bind (.of_extends .refl) fun s => ?_
  dsimp only
  split
  · exact adds_report span _
  split
  · exact adds_report span _
  refine .bind (.of_extends fun s => extends_check s _) fun checked => ?_
  split
  · refine (adds_checkModifiers _ _).bind fun _ => .bind (.of_extends extends_freshId) fun id => ?_
    have haddElement {v : Variable} (hv : v.ty = if size.isSome then
          .array (.struct typeName members true) size else .struct typeName members true) :
        Adds (fun e => e.structure? = some (.struct typeName members true))
          (SessionM.addElement (.interfaceBlock span v typeName instanceName)) := by
      intro s
      refine ⟨_, extends_addElement s _, ?_⟩
      simp only [List.mem_singleton, forall_eq, Element.structure?, hv]
      cases size <;> rfl
    split
    · refine (adds_declareMembers _ _).bind fun declared => ?_
      split
      · exact haddElement rfl
      · exact .pure ()
    · refine .bind (.of_extends fun s => extends_declare s _ _ _) fun declared => ?_
      split
      · exact haddElement rfl
      · exact .pure ()
  · exact .pure ()

end Session

/-- The declaration of a struct, or of an interface block. -/
inductive TypeDeclaration where
  | struct (span : Span) (name : String) (members : List Field)
  | block (span : Span) (modifiers : Modifiers) (name : String) (members : List Field)
    (instanceName : String) (size : Option Nat)

namespace TypeDeclaration

/-- The name of the type. -/
def name : TypeDeclaration → String
  | struct _ name _ | block _ _ name .. => name

/-- An interface block is declared. -/
def isBlock : TypeDeclaration → Bool
  | struct .. => false
  | block .. => true

/-- Declares the type. -/
def declare : TypeDeclaration → SessionM Unit
  | struct span name members => do
    let _ ← Typing.declareStruct span name members
  | block span modifiers name members instanceName size =>
    Typing.declareBlock span modifiers name members instanceName size

/-- The name is a word and not that of a built-in type. -/
def Proper (d : TypeDeclaration) : Prop :=
  d.name.toList.all Lexer.isIdentContinue = true ∧ Ty.ofName? d.name = none

end TypeDeclaration

namespace Session

variable {s s' : Session} {added : List Element}

/-- The structs and blocks of a session in its global scope have different names, and those of
structs are taken. -/
structure Named (s : Session) : Prop where
  inner : s.symbols.layer.inner = []
  names : Ty.WellNamed s.structs
  taken : ∀ t ∈ s.structs, t.isInterfaceBlock = false →
    s.symbols.layer.global.defines t.name = true

theorem mem_structs_of_extends (h : Extends added s s') {ty : Ty}
    (hadded : ∀ e ∈ added, e.structure? = some ty) {t : Ty} (ht : t ∈ s'.structs) :
    t ∈ s.structs ∨ t = ty := by
  rw [structs, h.elements, List.filterMap_append, List.mem_append, List.mem_filterMap,
    List.mem_filterMap] at ht
  obtain ht | ⟨e, he, hte⟩ := ht
  · exact .inl (List.mem_filterMap.2 ht)
  · rw [hadded e he, Option.some.injEq] at hte
    exact .inr hte.symm

/-- Steps that add nothing keep names different. -/
theorem Named.keep (h : s.Named) (hextends : Extends [] s s') :
    s'.Named ∧ s'.structs = s.structs := by
  have hstructs : s'.structs = s.structs := by
    rw [structs, hextends.elements, List.append_nil, structs]
  refine ⟨⟨hextends.inner h.inner, hstructs ▸ h.names, fun t ht hblock => ?_⟩, hstructs⟩
  exact hextends.defines _ (h.taken t (hstructs ▸ ht) hblock)

/-- A type may be added under a name that no other one has. -/
theorem Named.add (h : s.Named) (hextends : Extends added s s') {ty : Ty}
    (hadded : ∀ e ∈ added, e.structure? = some ty)
    (word : ty.name.toList.all Lexer.isIdentContinue = true) (fresh : Ty.ofName? ty.name = none)
    (apart : ∀ t ∈ s.structs, t.name ≠ ty.name)
    (taken : ty ∈ s'.structs → ty.isInterfaceBlock = false →
      s'.symbols.layer.global.defines ty.name = true) : s'.Named := by
  refine ⟨hextends.inner h.inner, ⟨?_, ?_, ?_⟩, ?_⟩
  · intro t ht u hu hname
    obtain ht | rfl := mem_structs_of_extends hextends hadded ht <;>
      obtain hu | rfl := mem_structs_of_extends hextends hadded hu
    · exact h.names.once t ht u hu hname
    · exact absurd hname (apart t ht)
    · exact absurd hname.symm (apart u hu)
    · rfl
  · intro t ht
    obtain ht | rfl := mem_structs_of_extends hextends hadded ht
    · exact h.names.word t ht
    · exact word
  · intro t ht
    obtain ht | rfl := mem_structs_of_extends hextends hadded ht
    · exact h.names.fresh t ht
    · exact fresh
  · intro t ht hblock
    obtain ht' | rfl := mem_structs_of_extends hextends hadded ht
    · exact hextends.defines _ (h.taken t ht' hblock)
    · exact taken ht hblock

/-- Declaring a type keeps names different, if no block has or gets a name twice. -/
theorem Named.declare (h : s.Named) {d : TypeDeclaration} (proper : d.Proper)
    (apart : ∀ t ∈ s.structs, t.isInterfaceBlock = true ∨ d.isBlock = true → t.name ≠ d.name) :
    (d.declare.run s).2.Named ∧ ∀ t ∈ (d.declare.run s).2.structs,
      t ∈ s.structs ∨ t.name = d.name ∧ t.isInterfaceBlock = d.isBlock := by
  cases d with
  | struct span name members =>
    change (((Typing.declareStruct span name members).run s).2).Named ∧
      ∀ t ∈ ((Typing.declareStruct span name members).run s).2.structs, _
    obtain hextends | ⟨hextends, hfree, htaken⟩ := takes_declareStruct s span name members h.inner
    · obtain ⟨named, hstructs⟩ := h.keep hextends
      exact ⟨named, fun t ht => .inl (hstructs ▸ ht)⟩
    · have hadded : ∀ e ∈ [Element.struct span (.struct name members false)],
          e.structure? = some (.struct name members false) := by simp [Element.structure?]
      refine ⟨h.add hextends hadded proper.1 proper.2 ?_ fun _ _ => htaken, fun t ht => ?_⟩
      · intro t ht hname
        cases hblock : t.isInterfaceBlock with
        | true => exact apart t ht (.inl hblock) hname
        | false =>
          have hdefines := h.taken t ht hblock
          rw [hname, Ty.name, hfree] at hdefines
          cases hdefines
      · obtain ht | rfl := mem_structs_of_extends hextends hadded ht
        · exact .inl ht
        · exact .inr ⟨rfl, rfl⟩
  | block span modifiers name members instanceName size =>
    obtain ⟨added, hextends, hadded⟩ :=
      adds_declareBlock span modifiers name members instanceName size s
    refine ⟨h.add hextends hadded proper.1 proper.2 (fun t ht => apart t ht (.inr rfl)) ?_,
      fun t ht => ?_⟩
    · intro _ hblock
      cases hblock
    · obtain ht | rfl := mem_structs_of_extends hextends hadded ht
      · exact .inl ht
      · exact .inr ⟨rfl, rfl⟩

/-- Declaring types one after the other keeps names different, if no block has or gets a name
twice. -/
theorem Named.declareAll (h : s.Named) {ds : List TypeDeclaration}
    (proper : ∀ d ∈ ds, d.Proper)
    (once : ds.Pairwise fun d e => d.isBlock = true ∨ e.isBlock = true → d.name ≠ e.name)
    (apart : ∀ t ∈ s.structs, ∀ d ∈ ds,
      t.isInterfaceBlock = true ∨ d.isBlock = true → t.name ≠ d.name) :
    ((ds.forM (·.declare)).run s).2.Named := by
  induction ds generalizing s with
  | nil => exact h
  | cons d ds ih =>
    obtain ⟨hd, hds⟩ := List.pairwise_cons.1 once
    obtain ⟨named, hstructs⟩ := h.declare (proper d (by simp)) fun t ht => apart t ht d (by simp)
    refine ih named (fun e he => proper e (List.mem_cons_of_mem _ he)) hds ?_
    intro t ht e he hblock
    obtain ht | ⟨hname, hkind⟩ := hstructs t ht
    · exact apart t ht e (List.mem_cons_of_mem _ he) hblock
    · exact hname ▸ hd e he (hkind ▸ hblock)

/-- Equal types have equal structure.  After any declarations of structs and blocks from the start
of a session, in which the name of a block is used once, two types that are made of built-in types
and the declared ones are the same only if they are equal. -/
theorem same_types_equal (dialect : Dialect) (modules : List Module) (nextId : Nat)
    {ds : List TypeDeclaration} (proper : ∀ d ∈ ds, d.Proper)
    (once : ds.Pairwise fun d e => d.isBlock = true ∨ e.isBlock = true → d.name ≠ e.name)
    {t u : Ty}
    (ht : Ty.MadeOf ((ds.forM (·.declare)).run (start dialect modules false nextId)).2.structs t)
    (hu : Ty.MadeOf ((ds.forM (·.declare)).run (start dialect modules false nextId)).2.structs u) :
    t.same u = true ↔ t = u := by
  have start : (start dialect modules false nextId).Named :=
    ⟨rfl, ⟨by simp [structs, start], by simp [structs, start], by simp [structs, start]⟩,
      by simp [structs, start]⟩
  have named := start.declareAll proper once (by simp [structs, Session.start])
  rw [Ty.same, beq_iff_eq]
  exact ⟨Ty.eq_of_name_eq named.names ht hu, fun h => h ▸ rfl⟩

/-- The declarations `struct S { float a; }; uniform B { float2 x; } b; struct T { S s[2]; };`. -/
def nestedDeclarations : List TypeDeclaration :=
  let S : Ty := .struct "S" [⟨"a", .float, default, default⟩] false
  [.struct default "S" S.fields,
    .block default (.ofFlags .uniform) "B" [⟨"x", .float2, default, default⟩] "b" none,
    .struct default "T" [⟨"s", .array S (some 2), default, default⟩]]

theorem same_types_equal_nested :
    let s := ((nestedDeclarations.forM (·.declare)).run
      (start ⟨.fragment, .standard⟩ [] false 0)).2
    (∀ d ∈ nestedDeclarations, d.Proper) ∧
      (nestedDeclarations.Pairwise fun d e =>
        d.isBlock = true ∨ e.isBlock = true → d.name ≠ e.name) ∧
      s.structs.map Ty.name = ["S", "B", "T"] ∧
      ∀ t ∈ s.structs, ∀ u ∈ s.structs,
        ((Ty.array t (some 2)).same (.array u (some 2)) = true ↔
          Ty.array t (some 2) = .array u (some 2)) := by
  intro s
  have proper : ∀ d ∈ nestedDeclarations, d.Proper := by
    simp only [nestedDeclarations, List.mem_cons, List.not_mem_nil, or_false, forall_eq_or_imp,
      forall_eq, TypeDeclaration.Proper, TypeDeclaration.name]
    decide +kernel
  have once : nestedDeclarations.Pairwise fun d e =>
      d.isBlock = true ∨ e.isBlock = true → d.name ≠ e.name := by decide +kernel
  refine ⟨proper, once, by decide +kernel, fun t ht u hu => ?_⟩
  exact same_types_equal _ _ _ proper once (.array (.atom (.inr (.inr ht))) _)
    (.array (.atom (.inr (.inr hu))) _)

end Session

/-! ## Names that stand for two types, or for none -/

/-- The text of a program that is read on the named types alone. -/
def Program.textOf? (source : String) : Option String :=
  (Program.readOn .root ⟨.fragment, .standard⟩ source).toOption.map Program.text

/-- The name of a block is not taken, so that a struct may have it too.  Values of the block, which
have one slot, then pass for values of the struct, which have two. -/
theorem block_and_struct_share_name :
    let source := "uniform B \x7b float a; \x7d b; struct B \x7b float2 x; \x7d; " ++
      "void main() \x7b B s = b; \x7d"
    ((Program.readOn .root ⟨.fragment, .standard⟩ source).toOption.map fun program =>
      (program.elements.filterMap Element.structure?).map fun ty => (ty.name, ty.slotCount)) =
        some [("B", 1), ("B", 2)] := by
  decide +kernel

/-- A member of a block without an instance name is printed with the name of the block, which does
not stand for anything when the text is read. -/
theorem anonymousBlock_not_read_back :
    let text := "uniform B \x7b\n    float x;\n\x7d;\nvoid main()\n\x7b\n    float y = B.x;\n\x7d\n"
    Program.textOf? "uniform B \x7b float x; \x7d; void main() \x7b float y = x; \x7d" = some text ∧
      Program.textOf? text = none := by
  decide +kernel

/-- The variable of a block may have the name of a type, which then does not stand for the type in
the conversions of the printed text. -/
theorem blockNamedAsType_not_read_back :
    let text := "uniform B \x7b\n    half x;\n\x7d float;\nvoid main()\n\x7b\n    float2 v;\n" ++
      "    half h;\n    v.x + float(h);\n\x7d\n"
    Program.textOf? ("uniform B \x7b half x; \x7d float; " ++
        "void main() \x7b float2 v; half h; v.x + h; \x7d") = some text ∧
      Program.textOf? text = none := by
  decide +kernel

end RasterShader
