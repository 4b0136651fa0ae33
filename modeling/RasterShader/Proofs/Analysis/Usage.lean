import Mathlib
import RasterShader.Analysis.Usage
import RasterShader.Proofs.Codegen.Program
import RasterShader.Proofs.Typing.Definitions

/-!
# Marks and uses of variables

A session only ever adds elements whose references are marked (`Session.invariant_marked`), so that
this holds of every program that is read, on whatever modules (`Program.references_marked`), and of
the built-in modules.

Counting references by their marks therefore counts what is written: the writes of a variable are
its initializers and the operands of assignments, increments and calls at whose root it is
(`Program.writes_eq`).
-/

namespace RasterShader

open Session

/-! ## Elements of a session -/

namespace Session

/-- All references of the elements are marked. -/
def Marked (s : Session) : Prop := ∀ e ∈ s.elements, e.Marked

theorem Marked.of_same {s s' : Session} (h : s.Marked) (same : s.SameElements s') : s'.Marked :=
  fun e he => h e (same ▸ he)

theorem Marked.addElement {s : Session} (h : s.Marked) {e : Element} (he : e.Marked) :
    ((SessionM.addElement e).run s).2.Marked :=
  List.forall_mem_append.2 ⟨h, List.forall_mem_singleton.2 he⟩

/-- Elements that are added are marked, and declarations of names add none. -/
theorem invariant_marked : Session.Invariant Marked fun _ => Marked where
  beside h hbeside := h.of_same hbeside.elements
  pending_beside h hbeside := h.of_same hbeside.elements
  of_pending := id
  declare _ _ _ _ s h :=
    h.of_same (SessionM.keeps_declare SessionM.sameElements_modifySymbols _ _ _ s)
  declareFunction _ _ _ _ _ _ s h := h.of_same (Typing.sameElements_declareFunction _ _ _ _ _ _ s)
  pending {span modifiers returns name parameters s s' f} h hrun := by
    have same := Typing.sameElements_declareFunction span modifiers returns name parameters true s
    rw [hrun] at same
    exact h.of_same same
  addElement _ _ hmarked _ h := h.addElement hmarked
  addFunction hbody h := h.addElement (e := .function _) hbody

/-- Whatever has been read in a session is marked. -/
theorem marked_readChars (dialect : Dialect) (modules : List Module) (isBuiltin : Bool)
    (nextId : Nat) (source : List Char) :
    ((Session.start dialect modules isBuiltin nextId).readChars source).Marked := by
  have start : (Session.start dialect modules isBuiltin nextId).Marked := List.forall_mem_nil _
  exact invariant_marked.readChars start source

end Session

/-! ## Programs and modules -/

theorem Program.marked_of_readOn {library : Library} {dialect : Dialect} {source : String}
    {program : Program} (h : readOn library dialect source = .ok program) :
    ∀ e ∈ program.elements, e.Marked := by
  obtain ⟨-, helements, -⟩ := finished_of_readOn h
  rw [helements]
  exact marked_readChars _ _ _ _ _

namespace Library

/-- All references of the modules are marked. -/
def Marked (library : Library) : Prop := ∀ m ∈ library.modules, ∀ e ∈ m.elements, e.Marked

theorem Marked.extend {library : Library} (h : library.Marked) (kind : ProgramKind)
    (name : String) (lines : List String) : (library.extend kind name lines).Marked :=
  List.forall_mem_cons.2 ⟨marked_readChars _ _ _ _ _, h⟩

/-- The built-in modules of every kind of program are marked. -/
theorem marked_forKind (kind : ProgramKind) : (forKind kind).Marked := by
  have hroot : root.Marked := List.forall_mem_singleton.2 (List.forall_mem_nil _)
  exact forKind_induction hroot (fun _ _ _ _ h => h.extend _ _ _) kind

end Library

/-! ## What is written -/

/-- The variable is at the root of the expression. -/
def Expr.isRootedAt (v : Variable) (e : Expr) : Bool := e.baseVariable?.any (·.id == v.id)

/-- The operands that a node writes: the left side of an assignment, what is incremented or
decremented, and arguments for `out` parameters. -/
def Node.writtenOperands : Node → List Expr
  | .expression (.binary _ left op _) => [left].filter fun _ => op.leftUse != .read
  | .expression (.prefixed _ op operand) | .expression (.postfixed _ op operand) =>
    [operand].filter fun _ => op.operandUse != .read
  | .expression (.call _ f arguments) =>
    ((f.parameters.zip arguments).filter (·.1.argumentUse != .read)).map (·.2)
  | _ => []

/-- How often a variable is at the root of what nodes write. -/
def writesAmong (v : Variable) (nodes : List Node) : Nat :=
  (nodes.flatMap Node.writtenOperands).countP (Expr.isRootedAt v)

/-- How many references to a variable among nodes are marked with other uses than reading. -/
def marksAmong (v : Variable) (nodes : List Node) : Nat :=
  nodes.countP (Usage.refers v (· != .read))

section

variable {v : Variable} {xs ys : List Node}

@[simp] theorem writesAmong_nil : writesAmong v [] = 0 := rfl

@[simp] theorem marksAmong_nil : marksAmong v [] = 0 := rfl

@[simp] theorem writesAmong_append :
    writesAmong v (xs ++ ys) = writesAmong v xs + writesAmong v ys := by
  simp [writesAmong]

@[simp] theorem marksAmong_append :
    marksAmong v (xs ++ ys) = marksAmong v xs + marksAmong v ys := by
  simp [marksAmong]

theorem writesAmong_cons (x : Node) :
    writesAmong v (x :: xs) = x.writtenOperands.countP (Expr.isRootedAt v) + writesAmong v xs := by
  simp [writesAmong]

theorem marksAmong_cons (x : Node) :
    marksAmong v (x :: xs) =
      (if Usage.refers v (· != .read) x then 1 else 0) + marksAmong v xs := by
  rw [marksAmong, List.countP_cons, Nat.add_comm]
  rfl

@[simp] theorem writesAmong_statement (s : Stmt) :
    writesAmong v (.statement s :: xs) = writesAmong v xs := by
  rw [writesAmong_cons]
  simp [Node.writtenOperands]

@[simp] theorem marksAmong_statement (s : Stmt) :
    marksAmong v (.statement s :: xs) = marksAmong v xs := by
  rw [marksAmong_cons]
  simp [Usage.refers]

/-- If marks are as many as writes in every part, they are in the whole. -/
theorem marksAmong_flatMap {α : Type} {nodes : α → List Node} {xs : List α}
    (h : ∀ x ∈ xs, marksAmong v (nodes x) = writesAmong v (nodes x)) :
    marksAmong v (xs.flatMap nodes) = writesAmong v (xs.flatMap nodes) := by
  induction xs with
  | nil => rfl
  | cons x rest ih =>
    rw [List.forall_mem_cons] at h
    rw [List.flatMap_cons, marksAmong_append, writesAmong_append, h.1, ih h.2]

end

namespace Expr

theorem ofExpr_nodesOfAll (es : List Expr) :
    (nodesOfAll es).map .expression = es.flatMap Node.ofExpr := by
  rw [nodesOfAll_eq, List.map_flatMap]
  rfl

/-- The arguments of a call count once more where they are written. -/
theorem marksAmong_arguments {v : Variable} {parameters : List Variable} {arguments : List Expr}
    (hlength : parameters.length = arguments.length)
    (h : ∀ pair ∈ parameters.zip arguments, marksAmong v (Node.ofExpr pair.2) =
      writesAmong v (Node.ofExpr pair.2) +
        if pair.1.argumentUse != .read && pair.2.isRootedAt v then 1 else 0) :
    marksAmong v (arguments.flatMap Node.ofExpr) =
      (((parameters.zip arguments).filter (·.1.argumentUse != .read)).map (·.2)).countP
        (isRootedAt v) + writesAmong v (arguments.flatMap Node.ofExpr) := by
  induction parameters generalizing arguments with
  | nil =>
    obtain rfl := List.length_eq_zero_iff.1 hlength.symm
    rfl
  | cons parameter parameters ih =>
    obtain ⟨e, rest, rfl⟩ := List.exists_cons_of_length_eq_add_one hlength.symm
    rw [List.zip_cons_cons, List.forall_mem_cons] at h
    have hrest := ih (Nat.succ.inj hlength) h.2
    rw [List.flatMap_cons, marksAmong_append, writesAmong_append, h.1, hrest, List.zip_cons_cons,
      List.filter_cons]
    cases huse : parameter.argumentUse != .read <;> simp [List.countP_cons] <;> omega

/-- An expression counts once more if its own storage is written and the variable is at its root. -/
theorem Marked.marksAmong_eq {use : RefKind} {e : Expr} (h : e.Marked use) (v : Variable) :
    marksAmong v (Node.ofExpr e) =
      writesAmong v (Node.ofExpr e) + if use != .read && e.isRootedAt v then 1 else 0 := by
  have operand (written : Bool) (e : Expr) : (([e].filter fun _ => written).countP (isRootedAt v)) =
      if written && e.isRootedAt v then 1 else 0 := by
    cases written <;> simp [List.countP_cons]
  induction h with
  | literal h value => rfl
  | poison span => rfl
  | reference h init writable =>
    simp [Node.ofExpr, nodes, marksAmong_cons, writesAmong_cons, Node.writtenOperands,
      Usage.refers, isRootedAt, baseVariable?, Bool.and_comm]
  | binary h _ _ ihleft ihright =>
    simp only [Node.ofExpr, nodes, List.map_cons, List.map_append] at ihleft ihright ⊢
    simp +arith [marksAmong_cons, writesAmong_cons, ihleft, ihright, Node.writtenOperands, operand,
      Usage.refers]
  | prefixed h _ ih | postfixed h _ ih =>
    simp only [Node.ofExpr, nodes, List.map_cons] at ih ⊢
    simp +arith [marksAmong_cons, writesAmong_cons, ih, Node.writtenOperands, operand, Usage.refers]
  | field h i _ ih | swizzle h _ _ ih =>
    simp only [Node.ofExpr, nodes, List.map_cons] at ih ⊢
    simp [marksAmong_cons, writesAmong_cons, ih, Node.writtenOperands, Usage.refers, isRootedAt,
      baseVariable?]
  | index h _ _ ihbase ihi =>
    simp only [Node.ofExpr, nodes, List.map_cons, List.map_append] at ihbase ihi ⊢
    simp +arith [marksAmong_cons, writesAmong_cons, ihbase, ihi, Node.writtenOperands, Usage.refers,
      isRootedAt, baseVariable?]
  | ternary h _ _ _ ihtest ihtrue ihfalse =>
    simp only [Node.ofExpr, nodes, List.map_cons, List.map_append] at ihtest ihtrue ihfalse ⊢
    simp [marksAmong_cons, writesAmong_cons, ihtest, ihtrue, ihfalse, Node.writtenOperands,
      Usage.refers]
  | call h hcount _ ih =>
    simp only [Node.ofExpr, nodes, List.map_cons, ofExpr_nodesOfAll]
    simp [marksAmong_cons, writesAmong_cons, marksAmong_arguments hcount ih, Node.writtenOperands,
      Usage.refers]
  | childCall h child _ ih | assemble h assembly _ ih =>
    simp only [Node.ofExpr, nodes, List.map_cons, ofExpr_nodesOfAll]
    simp [marksAmong_cons, writesAmong_cons, marksAmong_flatMap fun e he => by simpa using ih e he,
      Node.writtenOperands, Usage.refers]
  | convert h conversion _ ih =>
    simp only [Node.ofExpr, nodes, List.map_cons] at ih ⊢
    simp [marksAmong_cons, writesAmong_cons, ih, Node.writtenOperands, Usage.refers]

end Expr

/-! ## Counts of uses -/

section

variable {v : Variable}

/-- Values are read, so that only what is written in them counts. -/
theorem Expr.Marked.marksAmong_value {e : Expr} (h : e.Marked .read) (v : Variable) :
    marksAmong v (Node.ofExpr e) = writesAmong v (Node.ofExpr e) := by
  simpa using h.marksAmong_eq v

theorem marksAmong_ofExpr? {o : Option Expr} (h : ∀ e ∈ o, e.Marked .read) :
    marksAmong v (Node.ofExpr? o) = writesAmong v (Node.ofExpr? o) := by
  cases o with
  | none => rfl
  | some e => exact (h e rfl).marksAmong_value v

namespace Stmt

theorem marksAmong_nodesOfAll {statements : List Stmt}
    (h : ∀ s ∈ statements, marksAmong v s.nodes = writesAmong v s.nodes) :
    marksAmong v (nodesOfAll statements) = writesAmong v (nodesOfAll statements) := by
  induction statements with
  | nil => rfl
  | cons s rest ih =>
    rw [List.forall_mem_cons] at h
    rw [nodesOfAll, marksAmong_append, writesAmong_append, h.1, ih h.2]

theorem marksAmong_nodesOfOption {o : Option Stmt}
    (h : ∀ s ∈ o, marksAmong v s.nodes = writesAmong v s.nodes) :
    marksAmong v (nodesOfOption o) = writesAmong v (nodesOfOption o) := by
  cases o with
  | none => rfl
  | some s => exact h s rfl

theorem marksAmong_nodesOfCases {cases : List SwitchCase}
    (h : ∀ c ∈ cases, ∀ s ∈ c.statements, marksAmong v s.nodes = writesAmong v s.nodes) :
    marksAmong v (nodesOfCases cases) = writesAmong v (nodesOfCases cases) := by
  induction cases with
  | nil => rfl
  | cons c rest ih =>
    rw [List.forall_mem_cons] at h
    rw [nodesOfCases, marksAmong_append, writesAmong_append, marksAmong_nodesOfAll h.1, ih h.2]

/-- In a statement, the references to a variable that do not just read it are as many as the
operands that are written and have it at the root. -/
theorem Marked.marksAmong_eq {s : Stmt} (h : s.Marked) (v : Variable) :
    marksAmong v s.nodes = writesAmong v s.nodes := by
  induction h with
  | block span opensScope _ ih => simpa [nodes] using marksAmong_nodesOfAll ih
  | expression span he => simpa [nodes] using he.marksAmong_value v
  | declare span w hvalue => simpa [nodes] using marksAmong_ofExpr? hvalue
  | branch span htest _ _ ihtrue ihfalse =>
    simp [nodes, htest.marksAmong_value v, ihtrue, marksAmong_nodesOfOption ihfalse]
  | loop span trips _ htest hnext _ ihinitializer ihbody =>
    simp [nodes, marksAmong_nodesOfOption ihinitializer, marksAmong_ofExpr? htest,
      marksAmong_ofExpr? hnext, ihbody]
  | doWhile span _ htest ihbody => simp [nodes, htest.marksAmong_value v, ihbody]
  | switch span hvalue _ ihcases =>
    simp [nodes, hvalue.marksAmong_value v, marksAmong_nodesOfCases ihcases]
  | returns span hvalue => simpa [nodes] using marksAmong_ofExpr? hvalue
  | breaks | continues | discards | nop => simp [nodes]

end Stmt

theorem Element.Marked.marksAmong_eq {e : Element} (h : e.Marked) (v : Variable) :
    marksAmong v e.nodes = writesAmong v e.nodes := by
  cases e with
  | global span w value => exact (Stmt.Marked.declare span w h).marksAmong_eq v
  | function f => exact Stmt.Marked.marksAmong_eq h v
  | interfaceBlock | prototype | struct | extension => rfl

end

/-- In an accepted program every reference is marked by how its position uses the variable: it is
written at the root of the left side of an assignment, read and written there if the assignment is
compound and at the root of what is incremented or decremented, handed on at the root of an argument
for an `out` parameter, and read anywhere else.  Where it is not just read, the variable is neither
constant nor uniform nor read-only nor an input of the stage, and no swizzle on the way to it names
a component twice.  So there are as many references to a variable that do not just read it as there
are operands that are written and have it at their root. -/
theorem Program.references_marked (library : Library) (dialect : Dialect) (source : String)
    (program : Program) (h : readOn library dialect source = .ok program) :
    ∀ e ∈ program.elements,
      e.Marked ∧ ∀ v, marksAmong v e.nodes = writesAmong v e.nodes := fun e he =>
  ⟨marked_of_readOn h e he, (marked_of_readOn h e he).marksAmong_eq⟩

/-- A program with every way of writing: assignments to components of an element, an increment of a
field, and an argument for an `out` parameter. -/
def writingSource : String :=
  "struct S \x7b float2 v; int n; \x7d; " ++
    "void put(out float2 to, float x) \x7b to.yx = float2(x); \x7d " ++
    "float f(int i) \x7b S s[2]; put(s[i].v, 2.); s[i].v.y *= 3.; return s[i++].v.x; \x7d"

theorem Program.references_marked_writing : ∃ program,
    readOn .root ⟨.fragment, .standard⟩ writingSource = .ok program ∧
    program.functions.map (·.decl.name) = ["put", "f"] ∧
    ∀ e ∈ program.elements,
      e.Marked ∧ ∀ v, marksAmong v e.nodes = writesAmong v e.nodes := by
  have hnames : (readOn .root ⟨.fragment, .standard⟩ writingSource).toOption.map
      (fun program => program.functions.map (·.decl.name)) = some ["put", "f"] := by
    decide +kernel
  cases hread : readOn .root ⟨.fragment, .standard⟩ writingSource with
  | error reports =>
    rw [hread] at hnames
    cases hnames
  | ok program =>
    rw [hread] at hnames
    exact ⟨program, rfl, Option.some.inj hnames, references_marked _ _ _ program hread⟩

theorem body_marked {elements : List Element} (h : ∀ e ∈ elements, e.Marked) :
    ∀ f ∈ definitions elements, f.body.Marked :=
  fun _ hf => h _ (mem_definitions_iff.1 hf)

/-- What is reached from calls are definitions that calls have. -/
theorem Usage.exists_find?_of_mem_reached {find? : FunctionDecl → Option FunctionDef}
    {remaining : List FunctionDef} {pending : List FunctionDecl} {f : FunctionDef}
    (h : f ∈ reached find? remaining pending) : ∃ decl, find? decl = some f := by
  fun_induction reached find? remaining pending with
  | case1 => cases h
  | case2 remaining pending g hnext ih =>
    obtain rfl | h := List.mem_cons.1 h
    · obtain ⟨decl, -, hdecl⟩ := List.exists_of_findSome?_eq_some hnext
      exact ⟨decl, (Option.filter_eq_some_iff.1 hdecl).1⟩
    · exact ih h

namespace Program

/-- The definition of a call in a program whose modules are marked is marked. -/
theorem findDefinition?_marked {program : Program} (helements : ∀ e ∈ program.elements, e.Marked)
    (hmodules : ∀ m ∈ program.modules, ∀ e ∈ m.elements, e.Marked) {decl : FunctionDecl}
    {f : FunctionDef} (h : program.findDefinition? decl = some f) : f.body.Marked := by
  unfold findDefinition? at h
  split at h
  · rename_i g hfound
    obtain rfl := Option.some.inj h
    exact body_marked helements _ (mem_of_findDefinition? hfound)
  · obtain ⟨m, hm, hfound⟩ := List.exists_of_findSome?_eq_some h
    exact body_marked (hmodules m hm) _ (mem_of_findDefinition? hfound)

/-- In an accepted program, a variable counts as written by its initializers and by the operands of
assignments, increments and calls at whose root it is, in the program and in the built-in functions
it reaches. -/
theorem writes_eq {dialect : Dialect} {source : String} {program : Program}
    (h : read dialect source = .ok program) (v : Variable) :
    ((Usage.ofProgram program).uses v).writes =
      (Usage.ofProgram program).nodes.countP (Usage.initializes v) +
        writesAmong v (Usage.ofProgram program).nodes := by
  have helements := marked_of_readOn h
  have hmodules : ∀ m ∈ program.modules, ∀ e ∈ m.elements, e.Marked :=
    (finished_of_readOn h).1 ▸ Library.marked_forKind dialect.kind
  have hnodes : marksAmong v (Usage.ofProgram program).nodes =
      writesAmong v (Usage.ofProgram program).nodes := by
    refine (marksAmong_append ..).trans (.trans ?_ (writesAmong_append ..).symm)
    refine congrArg₂ _ (marksAmong_flatMap fun e he => (helements e he).marksAmong_eq v) ?_
    refine marksAmong_flatMap fun f hf => Stmt.Marked.marksAmong_eq ?_ v
    obtain ⟨decl, hdecl⟩ := Usage.exists_find?_of_mem_reached hf
    exact findDefinition?_marked helements hmodules hdecl
  exact congrArg _ hnodes

end Program

end RasterShader
