import Mathlib
import RasterShader.Analysis.Calls

/-!
# Call cycles

The walk of the call graph finds a cycle if and only if there is one
(`CallGraph.cycle?_eq_none_iff`, `CallGraph.cycle?_eq_some`).

A walk keeps the functions that it is inside of, its path, and those that it is done with.  Every
function on the path leads to the one on top, so that a call back to the path closes a cycle.  The
functions that are done stand in an order in which each comes after all that it calls
(`CallGraph.Settled`), so that no cycle leads through them.  A path never repeats a function, and is
therefore no longer than there are functions: the fuel of the walk does not run out.
-/

namespace RasterShader

namespace CallGraph

open Relation

/-! ## Walks of any graph -/

/-- One node leads to another directly. -/
def Edge (edges : List (List Nat)) (i j : Nat) : Prop := j ∈ (edges[i]?).getD []

/-- Nodes in an order in which each has what it leads to behind it. -/
inductive Settled (edges : List (List Nat)) : List Nat → Prop
  | nil : Settled edges []
  | cons {node : Nat} {done : List Nat} (leads : ∀ next, Edge edges node next → next ∈ done)
      (fresh : node ∉ done) (rest : Settled edges done) : Settled edges (node :: done)

/-- The nodes that a walk is inside of, the innermost first. -/
structure IsPath (edges : List (List Nat)) (path : List Nat) : Prop where
  chain : path.IsChain fun top below => Edge edges below top
  nodup : path.Nodup
  bounded : ∀ node ∈ path, node < edges.length

/-- What is done while a walk is inside of a path. -/
structure IsDone (edges : List (List Nat)) (path done : List Nat) : Prop where
  settled : Settled edges done
  apart : ∀ node ∈ done, node ∉ path
  bounded : ∀ node ∈ done, node < edges.length

/-- What a walk may come to: a node on a cycle, or that it is done with more nodes, the wanted ones
among them. -/
def Comes (edges : List (List Nat)) (path done wanted : List Nat) :
    Except Nat (List Nat) → Prop
  | .error found => found < edges.length ∧ TransGen (Edge edges) found found
  | .ok done' => IsDone edges path done' ∧ done ⊆ done' ∧ wanted ⊆ done'

section

variable {edges : List (List Nat)} {path done : List Nat}

/-- Nothing that is settled lies on a cycle. -/
theorem Settled.acc (h : Settled edges done) {node : Nat} (hnode : node ∈ done) :
    Acc (flip (Edge edges)) node := by
  induction h generalizing node with
  | nil => cases hnode
  | @cons top done leads _ _ ih =>
    obtain rfl | hnode := List.mem_cons.1 hnode
    · exact ⟨_, fun next hnext => ih (leads next hnext)⟩
    · exact ih hnode

theorem not_transGen_of_acc {node : Nat} (h : Acc (flip (Edge edges)) node) :
    ¬TransGen (Edge edges) node node := by
  intro hcycle
  have hback : TransGen (flip (Edge edges)) node node := transGen_swap.2 hcycle
  have hacc : Acc (TransGen (flip (Edge edges))) node := h.transGen
  clear h hcycle
  induction hacc with
  | intro node _ ih => exact ih node hback hback

theorem IsPath.reaches_top {top : Nat} (h : IsPath edges (top :: path)) {node : Nat}
    (hnode : node ∈ top :: path) : ReflTransGen (Edge edges) node top := by
  obtain ⟨hchain, -, -⟩ := h
  induction path generalizing top with
  | nil =>
    obtain rfl := List.mem_singleton.1 hnode
    exact .refl
  | cons below path ih =>
    obtain rfl | hnode := List.mem_cons.1 hnode
    · exact .refl
    · obtain ⟨hedge, hchain⟩ := List.isChain_cons_cons.1 hchain
      exact (ih hnode hchain).tail hedge

/-- Without room for another node, a path that has it would repeat one. -/
theorem IsPath.length_lt {node : Nat} (h : IsPath edges (node :: path)) :
    path.length < edges.length := by
  have hle : (node :: path).length ≤ (List.range edges.length).length :=
    (h.nodup.subperm fun i hi => List.mem_range.2 (h.bounded i hi)).length_le
  simpa using hle

/-- Visits one after the other come to what each of them comes to. -/
theorem comes_visitAll {visit : List Nat → Nat → Except Nat (List Nat)} (hpath : IsPath edges path)
    (hvisit : ∀ done next, IsPath edges (next :: path) → IsDone edges path done → next ∉ done →
      Comes edges path done [next] (visit done next))
    {nexts : List Nat} (hnexts : ∀ next ∈ nexts, next < edges.length ∧
      ∀ top ∈ path.head?, Edge edges top next)
    (hdone : IsDone edges path done) :
    Comes edges path done nexts (visitAll visit path done nexts) := by
  induction nexts generalizing done with
  | nil => exact ⟨hdone, List.Subset.refl _, List.nil_subset _⟩
  | cons next nexts ih =>
    obtain ⟨hlt, hedge⟩ := hnexts next (List.mem_cons_self ..)
    have ih {done' : List Nat} (hdone' : IsDone edges path done') (hsub : done ⊆ done')
        (hnext : next ∈ done') :
        Comes edges path done (next :: nexts) (visitAll visit path done' nexts) := by
      have hrest := ih (fun n hn => hnexts n (List.mem_cons_of_mem _ hn)) hdone'
      cases hresult : visitAll visit path done' nexts with
      | error found =>
        rw [hresult] at hrest
        exact hrest
      | ok done'' =>
        rw [hresult] at hrest
        obtain ⟨hdone'', hsub', hwanted⟩ := hrest
        exact ⟨hdone'', List.Subset.trans hsub hsub', List.cons_subset.2 ⟨hsub' hnext, hwanted⟩⟩
    rw [visitAll]
    split_ifs with hcycle hknown
    · -- The call leads back to the path, which leads to the caller.
      have hmem : next ∈ path := by simpa using hcycle
      obtain _ | ⟨top, path⟩ := path
      · cases hmem
      · exact ⟨hlt, TransGen.tail' (hpath.reaches_top hmem) (hedge top rfl)⟩
    · exact ih hdone (List.Subset.refl _) (by simpa using hknown)
    · have hfresh : next ∉ path := by simpa using hcycle
      have hgrown : IsPath edges (next :: path) := by
        refine ⟨?_, List.nodup_cons.2 ⟨hfresh, hpath.nodup⟩, ?_⟩
        · exact List.isChain_cons.2 ⟨fun top htop => hedge top htop, hpath.chain⟩
        · exact List.forall_mem_cons.2 ⟨hlt, hpath.bounded⟩
      have hcome := hvisit done next hgrown hdone (by simpa using hknown)
      cases hresult : visit done next with
      | error found =>
        rw [hresult] at hcome
        exact hcome
      | ok done' =>
        rw [hresult] at hcome
        obtain ⟨hdone', hsub, hnext⟩ := hcome
        exact ih hdone' hsub (hnext (List.mem_singleton_self _))

/-- With fuel for the nodes that are not on its path, a visit finds a cycle or is done with the
node. -/
theorem comes_visit (bounded : ∀ i j, Edge edges i j → j < edges.length) {fuel node : Nat}
    (hpath : IsPath edges (node :: path))
    (hfuel : edges.length ≤ fuel + path.length) (hdone : IsDone edges path done)
    (hnode : node ∉ done) :
    Comes edges path done [node] (visit edges fuel path done node) := by
  induction fuel generalizing path done node with
  | zero => exact absurd hpath.length_lt (by omega)
  | succ fuel ih =>
    have hbelow : IsDone edges (node :: path) done := by
      refine ⟨hdone.settled, fun i hi => ?_, hdone.bounded⟩
      exact List.not_mem_cons_of_ne_of_not_mem (fun h => hnode (h ▸ hi)) (hdone.apart i hi)
    have hall : Comes edges (node :: path) done ((edges[node]?).getD [])
        (visitAll (visit edges fuel (node :: path)) (node :: path) done
          ((edges[node]?).getD [])) :=
      comes_visitAll hpath
        (fun done next hpath hdone hnext =>
          ih hpath (by simp only [List.length_cons]; omega) hdone hnext)
        (fun next hnext => by
          refine ⟨bounded node next hnext, fun top htop => ?_⟩
          obtain rfl := Option.some.inj htop
          exact hnext)
        hbelow
    rw [visit]
    cases hresult : visitAll (visit edges fuel (node :: path)) (node :: path) done
        ((edges[node]?).getD []) with
    | error found =>
      rw [hresult] at hall
      exact hall
    | ok done' =>
      rw [hresult] at hall
      obtain ⟨hdone', hsub, hwanted⟩ := hall
      have hfresh : node ∉ done' := fun h => hdone'.apart node h (List.mem_cons_self ..)
      refine ⟨⟨.cons (fun next hnext => hwanted hnext) hfresh hdone'.settled, ?_, ?_⟩, ?_, ?_⟩
      · refine List.forall_mem_cons.2 ⟨(List.nodup_cons.1 hpath.nodup).1, fun i hi => ?_⟩
        exact List.not_mem_of_not_mem_cons (hdone'.apart i hi)
      · exact List.forall_mem_cons.2 ⟨hpath.bounded node (List.mem_cons_self ..), hdone'.bounded⟩
      · exact List.subset_cons_of_subset _ hsub
      · exact List.cons_subset.2 ⟨List.mem_cons_self .., List.nil_subset _⟩

end

/-! ## Functions that call each other -/

/-- A function calls another one, both given by their places among the definitions. -/
def Calls (functions : List FunctionDef) (i j : Nat) : Prop :=
  ∃ f, functions[i]? = some f ∧ ∃ callee ∈ f.body.calledFunctions,
    target? functions callee = some j

variable {functions : List FunctionDef}

@[simp] theorem length_edges : (edges functions).length = functions.length := List.length_map ..

theorem edge_iff {i j : Nat} : Edge (edges functions) i j ↔ Calls functions i j := by
  rw [Edge, edges, List.getElem?_map, Calls]
  cases functions[i]? <;> simp

theorem getElem?_of_target? {callee : FunctionDecl} {j : Nat}
    (h : target? functions callee = some j) : ∃ f, functions[j]? = some f := by
  have hfind (p : FunctionDef → Bool) (h : functions.findIdx? p = some j) :
      ∃ f, functions[j]? = some f := by
    obtain ⟨hlt, -⟩ := List.findIdx?_eq_some_iff_getElem.1 h
    exact ⟨_, List.getElem?_eq_getElem hlt⟩
  rw [target?] at h
  split at h
  · rename_i i hi
    exact hfind _ (hi.trans h)
  · exact hfind _ h

theorem lt_of_edge {i j : Nat} (h : Edge (edges functions) i j) :
    j < (edges functions).length := by
  obtain ⟨_, _, _, _, htarget⟩ := edge_iff.1 h
  obtain ⟨f, hf⟩ := getElem?_of_target? htarget
  rw [length_edges]
  exact (List.getElem?_eq_some_iff.1 hf).1

/-- The walk from all functions comes to a function on a cycle, or is done with all of them. -/
theorem comes_walk (functions : List FunctionDef) :
    Comes (edges functions) [] [] (List.range functions.length)
      (visitAll (visit (edges functions) functions.length []) [] []
        (List.range functions.length)) := by
  refine comes_visitAll ⟨.nil, .nil, nofun⟩ ?_ ?_ ⟨.nil, nofun, nofun⟩
  · intro done next hpath hdone hnext
    exact comes_visit (fun _ _ => lt_of_edge) hpath (by simp) hdone hnext
  · exact fun next hnext => ⟨by simpa using hnext, nofun⟩

/-- A function that is reported lies on a cycle of calls. -/
theorem exists_of_cycle?_eq_some {decl : FunctionDecl} (h : cycle? functions = some decl) :
    ∃ i f, functions[i]? = some f ∧ f.decl = decl ∧ TransGen (Calls functions) i i := by
  have hcome := comes_walk functions
  rw [cycle?] at h
  cases hresult : visitAll (visit (edges functions) functions.length []) [] []
      (List.range functions.length) with
  | ok done => simp [hresult] at h
  | error found =>
    rw [hresult] at hcome
    simp only [hresult, Option.map_eq_some_iff] at h
    obtain ⟨f, hf, rfl⟩ := h
    exact ⟨found, f, hf, rfl, TransGen.mono (fun _ _ => edge_iff.1) _ _ hcome.2⟩

/-- Without a report all functions are settled. -/
theorem exists_settled_of_cycle?_eq_none (h : cycle? functions = none) :
    ∃ done, Settled (edges functions) done ∧ (∀ i ∈ done, i < functions.length) ∧
      ∀ i < functions.length, i ∈ done := by
  have hcome := comes_walk functions
  rw [cycle?] at h
  cases hresult : visitAll (visit (edges functions) functions.length []) [] []
      (List.range functions.length) with
  | ok done =>
    rw [hresult] at hcome
    obtain ⟨hdone, -, hall⟩ := hcome
    exact ⟨done, hdone.settled, fun i hi => by simpa using hdone.bounded i hi,
      fun i hi => hall (List.mem_range.2 hi)⟩
  | error found =>
    rw [hresult] at hcome
    have hlt : found < functions.length := by simpa using hcome.1
    simp [hresult, List.getElem?_eq_getElem hlt] at h

theorem cycle?_eq_none_iff :
    cycle? functions = none ↔ ¬∃ i, TransGen (Calls functions) i i := by
  constructor
  · rintro h ⟨i, hi⟩
    obtain ⟨done, hsettled, -, hall⟩ := exists_settled_of_cycle?_eq_none h
    have hedges : TransGen (Edge (edges functions)) i i := TransGen.mono (fun _ _ => edge_iff.2) _ _ hi
    have hlt : i < functions.length := by
      obtain ⟨j, -, hji⟩ := TransGen.tail'_iff.1 hedges
      simpa using lt_of_edge hji
    exact not_transGen_of_acc (hsettled.acc (hall i hlt)) hedges
  · intro hacyclic
    refine Option.eq_none_iff_forall_ne_some.2 fun decl hdecl => hacyclic ?_
    obtain ⟨i, -, -, -, hcycle⟩ := exists_of_cycle?_eq_some hdecl
    exact ⟨i, hcycle⟩

/-- No function is settled twice. -/
theorem Settled.nodup {edges : List (List Nat)} {done : List Nat} (h : Settled edges done) :
    done.Nodup := by
  induction h with
  | nil => exact .nil
  | cons _ fresh _ ih => exact List.nodup_cons.2 ⟨fresh, ih⟩

end CallGraph

end RasterShader
