import RasterShader.Ir.Walk

/-!
# Calls between functions

Call cycles are found by a depth-first walk of the call graph, calls without a definition by
looking every call site up.
-/

namespace RasterShader

namespace CallGraph

/-- The place of a call's target among definitions: the one with the same identity, or else the
first with the same signature. -/
def target? (functions : List FunctionDef) (decl : FunctionDecl) : Option Nat :=
  match functions.findIdx? (·.decl.id == decl.id) with
  | some i => some i
  | none => functions.findIdx? (·.decl.matchesSignature decl)

/-- For each definition the places of those it calls, in source order. -/
def edges (functions : List FunctionDef) : List (List Nat) :=
  functions.map fun f => f.body.calledFunctions.filterMap (target? functions)

/-- Visits functions one after the other. The outcome is the first function met that is already on
`path`, or else all functions that are known to lead into no cycle. -/
def visitAll (visit : (done : List Nat) → (node : Nat) → Except Nat (List Nat))
    (path : List Nat) : (done : List Nat) → List Nat → Except Nat (List Nat)
  | done, [] => .ok done
  | done, next :: rest =>
    if path.contains next then .error next
    else if done.contains next then visitAll visit path done rest
    else
      match visit done next with
      | .error found => .error found
      | .ok done => visitAll visit path done rest

/-- Visits a function below those on `path`, and from there the ones that it calls. A path never
repeats a function, so that as much fuel as there are functions is enough. -/
def visit (edges : List (List Nat)) : (fuel : Nat) → (path done : List Nat) → (node : Nat) →
    Except Nat (List Nat)
  | 0, _, done, _ => .ok done
  | fuel + 1, path, done, node => do
    let done ← visitAll (visit edges fuel (node :: path)) (node :: path) done
      ((edges[node]?).getD [])
    return node :: done

/-- A function that takes part in a call cycle, if there is one. -/
def cycle? (functions : List FunctionDef) : Option FunctionDecl :=
  let roots := List.range functions.length
  match visitAll (visit (edges functions) functions.length []) [] [] roots with
  | .error found => (functions[found]?).map FunctionDef.decl
  | .ok _ => none

/-- Calls of functions that are neither intrinsic nor have a definition, each function only at its
first call. -/
def undefinedCalls (functions : List FunctionDef) (isDefinedElsewhere : FunctionDecl → Bool) :
    List (Span × FunctionDecl) :=
  let missing := (functions.flatMap fun f => f.body.callSites).filter fun (_, callee) =>
    callee.intrinsic.isNone && (target? functions callee).isNone && !isDefinedElsewhere callee
  missing.foldl (fun found site =>
    if found.any (·.2.id == site.2.id) then found else found ++ [site]) []

end CallGraph

end RasterShader
