import RasterShader.Proofs.Typing.Marks
import RasterShader.Proofs.Typing.Overloads

/-!
# Overload resolution

A call is checked in passes that have to agree: `callCost?` ranks the overloads, then
`resolveSignature?` and `passArguments` build the call of the one that is chosen, and an overload
without others beside it is not ranked at all.  They do agree: the call of a function is built, and
nothing reported, exactly when it has a cost, is allowed, and can write to what is passed to its
`out` parameters (`callFunction_eq`, `admits_of_callFunction`).  From that `call_coherent` describes
every call by name.

Of equally good overloads the first in scope is called.  A function that is declared comes before
the overloads of its name, and a definition takes the place of its prototype among them
(`Session.Settled.overloads_declareFunction`).

Parameters are taken not to have the type of failed expressions, which no type name stands for.
-/

namespace RasterShader

/-! ## The least cost -/

namespace Typing

/-- The cheaper of two candidates, and the first of equals. -/
def cheaper (best : Option (Nat × Nat)) (candidate : Nat × Nat) : Option (Nat × Nat) :=
  match best with
  | none => some candidate
  | some b => if candidate.1 < b.1 then some candidate else best

theorem cheaper_of_le {b candidate : Nat × Nat} (h : b.1 ≤ candidate.1) :
    cheaper (some b) candidate = some b := if_neg (Nat.not_lt.2 h)

theorem cheaper_of_lt {best : Option (Nat × Nat)} {candidate : Nat × Nat}
    (h : ∀ b, best = some b → candidate.1 < b.1) : cheaper best candidate = some candidate := by
  cases best with
  | none => rfl
  | some b => exact if_pos (h b rfl)

/-- The search for the least cost either keeps what it has, if nothing is below it, or finds a cost
that those before it exceed and those after it do not fall below. -/
theorem foldl_cheaper (costs : List (Option Nat)) (k : Nat) (best : Option (Nat × Nat)) :
    let found := ((costs.zipIdx k).filterMap fun (cost, i) => cost.map (·, i)).foldl cheaper best
    (found = best ∧ ∀ c, some c ∈ costs → ∃ b, best = some b ∧ b.1 ≤ c) ∨
      ∃ before cost after, costs = before ++ some cost :: after ∧
        found = some (cost, k + before.length) ∧ (∀ b, best = some b → cost < b.1) ∧
        (∀ c, some c ∈ before → cost < c) ∧ ∀ c, some c ∈ after → cost ≤ c := by
  induction costs generalizing k best with
  | nil => exact .inl ⟨rfl, nofun⟩
  | cons first rest ih =>
    dsimp only at ih ⊢
    have hplace (before : List (Option Nat)) :
        k + 1 + before.length = k + (first :: before).length := by
      rw [List.length_cons]
      omega
    rw [List.zipIdx_cons]
    cases first with
    | none =>
      rw [List.filterMap_cons_none rfl]
      obtain ⟨hfound, hleast⟩ | ⟨before, cost, after, rfl, hfound, hbest, hbefore, hafter⟩ :=
        ih (k + 1) best
      · exact .inl ⟨hfound, by simpa using hleast⟩
      · exact .inr ⟨none :: before, cost, after, rfl, hplace before ▸ hfound, hbest,
          by simpa using hbefore, hafter⟩
    | some cost =>
      simp only [List.filterMap_cons, Option.map_some, List.foldl_cons]
      by_cases hkeep : ∃ b, best = some b ∧ b.1 ≤ cost
      · obtain ⟨b, rfl, hle⟩ := hkeep
        rw [cheaper_of_le hle]
        obtain ⟨hfound, hleast⟩ | ⟨before, less, after, rfl, hfound, hbest, hbefore, hafter⟩ :=
          ih (k + 1) (some b)
        · refine .inl ⟨hfound, fun c hc => ?_⟩
          obtain hc | hc := List.mem_cons.1 hc
          · obtain rfl := Option.some.inj hc
            exact ⟨b, rfl, hle⟩
          · exact hleast c hc
        · refine .inr ⟨some cost :: before, less, after, rfl, hplace before ▸ hfound, hbest,
            fun c hc => ?_, hafter⟩
          obtain hc | hc := List.mem_cons.1 hc
          · obtain rfl := Option.some.inj hc
            exact (hbest b rfl).trans_le hle
          · exact hbefore c hc
      · have hbelow : ∀ b, best = some b → cost < b.1 := fun b hb =>
          Nat.lt_of_not_le fun hle => hkeep ⟨b, hb, hle⟩
        rw [cheaper_of_lt hbelow]
        obtain ⟨hfound, hleast⟩ | ⟨before, less, after, rfl, hfound, hbest, hbefore, hafter⟩ :=
          ih (k + 1) (some (cost, k))
        · refine .inr ⟨[], cost, rest, rfl, hfound, hbelow, nofun, fun c hc => ?_⟩
          obtain ⟨b, hb, hle⟩ := hleast c hc
          obtain rfl := Option.some.inj hb
          exact hle
        · have hless : less < cost := hbest _ rfl
          refine .inr ⟨some cost :: before, less, after, rfl, hplace before ▸ hfound,
            fun b hb => hless.trans (hbelow b hb), fun c hc => ?_, hafter⟩
          obtain hc | hc := List.mem_cons.1 hc
          · obtain rfl := Option.some.inj hc
            exact hless
          · exact hbefore c hc

/-- The least cost is at the first place where it stands. -/
theorem leastCost?_eq_some {costs : List (Option Nat)} {i : Nat} (h : leastCost? costs = some i) :
    ∃ before cost after, costs = before ++ some cost :: after ∧ before.length = i ∧
      (∀ c, some c ∈ before → cost < c) ∧ ∀ c, some c ∈ after → cost ≤ c := by
  obtain ⟨found, hfold, rfl⟩ := Option.map_eq_some_iff.1 h
  obtain ⟨hnone, -⟩ | ⟨before, cost, after, hcosts, hfound, -, hbefore, hafter⟩ :=
    foldl_cheaper costs 0 none
  · cases hnone.symm.trans hfold
  · obtain rfl := Option.some.inj (hfound.symm.trans hfold)
    exact ⟨before, cost, after, hcosts, (Nat.zero_add _).symm, hbefore, hafter⟩

theorem leastCost?_eq_none {costs : List (Option Nat)} (h : leastCost? costs = none) (c : Nat) :
    some c ∉ costs := by
  obtain ⟨-, hleast⟩ | ⟨_, _, _, -, hfound, -⟩ := foldl_cheaper costs 0 none
  · intro hc
    obtain ⟨b, hb, -⟩ := hleast c hc
    cases hb
  · cases hfound.symm.trans (Option.map_eq_none_iff.1 h)

/-! ## The overload that is called -/

variable {overloads : List FunctionDecl} {arguments : List Expr} {f g : FunctionDecl}

/-- The overload a call takes.  Overloads stand with the latest first: those declared later cost
more, and those declared earlier cost no less. -/
def IsChosen (overloads : List FunctionDecl) (arguments : List Expr) (f : FunctionDecl) : Prop :=
  ∃ later earlier cost, overloads = later ++ f :: earlier ∧ callCost? f arguments = some cost ∧
    (∀ g ∈ later, ∀ c, callCost? g arguments = some c → cost < c) ∧
    ∀ g ∈ earlier, ∀ c, callCost? g arguments = some c → cost ≤ c

theorem IsChosen.mem (h : IsChosen overloads arguments f) : f ∈ overloads := by
  obtain ⟨later, earlier, _, rfl, -⟩ := h
  simp

theorem IsChosen.isSome_callCost? (h : IsChosen overloads arguments f) :
    (callCost? f arguments).isSome = true := by
  obtain ⟨_, _, _, -, hcost, -⟩ := h
  rw [hcost, Option.isSome_some]

/-- At most one overload is chosen. -/
theorem IsChosen.unique (hf : IsChosen overloads arguments f)
    (hg : IsChosen overloads arguments g) : f = g := by
  obtain ⟨later, earlier, cost, rfl, hcost, hlater, hearlier⟩ := hf
  obtain ⟨later', earlier', cost', hsplit, hcost', hlater', hearlier'⟩ := hg
  obtain ⟨between, rfl, heq⟩ | ⟨between, rfl, heq⟩ := List.append_eq_append_iff.1 hsplit
  · cases between with
    | nil => exact (List.cons.inj heq).1
    | cons first between =>
      -- `f` comes before `g`, so that it would cost both more and no more.
      obtain ⟨rfl, rfl⟩ := List.cons.inj heq
      have hmore := hlater' f (by simp) cost hcost
      have hless := hearlier g (by simp) cost' hcost'
      omega
  · cases between with
    | nil => exact (List.cons.inj heq).1.symm
    | cons first between =>
      obtain ⟨rfl, rfl⟩ := List.cons.inj heq
      have hmore := hlater g (by simp) cost' hcost'
      have hless := hearlier' f (by simp) cost hcost
      omega

theorem isChosen_of_leastCost?
    (h : leastCost? (overloads.map (callCost? · arguments)) >>= (overloads[·]?) = some f) :
    IsChosen overloads arguments f := by
  obtain ⟨i, hi, hf⟩ := Option.bind_eq_some_iff.1 h
  obtain ⟨before, cost, after, hcosts, rfl, hbefore, hafter⟩ := leastCost?_eq_some hi
  obtain ⟨later, rest, rfl, rfl, hrest⟩ := List.map_eq_append_iff.1 hcosts
  obtain ⟨g, earlier, rfl, hcost, rfl⟩ := List.map_eq_cons_iff.1 hrest
  rw [List.length_map, List.getElem?_append_right le_rfl, Nat.sub_self] at hf
  obtain rfl : g = f := Option.some.inj hf
  exact ⟨later, earlier, cost, rfl, hcost,
    fun h hh c hc => hbefore c (List.mem_map.2 ⟨h, hh, hc⟩),
    fun h hh c hc => hafter c (List.mem_map.2 ⟨h, hh, hc⟩)⟩

theorem callCost?_of_leastCost?
    (h : leastCost? (overloads.map (callCost? · arguments)) >>= (overloads[·]?) = none)
    (hf : f ∈ overloads) : callCost? f arguments = none := by
  cases hleast : leastCost? (overloads.map (callCost? · arguments)) with
  | none =>
    cases hcost : callCost? f arguments with
    | none => rfl
    | some c => exact absurd (List.mem_map.2 ⟨f, hf, hcost⟩) (leastCost?_eq_none hleast c)
  | some i =>
    obtain ⟨before, cost, after, hcosts, rfl, -⟩ := leastCost?_eq_some hleast
    rw [hleast] at h
    have hlength := congrArg List.length hcosts
    have hout : overloads.length ≤ before.length := List.getElem?_eq_none_iff.1 h
    rw [List.length_map, List.length_append, List.length_cons] at hlength
    omega

/-- Some overload is chosen as soon as some has a cost. -/
theorem exists_isChosen (hf : f ∈ overloads) (hcost : (callCost? f arguments).isSome = true) :
    ∃ g, IsChosen overloads arguments g := by
  cases h : leastCost? (overloads.map (callCost? · arguments)) >>= (overloads[·]?) with
  | none =>
    rw [callCost?_of_leastCost? h hf] at hcost
    cases hcost
  | some g => exact ⟨g, isChosen_of_leastCost? h⟩

end Typing

/-! ## Passing arguments -/

namespace Expr

variable {e : Expr} {ty : Ty}

theorem assignable_eq (h : e.assignable.value = true) : e.assignable = pure true := by
  have hreports := reports_assignable h
  cases hresult : e.assignable with
  | mk value reports =>
    rw [hresult] at h hreports
    obtain rfl : value = true := h
    obtain rfl : reports = [] := hreports
    rfl

end Expr

namespace Typing

variable {overloads : List FunctionDecl} {arguments : List Expr} {f g : FunctionDecl}
  {parameter : Variable} {ty : Ty} {argument : Expr} {span : Span}

/-- An argument as the function receives it: marked as written for an `out` parameter, converted
for another. -/
def passed (parameter : Variable) (ty : Ty) (argument : Expr) : Expr :=
  if parameter.modifiers.isOut then argument.withRefKind .pointer else argument.castUnlessSame ty

/-- What is passed to an `out` parameter can be written. -/
def IsWritable (parameter : Variable) (argument : Expr) : Prop :=
  parameter.modifiers.isOut = true → argument.assignable.value = true

/-- A type that an argument is converted to. -/
structure Receives (ty : Ty) : Prop where
  poison : ty.isPoison = false
  generic : ty.isGeneric = false

theorem Receives.ofProper (h : ty.isProper = true) : Receives ty := by
  cases ty <;> first | exact ⟨rfl, rfl⟩ | cases h

/-- An argument that has a cost and can be written where it has to be is passed. -/
theorem passArgument_eq (hty : Receives ty) (hargument : argument.isPoison = false)
    (hcost : (argumentCost? parameter ty argument).isSome = true)
    (hwritable : IsWritable parameter argument) :
    passArgument parameter ty argument = pure (some (passed parameter ty argument)) := by
  unfold argumentCost? at hcost
  unfold passArgument passed
  by_cases hout : parameter.modifiers.isOut = true
  · rw [if_pos hout] at hcost
    rw [if_pos hout, if_pos hout]
    have hsame : argument.ty.same ty = true := by
      by_contra hdiffers
      rw [if_neg hdiffers] at hcost
      cases hcost
    rw [hsame, Expr.markAssigned, Expr.assignable_eq (hwritable hout)]
    rfl
  · rw [if_neg hout] at hcost
    rw [if_neg hout, if_neg hout, Expr.coerce_eq hargument hty.poison, if_pos hcost]
    have hpoison := (Expr.same_castUnlessSame hargument hty.generic hcost).2
    change pure (if (argument.castUnlessSame ty).isPoison then none
      else some (argument.castUnlessSame ty)) = _
    rw [hpoison]
    rfl

/-- Nothing else is passed. -/
theorem isSome_of_passArgument (hty : Receives ty) (hargument : argument.isPoison = false)
    (h : (passArgument parameter ty argument).value.isSome = true) :
    (argumentCost? parameter ty argument).isSome = true ∧ IsWritable parameter argument := by
  unfold passArgument at h
  unfold argumentCost?
  by_cases hout : parameter.modifiers.isOut = true
  · rw [if_pos hout] at h ⊢
    cases hsame : argument.ty.same ty with
    | false =>
      rw [hsame] at h
      cases h
    | true =>
      refine ⟨rfl, fun _ => ?_⟩
      rw [hsame] at h
      cases hassignable : argument.assignable.value with
      | true => rfl
      | false =>
        change (if argument.assignable.value then pure (some (argument.withRefKind .pointer))
          else pure none : Checked (Option Expr)).value.isSome = true at h
        rw [hassignable] at h
        cases h
  · rw [if_neg hout] at h ⊢
    refine ⟨?_, fun hout' => absurd hout' hout⟩
    by_contra hcost
    rw [Expr.coerce_eq hargument hty.poison, if_neg hcost] at h
    cases h

theorem same_passed (hty : Receives ty) (hargument : argument.isPoison = false)
    (hcost : (argumentCost? parameter ty argument).isSome = true) :
    (passed parameter ty argument).ty.same ty = true := by
  unfold argumentCost? at hcost
  unfold passed
  by_cases hout : parameter.modifiers.isOut = true
  · rw [if_pos hout] at hcost ⊢
    rw [Expr.ty_withRefKind]
    by_contra hdiffers
    rw [if_neg hdiffers] at hcost
    cases hcost
  · rw [if_neg hout] at hcost ⊢
    exact (Expr.same_castUnlessSame hargument hty.generic hcost).1

/-- The arguments of a call beside its parameters and their types can all be passed. -/
def ArePassed (triples : List ((Variable × Ty) × Expr)) : Prop :=
  ∀ t ∈ triples, (argumentCost? t.1.1 t.1.2 t.2).isSome = true ∧ IsWritable t.1.1 t.2

theorem passArguments_eq {triples : List ((Variable × Ty) × Expr)}
    (htriples : ∀ t ∈ triples, Receives t.1.2 ∧ t.2.isPoison = false) (h : ArePassed triples) :
    passArguments triples = pure (some (triples.map fun t => passed t.1.1 t.1.2 t.2)) := by
  induction triples with
  | nil => rfl
  | cons first rest ih =>
    obtain ⟨⟨parameter, ty⟩, argument⟩ := first
    rw [ArePassed, List.forall_mem_cons] at h
    rw [List.forall_mem_cons] at htriples
    obtain ⟨⟨hty, hargument⟩, hrest⟩ := htriples
    unfold passArguments
    rw [passArgument_eq hty hargument h.1.1 h.1.2, ih hrest h.2]
    rfl

theorem arePassed_of_passArguments {triples : List ((Variable × Ty) × Expr)}
    (htriples : ∀ t ∈ triples, Receives t.1.2 ∧ t.2.isPoison = false)
    (h : (passArguments triples).value.isSome = true) : ArePassed triples := by
  induction triples with
  | nil => exact nofun
  | cons first rest ih =>
    obtain ⟨⟨parameter, ty⟩, argument⟩ := first
    rw [List.forall_mem_cons] at htriples
    obtain ⟨⟨hty, hargument⟩, hrest⟩ := htriples
    rw [passArguments, Checked.value_bind] at h
    cases hfirst : (passArgument parameter ty argument).value with
    | none =>
      rw [hfirst] at h
      cases h
    | some e =>
      rw [hfirst] at h
      have hothers : (passArguments rest).value.isSome = true := by
        simpa using h
      rw [ArePassed, List.forall_mem_cons]
      exact ⟨isSome_of_passArgument hty hargument (by rw [hfirst]; rfl), ih hrest hothers⟩

/-! ## Signatures -/

/-- A type, with a placeholder taken at a place among its members. -/
def resolvedAt? (place : Nat) (ty : Ty) : Option Ty :=
  if ty.isGeneric then ty.members[place]? else some ty

/-- The first argument for a placeholder settles the place, and every placeholder is taken there. -/
theorem resolveParameters_at {pairs : List (Variable × Expr)} {chosen settled : Option Nat}
    {tys : List Ty} (h : resolveParameters chosen pairs = some (tys, settled)) :
    settled = (chosen <|> (pairs.find? (·.1.ty.isGeneric)).bind fun p => memberFor? p.1.ty p.2) ∧
      ((∃ p ∈ pairs, p.1.ty.isGeneric = true) → settled.isSome = true) ∧
      pairs.map (fun p => resolvedAt? (settled.getD 0) p.1.ty) = tys.map some := by
  induction pairs generalizing chosen tys with
  | nil =>
    cases h
    exact ⟨by simp, nofun, rfl⟩
  | cons first rest ih =>
    obtain ⟨parameter, argument⟩ := first
    unfold resolveParameters at h
    split at h
    · rename_i hgeneric
      obtain ⟨place, hplace, h⟩ := Option.bind_eq_some_iff.1 h
      obtain ⟨ty, hty, h⟩ := Option.bind_eq_some_iff.1 h
      obtain ⟨⟨others, _⟩, hothers, h⟩ := Option.bind_eq_some_iff.1 h
      cases h
      obtain ⟨hsettled, -, hrest⟩ := ih hothers
      obtain rfl : settled = some place := hsettled
      refine ⟨?_, fun _ => rfl, ?_⟩
      · simp only [List.find?_cons, hgeneric]
        exact hplace.symm
      · rw [List.map_cons, hrest, resolvedAt?, if_pos hgeneric]
        exact congrArg (· :: others.map some) hty
    · rename_i hgeneric
      obtain ⟨⟨others, _⟩, hothers, h⟩ := Option.bind_eq_some_iff.1 h
      cases h
      obtain ⟨hsettled, hsome, hrest⟩ := ih hothers
      refine ⟨?_, ?_, ?_⟩
      · simp only [List.find?_cons, hgeneric]
        exact hsettled
      · rintro ⟨p, hp, hpgeneric⟩
        obtain rfl | hp := List.mem_cons.1 hp
        · exact absurd hpgeneric hgeneric
        · exact hsome ⟨p, hp, hpgeneric⟩
      · rw [List.map_cons, hrest, resolvedAt?, if_neg hgeneric]
        rfl

/-- The signature of a call: all placeholders are taken at one place, which is that of the member
the first argument for one converts to most cheaply. -/
structure IsSignature (f : FunctionDecl) (arguments : List Expr) (place : Nat)
    (signature : Signature) : Prop where
  parameters : f.parameters.map (fun p => resolvedAt? place p.ty) = signature.parameters.map some
  returns : resolvedAt? place f.returnType = some signature.returns
  first : ∀ p, (f.parameters.zip arguments).find? (·.1.ty.isGeneric) = some p →
    memberFor? p.1.ty p.2 = some place

theorem exists_isSignature {signature : Signature}
    (hlength : f.parameters.length = arguments.length)
    (h : resolveSignature? f arguments = some signature) :
    ∃ place, IsSignature f arguments place signature := by
  unfold resolveSignature? at h
  obtain ⟨⟨tys, settled⟩, htys, h⟩ := Option.bind_eq_some_iff.1 h
  obtain ⟨hsettled, hsome, hresolved⟩ := resolveParameters_at htys
  have hparameters : f.parameters.map (fun p => resolvedAt? (settled.getD 0) p.ty) =
      tys.map some := by
    calc f.parameters.map (fun p => resolvedAt? (settled.getD 0) p.ty)
      _ = ((f.parameters.zip arguments).map Prod.fst).map
          fun p => resolvedAt? (settled.getD 0) p.ty := by rw [List.map_fst_zip hlength.le]
      _ = (f.parameters.zip arguments).map fun p => resolvedAt? (settled.getD 0) p.1.ty :=
        List.map_map
      _ = tys.map some := hresolved
  have hfirst : ∀ p, (f.parameters.zip arguments).find? (·.1.ty.isGeneric) = some p →
      memberFor? p.1.ty p.2 = some (settled.getD 0) := by
    intro p hp
    have hgeneric := List.find?_some hp
    obtain ⟨place, hplace⟩ := Option.isSome_iff_exists.1
      (hsome ⟨p, List.mem_of_find?_eq_some hp, hgeneric⟩)
    rw [hp, hplace] at hsettled
    rw [hplace]
    exact hsettled.symm
  dsimp only at h
  split at h
  · rename_i hgeneric
    obtain ⟨place, hplace, h⟩ := Option.bind_eq_some_iff.1 h
    obtain ⟨returns, hreturns, h⟩ := Option.bind_eq_some_iff.1 h
    obtain rfl := Option.some.inj h
    subst hplace
    exact ⟨place, hparameters, by rw [resolvedAt?, if_pos hgeneric]; exact hreturns, hfirst⟩
  · rename_i hgeneric
    obtain rfl := Option.some.inj h
    exact ⟨settled.getD 0, hparameters, by rw [resolvedAt?, if_neg hgeneric], hfirst⟩

theorem Receives.of_resolvedAt? {place : Nat} {t : Ty} (hpoison : ty.isPoison = false)
    (h : resolvedAt? place ty = some t) : Receives t := by
  unfold resolvedAt? at h
  split at h
  · exact .ofProper (isProper_of_member (List.mem_of_getElem? h))
  · rename_i hgeneric
    obtain rfl := Option.some.inj h
    exact ⟨hpoison, Bool.eq_false_iff.2 hgeneric⟩

/-! ## Calls of a function -/

/-- The function may be called with the arguments: it is no entry point of the program, and what is
passed to its `out` parameters can be written. -/
structure Admits (f : FunctionDecl) (arguments : List Expr) : Prop where
  notMain : f.isMain = true → f.builtin = true
  writable : ∀ p ∈ f.parameters.zip arguments, IsWritable p.1 p.2

/-- Parameters, their types in a signature, and the arguments for them. -/
def triples (f : FunctionDecl) (signature : Signature) (arguments : List Expr) :
    List ((Variable × Ty) × Expr) :=
  (f.parameters.zip signature.parameters).zip arguments

theorem isSome_mapM {α β : Type} (g : α → Option β) (xs : List α) :
    (xs.mapM g).isSome = true ↔ ∀ x ∈ xs, (g x).isSome = true := by
  induction xs with
  | nil => simp
  | cons x xs ih =>
    rw [List.forall_mem_cons, ← ih, List.mapM_cons]
    cases g x <;> cases xs.mapM g <;> simp

/-- A call has a cost if there are as many arguments as parameters, the placeholders can be
resolved, and every argument has a cost. -/
theorem isSome_callCost?_iff : (callCost? f arguments).isSome = true ↔
    f.parameters.length = arguments.length ∧ ∃ signature,
      resolveSignature? f arguments = some signature ∧
      ∀ t ∈ triples f signature arguments, (argumentCost? t.1.1 t.1.2 t.2).isSome = true := by
  unfold callCost?
  by_cases hlength : f.parameters.length = arguments.length
  · cases hsignature : resolveSignature? f arguments with
    | none => simp [hlength]
    | some signature =>
      have hmapM := isSome_mapM (fun t : (Variable × Ty) × Expr => argumentCost? t.1.1 t.1.2 t.2)
        (triples f signature arguments)
      have htotal (costs : Option (List Nat)) :
          (costs.bind fun costs => some (costs.foldr (· + ·) 0)).isSome = costs.isSome := by
        cases costs <;> rfl
      simpa [hlength, triples, htotal] using hmapM
  · simp [hlength]

theorem map_zip_zip {α β γ : Type} {as : List α} {bs : List β} (cs : List γ)
    (h : as.length ≤ bs.length) :
    ((as.zip bs).zip cs).map (fun t => (t.1.1, t.2)) = as.zip cs := by
  induction as generalizing bs cs with
  | nil => rfl
  | cons a as ih =>
    cases bs with
    | nil => cases h
    | cons b bs =>
      cases cs with
      | nil => rfl
      | cons c cs => exact congrArg ((a, c) :: ·) (ih cs (Nat.le_of_succ_le_succ h))

/-- Parameters and arguments side by side in a call with as many of each. -/
structure Matches (f : FunctionDecl) (signature : Signature) (arguments : List Expr) : Prop where
  parameters : f.parameters.length = arguments.length
  types : signature.parameters.length = arguments.length

namespace Matches

variable {signature : Signature}

theorem ofSignature (hlength : f.parameters.length = arguments.length)
    (h : resolveSignature? f arguments = some signature) : Matches f signature arguments := by
  have htypes := length_resolveSignature? h
  rw [List.length_zip, hlength, Nat.min_self] at htypes
  exact ⟨hlength, htypes⟩

theorem types_triples (h : Matches f signature arguments) :
    (triples f signature arguments).map (·.1.2) = signature.parameters := by
  have hzip : (f.parameters.zip signature.parameters).length = arguments.length := by
    rw [List.length_zip, h.parameters, h.types, Nat.min_self]
  calc (triples f signature arguments).map (·.1.2)
    _ = ((triples f signature arguments).map Prod.fst).map Prod.snd := List.map_map.symm
    _ = (f.parameters.zip signature.parameters).map Prod.snd := by
      rw [triples, List.map_fst_zip hzip.le]
    _ = signature.parameters := List.map_snd_zip (h.types.trans h.parameters.symm).le

/-- Parameters and arguments stand in the triples as they are paired. -/
theorem pairs_triples (h : Matches f signature arguments) :
    (triples f signature arguments).map (fun t => (t.1.1, t.2)) = f.parameters.zip arguments :=
  map_zip_zip arguments (h.parameters.trans h.types.symm).le

theorem arePassed_iff (h : Matches f signature arguments) :
    ArePassed (triples f signature arguments) ↔
      (∀ t ∈ triples f signature arguments, (argumentCost? t.1.1 t.1.2 t.2).isSome = true) ∧
        ∀ p ∈ f.parameters.zip arguments, IsWritable p.1 p.2 := by
  rw [← h.pairs_triples, List.forall_mem_map]
  exact ⟨fun hall => ⟨fun t ht => (hall t ht).1, fun t ht => (hall t ht).2⟩,
    fun hall t ht => ⟨hall.1 t ht, hall.2 t ht⟩⟩

end Matches

section

variable {signature : Signature}

/-- What a call of a function is checked to be, if it is allowed. -/
def built (span : Span) (f : FunctionDecl) (signature : Signature) (arguments : List Expr) : Expr :=
  .call ⟨span, signature.returns⟩ f
    ((triples f signature arguments).map fun t => passed t.1.1 t.1.2 t.2)

variable (hparameters : ∀ p ∈ f.parameters, p.ty.isPoison = false)
  (harguments : Expr.anyPoison arguments = false)

include hparameters harguments

theorem receives_triples (hlength : f.parameters.length = arguments.length)
    (h : resolveSignature? f arguments = some signature) :
    ∀ t ∈ triples f signature arguments, Receives t.1.2 ∧ t.2.isPoison = false := by
  obtain ⟨place, hsignature⟩ := exists_isSignature hlength h
  intro t ht
  obtain ⟨hpair, hargument⟩ := List.of_mem_zip ht
  have htype : some t.1.2 ∈ f.parameters.map fun p => resolvedAt? place p.ty := by
    rw [hsignature.parameters]
    exact List.mem_map_of_mem (List.of_mem_zip hpair).2
  obtain ⟨p, hp, hresolved⟩ := List.mem_map.1 htype
  exact ⟨.of_resolvedAt? (hparameters p hp) hresolved,
    by simpa using List.any_eq_false.1 harguments t.2 hargument⟩

/-- A call that has a cost and is allowed is built, and nothing is reported. -/
theorem callFunction_eq (hcost : (callCost? f arguments).isSome = true)
    (hadmits : Admits f arguments) : ∃ signature, resolveSignature? f arguments = some signature ∧
      callFunction span f arguments = pure (built span f signature arguments) := by
  obtain ⟨hlength, signature, hsignature, hcosts⟩ := isSome_callCost?_iff.1 hcost
  have hmatches : Matches f signature arguments := .ofSignature hlength hsignature
  have hmain : ¬ (f.isMain && !f.builtin) = true := by
    simpa using hadmits.notMain
  refine ⟨signature, hsignature, ?_⟩
  have hpassed := passArguments_eq (receives_triples hparameters harguments hlength hsignature)
    (hmatches.arePassed_iff.2 ⟨hcosts, hadmits.writable⟩)
  unfold callFunction
  rw [if_neg (by simp [hlength]), if_neg hmain, hsignature]
  change (passArguments (triples f signature arguments) >>= _) = _
  rw [hpassed]
  rfl

/-- The arguments of a call that is built have the types of the signature. -/
theorem same_built (hcost : (callCost? f arguments).isSome = true)
    (hsignature : resolveSignature? f arguments = some signature) :
    List.Forall₂ (fun (e : Expr) ty => e.ty.same ty = true)
      ((triples f signature arguments).map fun t => passed t.1.1 t.1.2 t.2)
      signature.parameters := by
  obtain ⟨hlength, signature', hsignature', hcosts⟩ := isSome_callCost?_iff.1 hcost
  obtain rfl := Option.some.inj (hsignature.symm.trans hsignature')
  have hmatches : Matches f signature arguments := .ofSignature hlength hsignature
  rw [← hmatches.types_triples, List.forall₂_map_left_iff, List.forall₂_map_right_iff,
    List.forall₂_same]
  intro t ht
  obtain ⟨hty, hargument⟩ := receives_triples hparameters harguments hlength hsignature t ht
  exact same_passed hty hargument (hcosts t ht)

/-- Whatever call is built has a cost and is allowed. -/
theorem admits_of_callFunction {head : Expr.Head} {converted : List Expr}
    (h : (callFunction span f arguments).value = .call head g converted) :
    (callCost? f arguments).isSome = true ∧ Admits f arguments := by
  unfold callFunction at h
  split at h
  · cases h
  rename_i hlength
  split at h
  · cases h
  rename_i hmain
  split at h
  · cases h
  rename_i signature hsignature
  have hlength : f.parameters.length = arguments.length := by simpa using hlength
  have hmatches : Matches f signature arguments := .ofSignature hlength hsignature
  have hpassed : (passArguments (triples f signature arguments)).value.isSome = true := by
    rw [Checked.value_bind, ← triples] at h
    cases hvalue : (passArguments (triples f signature arguments)).value with
    | none =>
      rw [hvalue] at h
      cases h
    | some => rfl
  obtain ⟨hcosts, hwritable⟩ := hmatches.arePassed_iff.1
    (arePassed_of_passArguments (receives_triples hparameters harguments hlength hsignature) hpassed)
  exact ⟨isSome_callCost?_iff.2 ⟨hlength, signature, hsignature, hcosts⟩,
    by simpa using hmain, hwritable⟩

end

/-! ## Calls by name -/

section

variable (hparameters : ∀ f ∈ overloads, ∀ p ∈ f.parameters, p.ty.isPoison = false)
  (harguments : Expr.anyPoison arguments = false)

include harguments

/-- A call by name is one of the only overload or of the chosen one, or fails. -/
theorem call_cases (span : Span) (overloads : List FunctionDecl) :
    (∃ f, overloads = [f] ∧ call span overloads arguments = callFunction span f arguments) ∨
      (∃ f, IsChosen overloads arguments f ∧
        call span overloads arguments = callFunction span f arguments) ∨
      (∀ f ∈ overloads, callCost? f arguments = none) ∧
        (call span overloads arguments).value = .poison span := by
  unfold call
  rw [harguments, if_neg Bool.false_ne_true]
  split
  · rename_i f
    exact .inl ⟨f, rfl, rfl⟩
  · split
    · rename_i f hf
      exact .inr (.inl ⟨f, isChosen_of_leastCost? hf, rfl⟩)
    · rename_i hnone
      exact .inr (.inr ⟨fun f hf => callCost?_of_leastCost? hnone hf, rfl⟩)

theorem IsChosen.call_eq (h : IsChosen overloads arguments f) :
    call span overloads arguments = callFunction span f arguments := by
  obtain ⟨g, rfl, hcall⟩ | ⟨g, hg, hcall⟩ | ⟨hnone, -⟩ := call_cases harguments span overloads
  · rw [hcall, List.mem_singleton.1 h.mem]
  · rw [hcall, h.unique hg]
  · have hcost := h.isSome_callCost?
    rw [hnone f h.mem] at hcost
    cases hcost

include hparameters

/-- The function of a call that is built is the chosen one. -/
theorem isChosen_of_call {head : Expr.Head} {converted : List Expr}
    (h : (call span overloads arguments).value = .call head f converted) :
    IsChosen overloads arguments f ∧ Admits f arguments := by
  have hfunction {g : FunctionDecl} (hg : g ∈ overloads)
      (hcall : call span overloads arguments = callFunction span g arguments) :
      (callCost? g arguments).isSome = true ∧ Admits g arguments ∧ g = f := by
    rw [hcall] at h
    obtain ⟨hcost, hadmits⟩ := admits_of_callFunction (hparameters g hg) harguments h
    obtain ⟨signature, -, hbuilt⟩ : ∃ signature, resolveSignature? g arguments = some signature ∧
        callFunction span g arguments = pure (built span g signature arguments) :=
      callFunction_eq (hparameters g hg) harguments hcost hadmits
    rw [hbuilt] at h
    injection h with _ hg
    exact ⟨hcost, hadmits, hg⟩
  obtain ⟨g, rfl, hcall⟩ | ⟨g, hg, hcall⟩ | ⟨-, hpoison⟩ := call_cases harguments span overloads
  · obtain ⟨hcost, hadmits, rfl⟩ := hfunction (List.mem_singleton_self g) hcall
    obtain ⟨cost, hcost⟩ := Option.isSome_iff_exists.1 hcost
    exact ⟨⟨[], [], cost, rfl, hcost, nofun, nofun⟩, hadmits⟩
  · obtain ⟨-, hadmits, rfl⟩ := hfunction hg.mem hcall
    exact ⟨hg, hadmits⟩
  · cases hpoison.symm.trans h

end

end Typing

/-! ## The order of overloads -/

/-- A name put in the innermost scope is found there, and the others where they were. -/
theorem Layer.lookup?_modifyCurrent (layer : Layer) (name name' : String) (symbol : Symbol) :
    (layer.modifyCurrent (·.put name symbol)).lookup? name' =
      if name' = name then some symbol else layer.lookup? name' := by
  obtain ⟨inner, global, builtin⟩ := layer
  cases inner with
  | nil =>
    simp only [modifyCurrent, lookup?, scopes, List.nil_append, List.findSome?_cons,
      Scope.lookup_put]
    split_ifs <;> rfl
  | cons scope outer =>
    simp only [modifyCurrent, lookup?, scopes, List.cons_append, List.findSome?_cons,
      Scope.lookup_put]
    split_ifs <;> rfl

namespace SymbolTable

variable {table table' : SymbolTable}

theorem lookup?_put (table : SymbolTable) (name name' : String) (symbol : Symbol) :
    (table.put name symbol).lookup? name' =
      if name' = name then some symbol else table.lookup? name' := by
  simp only [lookup?, put, layers, List.findSome?_cons, Layer.lookup?_modifyCurrent]
  split_ifs <;> rfl

/-- The overloads of a name in scope, the latest first. -/
def overloads (table : SymbolTable) (name : String) : List FunctionDecl :=
  match table.lookup? name with
  | some (.functions overloads) => overloads
  | _ => []

theorem overloads_put (table : SymbolTable) (name name' : String) (fs : List FunctionDecl) :
    (table.put name (.functions fs)).overloads name' =
      if name' = name then fs else table.overloads name' := by
  rw [overloads, lookup?_put]
  split_ifs <;> rfl

/-- A function that is declared comes before the overloads there are. -/
theorem overloads_insertFunction? {f : FunctionDecl} (h : table.insertFunction? f = some table')
    (name : String) : table'.overloads name =
      if name = f.name then f :: table.overloads f.name else table.overloads name := by
  have hnew (hnone : table.overloads f.name = [])
      (h : some (table.put f.name (.functions [f])) = some table') : table'.overloads name =
        if name = f.name then f :: table.overloads f.name else table.overloads name := by
    obtain rfl := Option.some.inj h
    rw [overloads_put, hnone]
  unfold insertFunction? at h
  cases hlookup : table.lookup? f.name with
  | none =>
    rw [hlookup] at h
    exact hnew (by rw [overloads, hlookup]) h
  | some symbol =>
    rw [hlookup] at h
    cases symbol with
    | functions fs =>
      obtain rfl := Option.some.inj h
      have hbefore : table.overloads f.name = fs := by rw [overloads, hlookup]
      rw [overloads_put, hbefore]
    | value | type | member =>
      dsimp only at h
      split at h
      · cases h
      · exact hnew (by rw [overloads, hlookup]) h

/-- Functions declared one after the other stand in the opposite order. -/
theorem overloads_foldlM {declared : List FunctionDecl}
    (h : declared.foldlM insertFunction? table = some table') (name : String) :
    table'.overloads name =
      (declared.filter (·.name == name)).reverse ++ table.overloads name := by
  induction declared generalizing table with
  | nil =>
    obtain rfl := Option.some.inj h
    rfl
  | cons f rest ih =>
    rw [List.foldlM_cons] at h
    obtain ⟨next, hnext, h⟩ := Option.bind_eq_some_iff.1 h
    rw [ih h, overloads_insertFunction? hnext]
    by_cases hname : name = f.name
    · subst hname
      simp
    · have hother : (f.name == name) = false := by simpa using Ne.symm hname
      simp [hname, hother]

end SymbolTable

/-- What the declaration of a function does to the overloads in scope: it leaves them, comes before
those of its name, or takes the place of its prototype among them. -/
theorem Session.Settled.overloads_declareFunction {s : Session} (h : s.Settled) (span : Span)
    (modifiers : Modifiers) (returns : Ty) (name : String) (parameters : List Variable)
    (isDefinition : Bool) :
    let s' := ((Typing.declareFunction span modifiers returns name parameters isDefinition).run s).2
    s'.overloads = s.overloads ∨ ∃ decl : FunctionDecl, decl.name = name ∧ decl.id = s.nextId ∧
      (∀ other ≠ name, s'.overloads other = s.overloads other) ∧
      (s'.overloads name = decl :: s.overloads name ∨
        ∃ e ∈ s.overloads name, e.matchesSignature decl = true ∧ isDefinition = true ∧
          s'.overloads name = (s.overloads name).map fun f =>
            if f.id == e.id then decl else f) := by
  intro s'
  obtain ⟨sink, hrun | ⟨decl, hid, rfl, -, hrun⟩⟩ :=
    run_declareFunction s span modifiers returns name parameters isDefinition
  · exact .inl (by rw [show s' = { s with sink } from congrArg Prod.snd hrun]; rfl)
  obtain ⟨t, hnone, sink', rfl⟩ | ⟨-, e, -, hsome⟩ | ⟨hdefinition, e, he, hbuiltin, -, hdefines⟩ |
    ⟨-, hadd⟩ := run_settle_cases { s with sink, nextId := s.nextId + 1 } span decl isDefinition
      ((s.overloads decl.name).filter (·.matchesSignature decl))
  · exact .inl (by rw [show s' = _ from congrArg Prod.snd (hrun.trans hnone)]; rfl)
  · exact .inl (by rw [show s' = _ from congrArg Prod.snd (hrun.trans hsome)]; rfl)
  · obtain ⟨he, hmatches⟩ := List.mem_filter.1 he
    have hoverloads (other : String) := h.overloads_replaceFunction he hbuiltin other
    rw [show s' = _ from congrArg Prod.snd (hrun.trans hdefines)]
    exact .inr ⟨decl, rfl, hid, fun other hother => (hoverloads other).trans (if_neg hother),
      .inr ⟨e, he, hmatches, hdefinition, (hoverloads decl.name).trans (if_pos rfl)⟩⟩
  · obtain ⟨t, hnone, sink', rfl⟩ | hput :=
      run_addOverload_cases { s with sink, nextId := s.nextId + 1 } span decl
    · exact .inl (by rw [show s' = _ from congrArg Prod.snd ((hrun.trans hadd).trans hnone)]; rfl)
    · have hoverloads (other : String) :=
        SymbolTable.overloads_put s.symbols decl.name other (decl :: s.overloads decl.name)
      rw [show s' = _ from congrArg Prod.snd ((hrun.trans hadd).trans hput)]
      exact .inr ⟨decl, rfl, hid, fun other hother => (hoverloads other).trans (if_neg hother),
        .inl ((hoverloads decl.name).trans (if_pos rfl))⟩

/-! ## Coherence -/

namespace Typing

variable {overloads : List FunctionDecl} {arguments : List Expr} {f : FunctionDecl} {span : Span}

/-- What can be relied on in a call by name. -/
structure Coherent (span : Span) (overloads : List FunctionDecl) (arguments : List Expr) :
    Prop where
  /-- A call comes out, and nothing is reported, exactly when some overload has a cost and the
  chosen one may be called. -/
  calls_iff : ((∃ head f converted,
      (call span overloads arguments).value = .call head f converted) ∧
        (call span overloads arguments).reports = []) ↔
      (∃ f ∈ overloads, (callCost? f arguments).isSome = true) ∧
        ∀ f, IsChosen overloads arguments f → Admits f arguments
  /-- Its function is the chosen one. -/
  chosen : ∀ {head f converted},
    (call span overloads arguments).value = .call head f converted →
      IsChosen overloads arguments f
  /-- Its type and those of its arguments are the resolved ones. -/
  typed : ∀ {head f converted},
    (call span overloads arguments).value = .call head f converted →
      ∃ place signature, resolveSignature? f arguments = some signature ∧
        IsSignature f arguments place signature ∧ head = ⟨span, signature.returns⟩ ∧
        List.Forall₂ (fun (e : Expr) ty => e.ty.same ty = true) converted signature.parameters

section

variable (hparameters : ∀ f ∈ overloads, ∀ p ∈ f.parameters, p.ty.isPoison = false)
  (harguments : Expr.anyPoison arguments = false)

include hparameters harguments

/-- The call of the chosen overload, if it may be called. -/
theorem IsChosen.call_eq_built (h : IsChosen overloads arguments f)
    (hadmits : Admits f arguments) : ∃ signature, resolveSignature? f arguments = some signature ∧
      call span overloads arguments = pure (built span f signature arguments) := by
  rw [h.call_eq harguments]
  exact callFunction_eq (hparameters f h.mem) harguments h.isSome_callCost? hadmits

theorem calls_iff : ((∃ head f converted,
    (call span overloads arguments).value = .call head f converted) ∧
      (call span overloads arguments).reports = []) ↔
    (∃ f ∈ overloads, (callCost? f arguments).isSome = true) ∧
      ∀ f, IsChosen overloads arguments f → Admits f arguments := by
  constructor
  · rintro ⟨⟨head, f, converted, hcall⟩, -⟩
    obtain ⟨hchosen, hadmits⟩ := isChosen_of_call hparameters harguments hcall
    exact ⟨⟨f, hchosen.mem, hchosen.isSome_callCost?⟩, fun g hg => hg.unique hchosen ▸ hadmits⟩
  · rintro ⟨⟨f, hf, hcost⟩, hadmits⟩
    obtain ⟨g, hg⟩ := exists_isChosen hf hcost
    obtain ⟨signature, -, hcall⟩ : ∃ signature, resolveSignature? g arguments = some signature ∧
        call span overloads arguments = pure (built span g signature arguments) :=
      hg.call_eq_built hparameters harguments (hadmits g hg)
    rw [hcall]
    exact ⟨⟨_, _, _, rfl⟩, rfl⟩

/-- Overload resolution is coherent, and functions stand in the opposite order of their
declarations among the overloads it goes by. -/
theorem call_coherent (span : Span) : Coherent span overloads arguments ∧
    ∀ {table table' : SymbolTable} {declared : List FunctionDecl} (name : String),
      declared.foldlM SymbolTable.insertFunction? table = some table' →
      table'.overloads name =
        (declared.filter (·.name == name)).reverse ++ table.overloads name := by
  refine ⟨⟨calls_iff hparameters harguments, fun hcall =>
    (isChosen_of_call hparameters harguments hcall).1, fun {head f converted} hcall => ?_⟩,
    fun name h => SymbolTable.overloads_foldlM h name⟩
  obtain ⟨hchosen, hadmits⟩ := isChosen_of_call hparameters harguments hcall
  obtain ⟨signature, hsignature, hbuilt⟩ : ∃ signature,
      resolveSignature? f arguments = some signature ∧
        call span overloads arguments = pure (built span f signature arguments) :=
    hchosen.call_eq_built hparameters harguments hadmits
  have hcost := hchosen.isSome_callCost?
  obtain ⟨place, hplace⟩ := exists_isSignature (isSome_callCost?_iff.1 hcost).1 hsignature
  rw [hbuilt] at hcall
  obtain ⟨rfl, -, rfl⟩ := Expr.call.inj hcall
  exact ⟨place, signature, hsignature, hplace, rfl,
    same_built (hparameters f hchosen.mem) harguments hcost hsignature⟩

end

/-- A parameter, or a variable that is passed. -/
def ofType (ty : Ty) : Variable := { (default : Variable) with ty }

/-- An overload with given parameter types and return type. -/
def overload (parameters : List Ty) (returns : Ty) : FunctionDecl :=
  { (default : FunctionDecl) with parameters := parameters.map ofType, returnType := returns }

/-- A function of two float vectors of any width, declared after one of two half vectors. -/
def blends : List FunctionDecl :=
  [overload [.generic .genType, .generic .genType] (.generic .genType),
    overload [.vector .half 2, .vector .half 2] (.vector .half 2)]

/-- A float vector and a half vector, one of which has to be converted. -/
def blended : List Expr :=
  [.ofVariable default (ofType .float2) none, .ofVariable default (ofType (.vector .half 2)) none]

theorem call_coherent_blends :
    (∀ f ∈ blends, ∀ p ∈ f.parameters, p.ty.isPoison = false) ∧
      Expr.anyPoison blended = false ∧ Coherent default blends blended :=
  have hparameters : ∀ f ∈ blends, ∀ p ∈ f.parameters, p.ty.isPoison = false := by decide
  have harguments : Expr.anyPoison blended = false := rfl
  ⟨hparameters, harguments, (call_coherent hparameters harguments default).1⟩

/-- Both overloads cost the same, and the one declared later is called. -/
example : blends.map (callCost? · blended) = [some 1, some 1] ∧
    (call default blends blended).value.ty = .float2 :=
  ⟨by decide, rfl⟩

end Typing

end RasterShader
