import Mathlib
import RasterShader.Proofs.Typing.Formed

/-!
# Formed names, elements, fields and swizzles

A name that stands for something proper gives a formed expression, and elements and fields of formed
expressions are formed.  A mask on a scalar, vector or matrix can always be carried out once its
letters are read (`Typing.swizzle_formed`): up to four components can be selected, and constants be
put between them.
-/

namespace RasterShader

/-- What a name in scope stands for has a proper type and, as a member, is among the fields of its
block. -/
def Symbol.Proper : Symbol → Prop
  | .value v _ => v.ty.isProper = true
  | .member owner i => owner.ty.isProper = true ∧ i < owner.ty.fields.length
  | .type _ | .functions _ => True

namespace Typing

variable {dialect : Dialect} {span : Span}

/-! ## Names, elements and fields -/

/-- The fields of a type that expressions may have can be stored. -/
theorem isStored_of_field {ty : Ty} {i : Nat} {f : Field} (h : ty.isProper = true)
    (hf : ty.fields[i]? = some f) : f.ty.isStored = true := by
  cases ty with
  | struct name fields isBlock =>
    have hall : Ty.allStored fields = true := by
      simpa [Ty.isProper, Ty.isStored, Ty.isVoid, Ty.isEffect] using h
    exact Ty.allStored_iff.1 hall f (List.mem_of_getElem? hf)
  | _ => cases hf

theorem identifier_formed {name : String} {symbol : Option Symbol} (h : ∀ s ∈ symbol, s.Proper) :
    (identifier span name symbol).Ensures Expr.Formed := by
  unfold identifier
  split
  · rename_i v init
    exact .pure (Expr.formed_reference.2 (h _ rfl))
  · rename_i owner i
    obtain ⟨howner, hi⟩ : owner.ty.isProper = true ∧ i < owner.ty.fields.length := h _ rfl
    rw [List.getElem?_eq_getElem hi]
    have hfield := isStored_of_field howner (List.getElem?_eq_getElem hi)
    exact .pure (Expr.formed_field.2
      ⟨Ty.isProper_of_isStored hfield, Expr.formed_reference.2 howner⟩)
  · exact .refuse
  · exact .refuse
  · exact .refuse

/-- A matrix has columns. -/
theorem elementType?_isSome {ty : Ty} (h : ty.isProper = true) (hmatrix : ty.isMatrix = true) :
    ∃ t, elementType? ty = some t := by
  cases ty with
  | matrix s columns rows =>
    have hdims := Ty.isStored_of_isShaped h rfl
    simp only [Ty.isStored, Bool.and_eq_true, decide_eq_true_eq] at hdims
    exact Ty.toCompound?_isSome rfl (by omega) hdims.2
  | _ => cases hmatrix

theorem elementType?_isProper {ty t : Ty} (h : ty.isProper = true) (ht : elementType? ty = some t) :
    t.isProper = true := by
  apply Ty.isProper_of_isStored
  cases ty with
  | array element count =>
    obtain rfl := Option.some.inj ht
    simpa [Ty.isProper, Ty.isStored, Ty.isVoid, Ty.isEffect] using h
  | vector s columns =>
    obtain rfl := Option.some.inj ht
    rfl
  | matrix s columns rows =>
    exact (Ty.isStored_of_toCompound? (show (Ty.scalar s).isShaped = true from rfl) ht).1
  | _ => cases ht

theorem element_formed {base i : Expr} {place : Span} (hbase : base.Formed) (hi : i.Formed) :
    (element base i place).Ensures Expr.Formed := by
  unfold element
  dsimp only
  rw [if_neg (by simp [hbase.isPoison, hi.isPoison])]
  split
  · rename_i hnone
    split
    · rename_i hmatrix
      obtain ⟨t, ht⟩ := elementType?_isSome hbase.isProper hmatrix
      simp [ht] at hnone
    · exact .refuse
  · rename_i t ht
    have hindex (i : Expr) (hi : i.Formed) :
        (Expr.index ⟨base.span.join place, t⟩ base i).Formed :=
      Expr.formed_index.2 ⟨elementType?_isProper hbase.isProper ht, hbase, hi⟩
    split
    case' isTrue => refine .bind (.pure hi) fun i hi => ?_
    case' isFalse => refine .bind (hi.coerce rfl) fun i hi => ?_
    all_goals
      rw [if_neg (by simp [hi.isPoison])]
      split
      · split
        · exact .refuse
        · exact .pure (hindex i hi)
      · exact .pure (hindex i hi)

/-! ## Swizzles -/

/-- Up to four components of a scalar, vector or matrix can be selected. -/
theorem select?_formed (span : Span) {components : List Nat} {base : Expr} (hbase : base.Formed)
    (hshaped : base.ty.isShaped = true) (hpos : 0 < components.length)
    (hcount : components.length ≤ 4) :
    ∃ e, select? span components base = some e ∧ e.Formed ∧ e.ty.isShaped = true := by
  have hsome {base : Expr} {components : List Nat} (hshaped : base.ty.isShaped = true)
      (hpos : 0 < components.length) (hcount : components.length ≤ 4) :
      ∃ t, base.ty.component.toCompound? components.length 1 = some t ∧ t.isStored = true ∧
        t.isShaped = true := by
    obtain ⟨s, hs⟩ := Ty.isShaped_component hshaped
    have hcomponent : base.ty.component.isShaped = true := by rw [hs]; rfl
    obtain ⟨t, ht⟩ := Ty.toCompound?_isSome hcomponent hpos hcount
    exact ⟨t, ht, Ty.isStored_of_toCompound? hcomponent ht⟩
  fun_induction select? span components base with
  | case1 components head inner innerComponents ih =>
    obtain ⟨t, ht, -⟩ := hsome hshaped hpos hcount
    simp only [ht, Option.bind_eq_bind, Option.bind_some]
    split
    · exact ⟨_, rfl, hbase, hshaped⟩
    · obtain ⟨⟨-, hinner⟩, hformed⟩ := Expr.formed_swizzle.1 hbase
      exact ih hformed hinner (by simpa using hpos) (by simpa using hcount)
  | case2 components base =>
    obtain ⟨t, ht, hstored, htshaped⟩ := hsome hshaped hpos hcount
    simp only [ht, Option.bind_eq_bind, Option.bind_some]
    split
    · exact ⟨_, rfl, hbase, hshaped⟩
    · exact ⟨_, rfl, Expr.formed_swizzle.2 ⟨⟨Ty.isProper_of_isStored hstored, hshaped⟩, hbase⟩,
        htshaped⟩

theorem length_maskOrder (i j : Nat) (entries : List MaskEntry) :
    (maskOrder i j entries).length = entries.length := by
  fun_induction maskOrder i j entries with
  | case1 => rfl
  | case2 i j n rest ih => simp [ih]
  | case3 i j entry rest hentry ih => simp [ih]

theorem length_readMask {columns : Nat} {letters : List Char} {entries : List MaskEntry}
    (h : readMask columns letters = .ok entries) : entries.length = letters.length := by
  induction letters generalizing entries with
  | nil =>
    cases h
    rfl
  | cons c rest ih =>
    have hmap {entry : MaskEntry} (h : (readMask columns rest).map (entry :: ·) = .ok entries) :
        entries.length = (c :: rest).length := by
      cases hrest : readMask columns rest with
      | error c' => simp [hrest, Except.map] at h
      | ok others =>
        rw [hrest] at h
        obtain rfl := Except.ok.inj h
        simp [ih hrest]
    unfold readMask at h
    split at h
    · split at h
      · exact hmap h
      · cases h
    · exact hmap h
    · cases h

theorem maskConstants_formed (span : Span) (scalar : Scalar) (entries : List MaskEntry) :
    ∀ e ∈ maskConstants span (.scalar scalar) entries, e.Formed ∧ e.ty.isShaped = true := by
  intro e he
  obtain ⟨entry, -, hentry⟩ := List.mem_filterMap.1 he
  cases entry with
  | component => cases hentry
  | zero | one =>
    obtain rfl := Option.some.inj hentry
    exact ⟨Expr.formed_literal.2 rfl, rfl⟩

/-- The parts of a mask, put together and brought in order, are formed. -/
theorem arranged_formed (span : Span) (parts : List Expr) {order : List Nat} {ty : Ty}
    (hproper : ty.isProper = true) (hshaped : ty.isShaped = true) (hpos : 0 < order.length)
    (hcount : order.length ≤ 4) :
    let compound : Expr :=
      match parts with
      | [part] => part
      | parts => .assemble ⟨span, ty⟩ .compound parts
    let result := (select? span order compound).getD (.poison span)
    (∀ e ∈ parts, e.Formed ∧ e.ty.isShaped = true) →
      result.Formed ∧ result.ty.isShaped = true := by
  intro compound result hparts
  have hassembled : (Expr.assemble ⟨span, ty⟩ .compound parts).Formed :=
    Expr.formed_assemble.2 ⟨hproper, fun e he => (hparts e he).1⟩
  have hcompound : compound.Formed ∧ compound.ty.isShaped = true := by
    rcases parts with _ | ⟨first, _ | ⟨second, rest⟩⟩
    · exact ⟨hassembled, hshaped⟩
    · exact hparts first (List.mem_singleton_self _)
    · exact ⟨hassembled, hshaped⟩
  obtain ⟨e, he, hselected⟩ := select?_formed span hcompound.1 hcompound.2 hpos hcount
  dsimp only [result]
  rwa [he]

/-- A formed expression stays formed when the constant it stands for takes its place. -/
theorem folded_formed (span : Span) (fold : Bool) {e : Expr} (h : e.Formed)
    (hshaped : e.ty.isShaped = true) :
    Expr.Formed
      (match if fold then e.constantValue? else none with
      | some values => .ofConstant span values e.ty
      | none => e) := by
  split
  · exact Expr.formed_ofConstant _ _ _ (Ty.isStored_of_isShaped h.isProper hshaped)
  · exact h

theorem selectWithConstants?_formed (dialect : Dialect) (span : Span) {base : Expr}
    {entries : List MaskEntry} (hbase : base.Formed) (hshaped : base.ty.isShaped = true)
    (hpos : 0 < entries.length) (hcount : entries.length ≤ 4) :
    ∃ e, selectWithConstants? dialect span base entries = some e ∧ e.Formed := by
  obtain ⟨s, hs⟩ := Ty.isShaped_component hshaped
  have hscalar : (Ty.scalar s).isShaped = true := rfl
  obtain ⟨t, ht⟩ := Ty.toCompound?_isSome hscalar hpos hcount
  obtain ⟨hstored, htshaped⟩ := Ty.isStored_of_toCompound? hscalar ht
  have horder := length_maskOrder 0 (entries.filterMap MaskEntry.component?).length entries
  have hresult (taken : List Expr) (htaken : ∀ e ∈ taken, e.Formed ∧ e.ty.isShaped = true) :=
    arranged_formed span (taken ++ maskConstants span (.scalar s) entries)
      (Ty.isProper_of_isStored hstored) htshaped (horder ▸ hpos) (horder ▸ hcount)
      (List.forall_mem_append.2 ⟨htaken, maskConstants_formed span s entries⟩)
  have hfinish (c : Bool) (folded : Expr) (hfolded : folded.Formed) :
      ∃ e, (if c then some (.binary ⟨span, folded.ty⟩ base .comma folded) else some folded) =
        some e ∧ e.Formed := by
    split
    · exact ⟨_, rfl, Expr.formed_binary.2 ⟨hfolded.isProper, hbase, hfolded⟩⟩
    · exact ⟨_, rfl, hfolded⟩
  unfold selectWithConstants?
  simp only [hs, ht, Option.bind_eq_bind, Option.bind_some]
  split
  · obtain ⟨h₁, h₂⟩ := hresult [] (List.forall_mem_nil _)
    exact hfinish _ _ (folded_formed span dialect.settings.optimize h₁ h₂)
  · rename_i hempty
    obtain ⟨e, he, hformed⟩ := select?_formed span hbase hshaped
        (List.length_pos_iff.2 (by simpa using hempty))
        ((List.length_filterMap_le _ entries).trans hcount)
    rw [he]
    obtain ⟨h₁, h₂⟩ := hresult [e] (List.forall_mem_singleton.2 hformed)
    exact hfinish _ _ (folded_formed span dialect.settings.optimize h₁ h₂)

/-- A mask on a scalar, vector or matrix that is not reported gives a formed expression. -/
theorem swizzle_formed {base : Expr} {mask : String} (hbase : base.Formed)
    (hshaped : base.ty.isShaped = true) :
    (swizzle dialect base mask span).Ensures Expr.Formed := by
  unfold swizzle
  split
  · exact .refuse
  · rename_i hlength
    split
    · exact .refuse
    · rename_i entries hentries
      have hcount : entries.length ≤ 4 := by
        rw [length_readMask hentries, String.length_toList]
        omega
      dsimp only
      split_ifs with hempty hnamed
      · exact .refuse
      · have hpos : 0 < entries.length := List.length_pos_iff.2 (by simpa using hempty)
        obtain ⟨e, he, hformed, -⟩ := select?_formed span hbase hshaped
          (hnamed ▸ hpos) (hnamed ▸ hcount)
        rw [he]
        exact .pure hformed
      · obtain ⟨e, he, hformed⟩ := selectWithConstants?_formed dialect span hbase hshaped
          (List.length_pos_iff.2 (by simpa using hempty)) hcount
        rw [he]
        exact .pure hformed

theorem member_formed {base : Expr} {name : String} {place : Span} (hbase : base.Formed) :
    (member dialect base name place).Ensures Expr.Formed := by
  unfold member
  dsimp only
  rw [if_neg (by simp [hbase.isPoison])]
  split
  · split
    · rename_i i hi
      split
      · rename_i f hf
        have hfield := isStored_of_field hbase.isProper hf
        exact .pure (Expr.formed_field.2 ⟨Ty.isProper_of_isStored hfield, hbase⟩)
      · exact .refuse
    · exact .refuse
  · split
    · rename_i hshaped
      refine swizzle_formed hbase ?_
      cases hty : base.ty <;> simp_all [Ty.isScalar, Ty.isVector, Ty.isShaped]
    · exact .refuse

end Typing

end RasterShader
