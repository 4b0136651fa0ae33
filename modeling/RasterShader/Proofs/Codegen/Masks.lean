import Mathlib
import RasterShader.Proofs.Codegen.Selections

/-!
# Masks

A swizzle mask names components of a scalar or vector and the constants zero and one, in any order.
Type checking makes a selection of the components that are named, puts the constants behind them,
and brings the whole into the order of the mask; swizzles of swizzles become one, and what selects
everything is left out.  The code of the outcome evaluates the base once and leaves the word of each
letter, in the order of the mask (`Typing.swizzle_selects`).

Where a base is read from an array by an index that is computed at run time, its components are
those of the element only while the index is in range: past the end, the element is limited as a
whole, and one of its components by itself (`Lvalue.component_past_the_end`).
-/

namespace RasterShader

/-! ## The order of a mask -/

/-- The word that is one in slots of a kind. -/
def NumberKind.one : NumberKind → UInt32
  | .signed | .unsigned => 1
  | .boolean => 0xFFFFFFFF
  | .float | .nonnumeric => 0x3F800000

namespace Typing

namespace MaskEntry

/-- The word that a letter of a mask stands for, given those of the base. -/
def word {lanes : Nat} (kind : NumberKind) (ws : List (Vector UInt32 lanes)) :
    MaskEntry → Vector UInt32 lanes
  | component i => ws.getD i (Vector.replicate lanes 0)
  | zero => Vector.replicate lanes 0
  | one => Vector.replicate lanes kind.one

/-- The value of a constant of a mask. -/
def value (kind : NumberKind) : MaskEntry → Float
  | component _ | zero => Constant.cast 0.0 kind
  | one => Constant.cast 1.0 kind

/-- The letter stands for zero or one. -/
def isConstant (entry : MaskEntry) : Bool := entry.component?.isNone

/-- Words and values of the constants agree. -/
theorem word_of_isConstant {lanes : Nat} {entry : MaskEntry} (h : entry.isConstant = true)
    (kind : NumberKind) (ws : List (Vector UInt32 lanes)) :
    entry.word kind ws = Vector.replicate lanes (literalBits (entry.value kind) kind) := by
  have hzero : literalBits (Constant.cast 0.0 kind) kind = 0 := by cases kind <;> decide +kernel
  have hone : literalBits (Constant.cast 1.0 kind) kind = kind.one := by
    cases kind <;> decide +kernel
  cases entry with
  | component => cases h
  | zero => rw [word, value, hzero]
  | one => rw [word, value, hone]

end MaskEntry

variable {entries : List MaskEntry}

/-- The constants of a mask are literals. -/
theorem maskConstants_eq (span : Span) (scalar : Ty) (entries : List MaskEntry) :
    maskConstants span scalar entries =
      ((entries.filter MaskEntry.isConstant).map (MaskEntry.value scalar.numberKind)).map
        (.literal ⟨span, scalar⟩ ·) := by
  induction entries with
  | nil => rfl
  | cons entry rest ih =>
    rw [maskConstants] at ih ⊢
    cases entry with
    | component => exact ih
    | zero | one => exact congrArg (List.cons _) ih

/-- Every letter names a component or is a constant. -/
theorem length_named_add (entries : List MaskEntry) :
    (entries.filterMap MaskEntry.component?).length +
      (entries.filter MaskEntry.isConstant).length = entries.length := by
  induction entries with
  | nil => rfl
  | cons entry rest ih =>
    rw [List.length_cons, ← ih]
    cases entry with
    | component => exact Nat.add_right_comm ..
    | zero | one => exact (Nat.add_assoc ..).symm

/-- What is taken for the components that are named, followed by what is taken for the constants, is
brought into the order of the mask. -/
theorem map_maskOrder {α : Type} (pick : MaskEntry → α) (d : α) {xs ys : List α} {i j : Nat}
    (hxs : xs.drop i = (entries.filterMap MaskEntry.component?).map (pick <| .component ·))
    (hys : ys.drop j = (entries.filter MaskEntry.isConstant).map pick) :
    (maskOrder i (xs.length + j) entries).map ((xs ++ ys).getD · d) = entries.map pick := by
  have hfirst {l : List α} {k : Nat} {x : α} {rest : List α} (h : l.drop k = x :: rest) :
      ∃ hk : k < l.length, l[k] = x ∧ l.drop (k + 1) = rest := by
    have hk : k < l.length := by
      by_contra hle
      rw [List.drop_eq_nil_of_le (Nat.le_of_not_lt hle)] at h
      cases h
    rw [List.drop_eq_getElem_cons hk, List.cons.injEq] at h
    exact ⟨hk, h⟩
  induction entries generalizing i j with
  | nil => rfl
  | cons entry rest ih =>
    cases entry with
    | component c =>
      obtain ⟨hi, hx, hrest⟩ := hfirst hxs
      rw [maskOrder, List.map_cons, List.map_cons, ih hrest hys,
        List.getD_eq_getElem _ _ (by simp; omega), List.getElem_append_left hi, hx]
    | zero | one =>
      obtain ⟨hj, hy, hrest⟩ := hfirst hys
      have hat : (xs ++ ys).getD (xs.length + j) d = ys[j] := by
        rw [List.getD_eq_getElem _ _ (by simp; omega), List.getElem_append_right (by omega)]
        simp
      show (xs ++ ys).getD (xs.length + j) d :: (maskOrder i (xs.length + (j + 1)) rest).map _ = _
      rw [ih hxs hrest, hat, hy]
      rfl

end Typing

/-! ## The code of masks -/

namespace Expr

variable {ctx : CodeContext}

/-- The code of literals pushes their words. -/
theorem push_literals (ctx : CodeContext) (h : Expr.Head) (values : List Float) :
    (operandsOf ctx (values.map (literal h ·))).forM (·.push) =
      Operand.pushWords (values.map (literalBits · h.ty.numberKind)) := by
  induction values with
  | nil => rfl
  | cons v rest ih =>
    show (do ((literal h v).operand ctx).push
             (operandsOf ctx (rest.map (literal h ·))).forM (·.push)) = _
    rw [ih]
    rfl

theorem push_assemble {h : Expr.Head} {assembly : Assembly} {parts : List Expr}
    (hfold : ctx.optimize = true → constantValues? parts = none) :
    ((assemble h assembly parts).operand ctx).push = (operandsOf ctx parts).forM (·.push) := by
  have hnone : (if ctx.optimize then (assemble h assembly parts).constantValue? else none) =
      none := by
    split_ifs with hoptimize
    · exact hfold hoptimize
    · rfl
  rw [operand, constructor, hnone]
  rfl

end Expr

namespace Typing

variable {ctx : CodeContext} {span : Span} {base : Expr} {entries : List MaskEntry}

/-- The order of a mask names only what is there. -/
theorem lt_of_mem_maskOrder {i j c : Nat} (h : c ∈ maskOrder i j entries) :
    c < i + (entries.filterMap MaskEntry.component?).length ∨
      c < j + (entries.filter MaskEntry.isConstant).length := by
  induction entries generalizing i j with
  | nil => cases h
  | cons entry rest ih =>
    cases entry with
    | component n =>
      show c < i + ((rest.filterMap MaskEntry.component?).length + 1) ∨
        c < j + (rest.filter MaskEntry.isConstant).length
      obtain rfl | h := List.mem_cons.1 h
      · exact .inl (by omega)
      · exact (ih h).imp_left fun hlt => by omega
    | zero | one =>
      show c < i + (rest.filterMap MaskEntry.component?).length ∨
        c < j + ((rest.filter MaskEntry.isConstant).length + 1)
      obtain rfl | h := List.mem_cons.1 h
      · exact .inr (by omega)
      · exact (ih h).imp_right fun hlt => by omega

/-- A mask without constants only chooses. -/
theorem choose_named {lanes : Nat} (kind : NumberKind)
    (h : (entries.filterMap MaskEntry.component?).length = entries.length)
    (ws : List (Vector UInt32 lanes)) :
    Words.choose (entries.filterMap MaskEntry.component?) ws =
      entries.map (MaskEntry.word kind ws) := by
  have hnone : ∀ entry ∈ entries, ¬entry.isConstant = true := by
    have hsum := length_named_add entries
    exact List.filter_eq_nil_iff.1 (List.length_eq_zero_iff.1 (by omega))
  clear h
  induction entries with
  | nil => rfl
  | cons entry rest ih =>
    have hrest := ih fun entry hentry => hnone entry (List.mem_cons_of_mem _ hentry)
    cases entry with
    | component i => exact congrArg (ws.getD i (Vector.replicate lanes 0) :: ·) hrest
    | zero | one => exact absurd rfl (hnone _ List.mem_cons_self)

/-- The words of the components that are named, followed by those of the constants, in the order of
the mask. -/
theorem choose_maskOrder {lanes : Nat} (kind : NumberKind) (ws : List (Vector UInt32 lanes)) :
    Words.choose (maskOrder 0 (entries.filterMap MaskEntry.component?).length entries)
        (Words.choose (entries.filterMap MaskEntry.component?) ws ++ Words.alike
          (((entries.filter MaskEntry.isConstant).map (MaskEntry.value kind)).map
            (literalBits · kind))) =
      entries.map (MaskEntry.word kind ws) := by
  have hconstants : Words.alike (((entries.filter MaskEntry.isConstant).map
      (MaskEntry.value kind)).map (literalBits · kind)) =
        (entries.filter MaskEntry.isConstant).map (MaskEntry.word kind ws) := by
    rw [Words.alike, List.map_map, List.map_map]
    exact List.map_congr_left fun entry hentry =>
      (MaskEntry.word_of_isConstant (List.mem_filter.1 hentry).2 kind ws).symm
  have horder := @map_maskOrder entries _ (MaskEntry.word kind ws) (Vector.replicate lanes 0)
    (Words.choose (entries.filterMap MaskEntry.component?) ws) _ 0 0 rfl hconstants
  rwa [Words.length_choose] at horder

/-- The code of the constants of a mask pushes their words. -/
theorem push_maskConstants (ctx : CodeContext) (span : Span) (scalar : Ty)
    (entries : List MaskEntry) :
    (Expr.operandsOf ctx (maskConstants span scalar entries)).forM (·.push) =
      Operand.pushWords (((entries.filter MaskEntry.isConstant).map
        (MaskEntry.value scalar.numberKind)).map (literalBits · scalar.numberKind)) := by
  rw [maskConstants_eq, Expr.push_literals]

/-- Parts that are put together are pushed one after the other.  A single one stands for itself. -/
structure IsCompound (span : Span) (ty : Ty) (parts : List Expr) (e : Expr) : Prop where
  shape : parts = [e] ∨
    ∃ x y rest, parts = x :: y :: rest ∧ e = .assemble ⟨span, ty⟩ .compound parts
  type : e.ty = ty
  isSelf : e.source = e ∧ e.chosen = List.range e.ty.columns
  selection : ty.isComponents = true → e.IsSelection
  computed : e.baseVariable? = none
  constant : e.constantValue? = Expr.constantValues? parts
  push : ∀ ctx : CodeContext, (ctx.optimize = true → Expr.constantValues? parts = none) →
    (e.operand ctx).push = (Expr.operandsOf ctx parts).forM (·.push)

theorem isCompound_assemble {ty : Ty} {parts : List Expr} (h : 1 < parts.length) :
    IsCompound span ty parts (.assemble ⟨span, ty⟩ .compound parts) where
  shape := by
    rcases parts with _ | ⟨x, _ | ⟨y, rest⟩⟩
    · exact absurd h (Nat.not_lt_zero 1)
    · exact absurd h (lt_irrefl 1)
    · exact .inr ⟨x, y, rest, rfl, rfl⟩
  type := rfl
  isSelf := ⟨rfl, rfl⟩
  selection := id
  computed := rfl
  constant := rfl
  push _ hfold := Expr.push_assemble hfold

theorem isCompound_literal {ty : Ty} (value : Float) :
    IsCompound span ty [.literal ⟨span, ty⟩ value] (.literal ⟨span, ty⟩ value) where
  shape := .inl rfl
  type := rfl
  isSelf := ⟨rfl, rfl⟩
  selection := id
  computed := rfl
  constant := rfl
  push _ _ := (bind_pure _).symm

/-- What a mask takes of a base is put together with its constants.  All of them by themselves can
be a single literal. -/
theorem exists_isCompound (span : Span) (hbase : base.ty.isComponents = true)
    {taken : List Expr} {ty : Ty}
    (htaken : taken = [] → entries.filterMap MaskEntry.component? = [])
    (hmixed : (entries.filterMap MaskEntry.component?).length ≠ entries.length)
    (hty : base.ty.component.toCompound? entries.length 1 = some ty) :
    ∃ compound, IsCompound span ty
      (taken ++ maskConstants span base.ty.component entries) compound := by
  have hsum := length_named_add entries
  rw [maskConstants_eq]
  rcases taken with _ | ⟨part, rest⟩
  · rw [htaken rfl, List.length_nil, Nat.zero_add] at hsum
    rw [htaken rfl, List.length_nil] at hmixed
    rw [List.nil_append]
    by_cases hone : entries.length = 1
    · obtain ⟨entry, hentry⟩ := List.length_eq_one_iff.1 (hsum.trans hone)
      have hself : base.ty.component = ty := by
        rw [hone, Ty.toCompound?, if_neg (by omega), if_pos rfl] at hty
        exact (Ty.component_component hbase).symm.trans (Option.some.inj hty)
      rw [hentry, hself]
      exact ⟨_, isCompound_literal _⟩
    · refine ⟨_, isCompound_assemble ?_⟩
      rw [List.length_map, List.length_map]
      omega
  · refine ⟨_, isCompound_assemble ?_⟩
    rw [List.length_append, List.length_map, List.length_map, List.length_cons]
    omega

/-- What comes of a mask before it is folded: the parts, each of which is pushed once, and then a
step that brings their words into the order of the mask. -/
structure Arranged (entries : List MaskEntry) (parts : List Expr) (e : Expr) : Prop where
  selection : e.IsSelection
  columns : e.ty.columns = entries.length
  unknown : Expr.constantValues? parts = none → e.constantValue? = none
  known : ∀ values, Expr.constantValues? parts = some values → values.length = entries.length →
    e.constantValue? = some
      ((maskOrder 0 (entries.filterMap MaskEntry.component?).length entries).map
        (values.getD · 0.0))
  push : ∀ ctx : CodeContext, (ctx.optimize = true → Expr.constantValues? parts = none) →
    ∃ act : GenM Unit,
      (e.operand ctx).push = (do (Expr.operandsOf ctx parts).forM (·.push); act) ∧
      act.Remakes entries.length (Words.choose
        (maskOrder 0 (entries.filterMap MaskEntry.component?).length entries))

/-- The components of what has been put together can be brought into the order of a mask. -/
theorem IsCompound.exists_arranged {ty : Ty} {parts : List Expr} {compound : Expr}
    (h : IsCompound span ty parts compound) (hty : ty.isComponents = true)
    (hcolumns : ty.columns = entries.length) (hpos : 0 < entries.length)
    (hfour : entries.length ≤ 4) :
    ∃ e, select? span (maskOrder 0 (entries.filterMap MaskEntry.component?).length entries)
        compound = some e ∧ Arranged entries parts e ∧ e.ty.component = ty.component := by
  obtain ⟨hself, hall⟩ := h.isSelf
  have hselection := h.selection hty
  have horder := length_maskOrder 0 (entries.filterMap MaskEntry.component?).length entries
  have inside : ∀ c ∈ maskOrder 0 (entries.filterMap MaskEntry.component?).length entries,
      c < compound.ty.columns := by
    intro c hc
    have hsum := length_named_add entries
    have hlt := lt_of_mem_maskOrder hc
    rw [h.type]
    omega
  obtain ⟨e, he⟩ := hselection.exists_select? (horder.symm ▸ hpos) (horder.symm ▸ hfour) span
  obtain ⟨hchosenFrom, hsource, hchosen, hcomponent⟩ := hselection.select? inside he
  rw [hself] at hsource
  have horderOf : e.chosen =
      maskOrder 0 (entries.filterMap MaskEntry.component?).length entries := by
    rw [hchosen, hall]
    refine (List.map_congr_left fun c hc => ?_).trans (List.map_id _)
    rw [List.getD_eq_getElem _ _ (by simpa using inside c hc), List.getElem_range, id]
  have hcomputed : e.baseVariable? = none := by
    rw [← Expr.baseVariable?_source, hsource, h.computed]
  refine ⟨e, he, ⟨hchosenFrom, ?_, fun hnone => ?_, fun values hvalues hcount => ?_,
    fun ctx hfold => ?_⟩, hcomponent.trans (congrArg Ty.component h.type)⟩
  · rw [← hchosenFrom.length_chosen, horderOf, horder]
  · exact Expr.constantValue?_source (by rw [hsource, h.constant, hnone])
  · rw [← horderOf]
    refine hchosenFrom.constantValue? (by rw [hsource, h.constant, hvalues]) ?_
    rw [hcount, hsource, h.type, hcolumns]
  · obtain ⟨act, hpush, hact⟩ := hchosenFrom.exists_push hcomputed ctx
    rw [hsource, h.push ctx hfold] at hpush
    rw [hsource, h.type, hcolumns, horderOf] at hact
    exact ⟨act, hpush, hact⟩

/-- Constants are computed beforehand. -/
def folded (dialect : Dialect) (span : Span) (e : Expr) : Expr :=
  ((if dialect.settings.optimize then e.constantValue? else none).map
    (.ofConstant span · e.ty)).getD e

/-- The components that a mask names are taken first, and its constants are put behind them. -/
theorem exists_selectWithConstants? (hbase : base.IsSelection) (taken : List Expr)
    (htaken : (if (entries.filterMap MaskEntry.component?).isEmpty then some []
      else (select? span (entries.filterMap MaskEntry.component?) base).map ([·])) = some taken)
    (hnone : taken = [] → entries.filterMap MaskEntry.component? = [])
    (hmixed : (entries.filterMap MaskEntry.component?).length ≠ entries.length)
    (hfour : entries.length ≤ 4) (dialect : Dialect) :
    ∃ e, Arranged entries (taken ++ maskConstants span base.ty.component entries) e ∧
      e.ty.component = base.ty.component ∧
      selectWithConstants? dialect span base entries = some
        (if (entries.filterMap MaskEntry.component?).isEmpty && base.hasSideEffects then
          .binary ⟨span, (folded dialect span e).ty⟩ base .comma (folded dialect span e)
        else folded dialect span e) := by
  have hpos : 0 < entries.length := by
    have hsum := length_named_add entries
    omega
  obtain ⟨ty, hty⟩ := Ty.toCompound?_isSome
    (Ty.isShaped_component_of_isComponents hbase.isComponents) hpos hfour
  obtain ⟨hcomponents, hcolumns, hcomponent⟩ :=
    Ty.isComponents_of_toCompound? hbase.isComponents hty
  obtain ⟨compound, hcompound⟩ := exists_isCompound span hbase.isComponents hnone hmixed hty
  obtain ⟨e, he, harranged, hecomponent⟩ :=
    hcompound.exists_arranged hcomponents hcolumns hpos hfour
  refine ⟨e, harranged, hecomponent.trans hcomponent, ?_⟩
  unfold selectWithConstants? folded
  dsimp only
  cases hempty : (entries.filterMap MaskEntry.component?).isEmpty
  all_goals
    simp only [hempty, Bool.false_eq_true, if_true, if_false] at htaken
    simp only [htaken, hty, Bool.false_eq_true, if_true, if_false, Option.bind_eq_bind,
      Option.bind_some, Bool.false_and, Bool.true_and, apply_ite some]
    generalize taken ++ maskConstants span base.ty.component entries = parts at hcompound
    obtain rfl | ⟨x, y, rest, rfl, rfl⟩ := hcompound.shape
    all_goals
      simp only [he, Option.getD_some]
      cases (if dialect.settings.optimize then e.constantValue? else none) <;> rfl

namespace Arranged

variable {parts : List Expr} {part e : Expr}

/-- What a mask takes of a base is computed once, and the constants are put between. -/
theorem madeFrom (h : Arranged entries (part :: maskConstants span base.ty.component entries) e)
    (hbase : base.IsSelection)
    (inside : ∀ c ∈ entries.filterMap MaskEntry.component?, c < base.ty.columns)
    (hpart : select? span (entries.filterMap MaskEntry.component?) base = some part)
    (hfold : ctx.optimize = true → base.source.constantValue? = none) :
    e.MadeFrom ctx base fun ws => entries.map (MaskEntry.word base.ty.numberKind ws) := by
  obtain ⟨hselection, hsource, hchosen, -⟩ := hbase.select? inside hpart
  have hkind : base.ty.component.numberKind = base.ty.numberKind :=
    Ty.numberKind_component (Ty.isShaped_of_isComponents hbase.isComponents)
  have hcolumns : part.ty.columns = (entries.filterMap MaskEntry.component?).length := by
    rw [← hselection.length_chosen, hchosen, List.length_map]
  obtain ⟨act, hpush, hact⟩ := h.push ctx fun hoptimize => by
    rw [Expr.constantValues?, Expr.constantValue?_source (hsource.symm ▸ hfold hoptimize)]
    rfl
  have hconstants := push_maskConstants ctx span base.ty.component entries
  rw [hkind] at hconstants
  have hparts : (Expr.operandsOf ctx
      (part :: maskConstants span base.ty.component entries)).forM (·.push) = (do
        (part.operand ctx).push
        (Expr.operandsOf ctx (maskConstants span base.ty.component entries)).forM (·.push)) := rfl
  rw [hparts, hconstants, bind_assoc] at hpush
  refine hselection.madeFrom hsource hpush
    ((GenM.Remakes.pushWords _ _).seq hact fun ws hws => ?_) fun ws hws => ?_
  · have hsum := length_named_add entries
    rw [List.length_append, Words.length_alike, List.length_map, List.length_map, hws]
    omega
  · have hpartWords : Words.choose part.chosen ws =
        Words.choose (entries.filterMap MaskEntry.component?) (Words.choose base.chosen ws) := by
      rw [hchosen, Words.choose_choose (hbase.length_chosen.symm ▸ inside)]
    rw [hpartWords]
    exact choose_maskOrder base.ty.numberKind _

/-- A mask without components is pushed as it is. -/
theorem remakes (h : Arranged entries (maskConstants span base.ty.component entries) e)
    (hbase : base.ty.isComponents = true)
    (hnamed : entries.filterMap MaskEntry.component? = []) (unoptimized : ctx.optimize = false) :
    (e.operand ctx).push.Remakes 0 fun _ => entries.map (MaskEntry.word base.ty.numberKind []) := by
  have hkind : base.ty.component.numberKind = base.ty.numberKind :=
    Ty.numberKind_component (Ty.isShaped_of_isComponents hbase)
  obtain ⟨act, hpush, hact⟩ := h.push ctx fun hoptimize => by
    rw [unoptimized] at hoptimize
    cases hoptimize
  rw [hpush, push_maskConstants, hkind]
  refine ((GenM.Remakes.pushWords _ 0).seq hact fun ws hws => ?_).congr fun {lanes} ws hws => ?_
  · have hsum := length_named_add entries
    rw [hnamed, List.length_nil] at hsum
    rw [List.length_append, Words.length_alike, List.length_map, List.length_map, hws, hsum]
  · have horder := @choose_maskOrder entries lanes base.ty.numberKind []
    obtain rfl := List.length_eq_zero_iff.1 hws
    rw [hnamed] at horder ⊢
    exact horder

/-- A mask on values that are known is known. -/
theorem exists_known (h : Arranged entries parts e) (kind : NumberKind) (taken : List Float)
    (make : ∀ {lanes : Nat}, List (Vector UInt32 lanes))
    (hparts : Expr.constantValues? parts =
      some (taken ++ (entries.filter MaskEntry.isConstant).map (MaskEntry.value kind)))
    (htaken : ∀ lanes : Nat, (Words.alike (taken.map (literalBits · kind)) :
      List (Vector UInt32 lanes)) =
        Words.choose (entries.filterMap MaskEntry.component?) make) :
    ∃ known, e.constantValue? = some known ∧ known.length = entries.length ∧
      ∀ lanes : Nat, (Words.alike (known.map (literalBits · kind)) : List (Vector UInt32 lanes)) =
        entries.map (MaskEntry.word kind make) := by
  have hcount : taken.length = (entries.filterMap MaskEntry.component?).length := by
    have hlengths := congrArg List.length (htaken 0)
    rwa [Words.length_alike, Words.length_choose, List.length_map] at hlengths
  have hlength : (taken ++
      (entries.filter MaskEntry.isConstant).map (MaskEntry.value kind)).length =
        entries.length := by
    rw [List.length_append, List.length_map, hcount, length_named_add]
  refine ⟨_, h.known _ hparts hlength, by rw [List.length_map, length_maskOrder],
    fun lanes => ?_⟩
  rw [← Words.choose_alike_map, List.map_append, Words.alike_append, htaken lanes,
    choose_maskOrder]
  intro c hc
  have hlt := lt_of_mem_maskOrder hc
  have hsum := length_named_add entries
  omega

end Arranged

/-! ## Constants that are computed beforehand -/

/-- A constant that takes the place of an expression has its type. -/
theorem folded_isSelection {e : Expr} (h : e.IsSelection) (dialect : Dialect) (span : Span) :
    (folded dialect span e).IsSelection ∧ (folded dialect span e).ty = e.ty := by
  have hof (values : List Float) : (Expr.ofConstant span values e.ty).IsSelection ∧
      (Expr.ofConstant span values e.ty).ty = e.ty := by
    have hty := h.isComponents
    cases hshape : e.ty with
    | scalar => exact ⟨rfl, rfl⟩
    | vector =>
      rw [Expr.ofConstant]
      rw [hshape] at hty
      split
      · exact ⟨hty, rfl⟩
      · exact ⟨hty, rfl⟩
    | _ =>
      rw [hshape] at hty
      cases hty
  rw [folded]
  cases (if dialect.settings.optimize then e.constantValue? else none) with
  | none => exact ⟨h, rfl⟩
  | some values => exact hof values

/-- A value that is known is pushed as constants. -/
theorem remakes_ofConstant {values : List Float} {ty : Ty} (optimized : ctx.optimize = true)
    (hty : ty.isComponents = true) (hlength : values.length = ty.columns) (span : Span) :
    ((Expr.ofConstant span values ty).operand ctx).push.Remakes 0
      fun _ => Words.alike (values.map (literalBits · ty.numberKind)) := by
  have hslots : values.length = ty.slotCount :=
    hlength.trans (Ty.slotCount_of_isComponents hty).symm
  have hbits := constantBits_of_isShaped (Ty.isShaped_of_isComponents hty) hslots
  have hpush (e : Expr) (push : GenM Unit) (hoperand : e.operand ctx = constructor ctx e push)
      (hvalues : e.constantValue? = some values ∧ e.ty = ty) :
      (e.operand ctx).push.Remakes 0
        fun _ => Words.alike (values.map (literalBits · ty.numberKind)) := by
    rw [hoperand, constructor, if_pos optimized, hvalues.1, ← hbits, ← hvalues.2]
    refine (GenM.Remakes.pushWords _ 0).congr fun ws hws => ?_
    rw [List.length_eq_zero_iff.1 hws, List.nil_append]
  cases ty with
  | scalar s =>
    obtain ⟨v, rfl⟩ := List.length_eq_one_iff.1 hlength
    refine (GenM.Remakes.pushConstant _ 0).congr fun ws hws => ?_
    rw [List.length_eq_zero_iff.1 hws]
    rfl
  | vector s columns =>
    have hconstant := Expr.constantValue?_ofConstant span (.inr rfl) hslots
    rw [Expr.ofConstant] at hconstant ⊢
    split at hconstant
    · rename_i hsame
      rw [if_pos hsame]
      exact hpush _ _ (by rw [Expr.operand]) hconstant
    · rename_i hdiffer
      rw [if_neg hdiffer]
      exact hpush _ _ (by rw [Expr.operand]) hconstant
  | _ => cases hty

/-- The code of a folded expression pushes the words of its value. -/
theorem remakes_folded {e : Expr} {known : List Float}
    {make : ∀ {lanes : Nat}, List (Vector UInt32 lanes)} (optimized : ctx.optimize = true)
    (h : e.IsSelection) (hknown : e.constantValue? = some known)
    (hlength : known.length = e.ty.columns)
    (hwords : ∀ lanes : Nat, (Words.alike (known.map (literalBits · e.ty.numberKind)) :
      List (Vector UInt32 lanes)) = make) :
    ((folded ctx.program.dialect span e).operand ctx).push.Remakes 0 fun _ => make := by
  have hfolded : folded ctx.program.dialect span e = .ofConstant span known e.ty := by
    have hoptimize : ctx.program.dialect.settings.optimize = true := optimized
    rw [folded, if_pos hoptimize, hknown]
    rfl
  rw [hfolded]
  exact (remakes_ofConstant optimized h.isComponents hlength span).congr fun _ _ => hwords _

/-! ## The letters of a mask -/

/-- A mask that is accepted has letters that have a meaning for the base. -/
theorem readMask_spec {columns : Nat} {letters : List Char} {entries : List MaskEntry}
    (h : readMask columns letters = .ok entries) :
    letters.map MaskEntry.ofLetter? = entries.map some ∧
      ∀ c ∈ entries.filterMap MaskEntry.component?, c < columns := by
  induction letters generalizing entries with
  | nil =>
    obtain rfl := Except.ok.inj h
    exact ⟨rfl, List.forall_mem_nil _⟩
  | cons letter rest ih =>
    obtain ⟨entry, hentry⟩ : ∃ entry, MaskEntry.ofLetter? letter = some entry := by
      rw [← Option.ne_none_iff_exists']
      intro hnone
      simp only [readMask, hnone] at h
      cases h
    -- The rest of the letters has been read, and what the first one names is there.
    have hread : (readMask columns rest).map (entry :: ·) = .ok entries ∧
        ∀ c ∈ entry.component?, c < columns := by
      simp only [readMask, hentry] at h
      cases entry with
      | component n =>
        simp only at h
        split_ifs at h with hn
        exact ⟨h, fun c hc => Option.some.inj hc ▸ hn⟩
      | zero | one => exact ⟨h, fun c hc => absurd hc (Option.not_mem_none c)⟩
    obtain ⟨hmap, hfirst⟩ := hread
    cases hrest : readMask columns rest with
    | error c =>
      rw [hrest] at hmap
      cases hmap
    | ok others =>
      rw [hrest] at hmap
      obtain rfl := Except.ok.inj hmap
      obtain ⟨hletters, hothers⟩ := ih hrest
      refine ⟨by rw [List.map_cons, List.map_cons, hentry, hletters], fun c hc => ?_⟩
      obtain ⟨e, he, hce⟩ := List.mem_filterMap.1 hc
      obtain rfl | he := List.mem_cons.1 he
      · exact hfirst c hce
      · exact hothers c (List.mem_filterMap.2 ⟨e, he, hce⟩)

end Typing

/-! ## Masks of values -/

/-- An element of an array, chosen at run time. -/
def Lvalue.chosenVector : Expr :=
  .index ⟨default, .vector .int 4⟩ (.ofVariable default vectors none)
    (.ofVariable default chooser none)

namespace Typing

variable {ctx : CodeContext} {span : Span} {base : Expr} {entries : List MaskEntry}

/-- The code of an expression leaves the word of each letter of a mask.  It evaluates the base
once, unless the value of the base is known beforehand, or no letter needs it and it has no side
effects. -/
inductive LeavesMask (ctx : CodeContext) (base : Expr) (entries : List MaskEntry) (e : Expr) : Prop
  | evaluated
    (madeFrom : e.MadeFrom ctx base fun ws => entries.map (MaskEntry.word base.ty.numberKind ws))
  | known {values : List Float} (constant : base.source.constantValue? = some values)
    (remakes : (e.operand ctx).push.Remakes 0 fun _ =>
      entries.map (MaskEntry.word base.ty.numberKind
        (Words.choose base.chosen (Words.alike (values.map (literalBits · base.ty.numberKind))))))
  | unused (clean : base.hasSideEffects = false)
    (constants : ∀ entry ∈ entries, entry.isConstant = true)
    (remakes : (e.operand ctx).push.Remakes 0 fun _ =>
      entries.map (MaskEntry.word base.ty.numberKind []))

/-- A mask of components only. -/
theorem select?_selects (ctx : CodeContext) (span : Span) (hbase : base.IsSelection)
    (inside : ∀ c ∈ entries.filterMap MaskEntry.component?, c < base.ty.columns)
    (hnamed : (entries.filterMap MaskEntry.component?).length = entries.length)
    (hpos : 0 < entries.length) (hfour : entries.length ≤ 4) :
    ∃ e, select? span (entries.filterMap MaskEntry.component?) base = some e ∧ e.IsSelection ∧
      e.ty.columns = entries.length ∧ e.ty.component = base.ty.component ∧
      LeavesMask ctx base entries e := by
  obtain ⟨e, he⟩ := hbase.exists_select? (hnamed ▸ hpos) (hnamed ▸ hfour) span
  obtain ⟨hselection, hsource, hchosen, hcomponent⟩ := hbase.select? inside he
  refine ⟨e, he, hselection, ?_, hcomponent, .evaluated <|
    hselection.madeFrom hsource (bind_pure _).symm (.pure _) fun ws _ => ?_⟩
  · rw [← hselection.length_chosen, hchosen, List.length_map, hnamed]
  · rw [hchosen, ← Words.choose_choose (hbase.length_chosen.symm ▸ inside), choose_named _ hnamed]

/-- A mask of components and constants. -/
theorem leavesMask_mixed {part e : Expr} (hbase : base.IsSelection)
    (hlength : ∀ values, base.source.constantValue? = some values →
      values.length = base.source.ty.columns)
    (inside : ∀ c ∈ entries.filterMap MaskEntry.component?, c < base.ty.columns)
    (hpart : select? span (entries.filterMap MaskEntry.component?) base = some part)
    (h : Arranged entries (part :: maskConstants span base.ty.component entries) e)
    (hkind : e.ty.numberKind = base.ty.numberKind) :
    LeavesMask ctx base entries (folded ctx.program.dialect span e) := by
  by_cases hfold : ctx.optimize = true → base.source.constantValue? = none
  · have hsame : folded ctx.program.dialect span e = e := by
      rw [folded]
      split_ifs with hoptimize
      · have hsource := (hbase.select? inside hpart).2.1
        rw [h.unknown]
        · rfl
        · rw [Expr.constantValues?, Expr.constantValue?_source (hsource.symm ▸ hfold hoptimize)]
          rfl
      · rfl
    rw [hsame]
    exact .evaluated (h.madeFrom hbase inside hpart hfold)
  · push Not at hfold
    obtain ⟨optimized, hconstant⟩ := hfold
    obtain ⟨values, hvalues⟩ := Option.ne_none_iff_exists'.1 hconstant
    obtain ⟨hselection, hsource, hchosen, -⟩ := hbase.select? inside hpart
    have hcount := hlength values hvalues
    have hpartKnown := hselection.constantValue? (hsource.symm ▸ hvalues) (hsource.symm ▸ hcount)
    have hshaped := Ty.numberKind_component (Ty.isShaped_of_isComponents hbase.isComponents)
    obtain ⟨known, hknown, hcolumns, hwords⟩ := h.exists_known base.ty.numberKind
      (part.chosen.map (values.getD · 0.0))
      (Words.choose base.chosen (Words.alike (values.map (literalBits · base.ty.numberKind))))
      (by
        rw [Expr.constantValues?, hpartKnown, maskConstants_eq, Expr.constantValues?_literals,
          hshaped]
        rfl)
      (fun lanes => by
        rw [← Words.choose_alike_map, Words.choose_choose (hbase.length_chosen.symm ▸ inside),
          hchosen]
        exact fun c hc => hcount.symm ▸ hsource ▸ hselection.lt_of_mem_chosen c hc)
    exact .known hvalues (remakes_folded optimized h.selection hknown
      (hcolumns.trans h.columns.symm) (hkind.symm ▸ hwords))

/-- A mask of constants only. -/
theorem leavesMask_constants {e : Expr} (hbase : base.IsSelection)
    (hnamed : entries.filterMap MaskEntry.component? = [])
    (h : Arranged entries (maskConstants span base.ty.component entries) e)
    (hkind : e.ty.numberKind = base.ty.numberKind) :
    LeavesMask ctx base entries
      (if base.hasSideEffects then
        .binary ⟨span, (folded ctx.program.dialect span e).ty⟩ base .comma
          (folded ctx.program.dialect span e)
      else folded ctx.program.dialect span e) := by
  have hshaped := Ty.numberKind_component (Ty.isShaped_of_isComponents hbase.isComponents)
  have hconstants : ∀ entry ∈ entries, entry.isConstant = true := fun entry hentry =>
    Option.isNone_iff_eq_none.2 (List.filterMap_eq_nil_iff.1 hnamed entry hentry)
  have hremakes : ((folded ctx.program.dialect span e).operand ctx).push.Remakes 0 fun _ =>
      entries.map (MaskEntry.word base.ty.numberKind []) := by
    cases hoptimize : ctx.optimize with
    | true =>
      obtain ⟨known, hknown, hcolumns, hwords⟩ := h.exists_known base.ty.numberKind [] []
        (by rw [maskConstants_eq, Expr.constantValues?_literals, hshaped, List.nil_append])
        (fun lanes => by rw [hnamed]; rfl)
      exact remakes_folded hoptimize h.selection hknown (hcolumns.trans h.columns.symm)
        (hkind.symm ▸ hwords)
    | false =>
      have hsame : folded ctx.program.dialect span e = e := by
        have hsettings : ctx.program.dialect.settings.optimize = false := hoptimize
        rw [folded, hsettings]
        rfl
      rw [hsame]
      exact h.remakes hbase.isComponents hnamed hoptimize
  split_ifs with heffects
  · have hpush : ((Expr.binary ⟨span, (folded ctx.program.dialect span e).ty⟩ base .comma
        (folded ctx.program.dialect span e)).operand ctx).push = (do
          (base.operand ctx).push
          Gen.build (·.discard (base.operand ctx).slots)
          ((folded ctx.program.dialect span e).operand ctx).push) := by
      rw [Expr.operand]
      rfl
    have hslots : (base.operand ctx).slots = base.ty.columns := by
      rw [Operand.slots, Expr.operand_ty, Ty.slotCount_of_isComponents hbase.isComponents]
    rw [hslots] at hpush
    refine .evaluated (hbase.madeFrom rfl hpush
      ((GenM.Remakes.discard _).seq hremakes fun _ _ => rfl) fun ws _ => ?_)
    refine List.map_congr_left fun entry hentry => ?_
    rw [MaskEntry.word_of_isConstant (hconstants entry hentry),
      MaskEntry.word_of_isConstant (hconstants entry hentry)]
  · exact .unused (Bool.eq_false_iff.2 heffects) hconstants hremakes

/-- A mask with constants among its letters. -/
theorem selectWithConstants?_selects (ctx : CodeContext) (span : Span) (hbase : base.IsSelection)
    (hlength : ∀ values, base.source.constantValue? = some values →
      values.length = base.source.ty.columns)
    (inside : ∀ c ∈ entries.filterMap MaskEntry.component?, c < base.ty.columns)
    (hmixed : (entries.filterMap MaskEntry.component?).length ≠ entries.length)
    (hfour : entries.length ≤ 4) :
    ∃ e, selectWithConstants? ctx.program.dialect span base entries = some e ∧ e.IsSelection ∧
      e.ty.columns = entries.length ∧ e.ty.component = base.ty.component ∧
      LeavesMask ctx base entries e := by
  have hkind {e : Expr} (h : e.IsSelection) (hcomponent : e.ty.component = base.ty.component) :
      e.ty.numberKind = base.ty.numberKind := by
    rw [← Ty.numberKind_component (Ty.isShaped_of_isComponents h.isComponents), hcomponent,
      Ty.numberKind_component (Ty.isShaped_of_isComponents hbase.isComponents)]
  by_cases hnone : entries.filterMap MaskEntry.component? = []
  · obtain ⟨e, h, hcomponent, hselect⟩ := exists_selectWithConstants? hbase []
      (by rw [hnone]; rfl) (fun _ => hnone) hmixed hfour ctx.program.dialect
    obtain ⟨hselection, hty⟩ := folded_isSelection h.selection ctx.program.dialect span
    refine ⟨_, hselect, ?_⟩
    rw [hnone, List.isEmpty_nil, Bool.true_and]
    refine ⟨?_, ?_, ?_, leavesMask_constants hbase hnone h (hkind h.selection hcomponent)⟩
    all_goals split
    · exact hselection.isComponents
    · exact hselection
    · exact (congrArg Ty.columns hty).trans h.columns
    · exact (congrArg Ty.columns hty).trans h.columns
    · exact (congrArg Ty.component hty).trans hcomponent
    · exact (congrArg Ty.component hty).trans hcomponent
  · have hsome : (entries.filterMap MaskEntry.component?).isEmpty = false :=
      List.isEmpty_eq_false_iff.2 hnone
    obtain ⟨part, hpart⟩ := hbase.exists_select? (List.length_pos_iff.2 hnone)
      ((List.length_filterMap_le _ _).trans hfour) span
    obtain ⟨e, h, hcomponent, hselect⟩ := exists_selectWithConstants? hbase [part]
      (by rw [hsome, hpart]; rfl) nofun hmixed hfour ctx.program.dialect
    obtain ⟨hselection, hty⟩ := folded_isSelection h.selection ctx.program.dialect span
    rw [hsome, Bool.false_and] at hselect
    exact ⟨_, hselect, hselection, (congrArg Ty.columns hty).trans h.columns,
      (congrArg Ty.component hty).trans hcomponent,
      leavesMask_mixed hbase hlength inside hpart h (hkind h.selection hcomponent)⟩

/-- A mask that is accepted selects the components that its letters name, in the order of the mask,
with zeros and ones of the kind of the base among them: its type says so, and its code leaves these
words.  The base can be a swizzle, too; by itself it leaves the words that it has chosen
(`Expr.IsSelection.madeFrom_self`). -/
theorem swizzle_selects {mask : String} (hbase : base.IsSelection)
    (hlength : ∀ values, base.source.constantValue? = some values →
      values.length = base.source.ty.columns)
    (accepted : (swizzle ctx.program.dialect base mask span).reports = []) :
    let e := (swizzle ctx.program.dialect base mask span).value
    ∃ entries, mask.toList.map MaskEntry.ofLetter? = entries.map some ∧ e.IsSelection ∧
      e.ty.columns = mask.length ∧ e.ty.component = base.ty.component ∧
      LeavesMask ctx base entries e := by
  by_cases hlong : 4 < mask.length
  · rw [swizzle, if_pos hlong] at accepted
    cases accepted
  cases hread : readMask base.ty.columns mask.toList with
  | error c =>
    simp only [swizzle, if_neg hlong, hread] at accepted
    cases accepted
  | ok entries =>
    obtain ⟨hletters, inside⟩ := readMask_spec hread
    have hcount : entries.length = mask.length :=
      (length_readMask hread).trans String.length_toList
    have hfour : entries.length ≤ 4 := by omega
    have hpos : 0 < entries.length := by
      refine List.length_pos_iff.2 fun hempty => ?_
      subst hempty
      simp only [swizzle, if_neg hlong, hread] at accepted
      cases accepted
    have hempty : entries.isEmpty = false := by
      rw [List.isEmpty_eq_false_iff]
      exact List.length_pos_iff.1 hpos
    simp only [swizzle, if_neg hlong, hread, hempty, Bool.false_eq_true, if_false]
    refine ⟨entries, hletters, ?_⟩
    rw [← hcount]
    by_cases hnamed : (entries.filterMap MaskEntry.component?).length = entries.length
    · obtain ⟨e, hselect, hselected⟩ :=
        select?_selects ctx span hbase inside hnamed hpos hfour
      rw [if_pos hnamed, hselect]
      exact hselected
    · obtain ⟨e, hselect, hselected⟩ :=
        selectWithConstants?_selects ctx span hbase hlength inside hnamed hfour
      rw [if_neg hnamed, hselect]
      exact hselected

/-- Components of an element that is chosen at run time, in an order of their own. -/
theorem swizzle_selects_reordered :
    let base : Expr := .swizzle ⟨default, .vector .int 3⟩ Lvalue.chosenVector [2, 0, 1]
    let masked := swizzle Lvalue.bare.program.dialect base "y1x0" default
    base.IsSelection ∧ masked.reports = [] ∧
      LeavesMask Lvalue.bare base [.component 1, .one, .component 0, .zero] masked.value := by
  intro base masked
  have hbase : base.IsSelection := ⟨rfl, by decide, rfl, rfl, rfl⟩
  have accepted : masked.reports = [] := rfl
  have hunknown : base.source.constantValue? = none := by decide +kernel
  obtain ⟨entries, hletters, -, -, -, hleaves⟩ := swizzle_selects hbase
    (fun values hvalues => by rw [hunknown] at hvalues; cases hvalues) accepted
  have hentries : entries = [.component 1, .one, .component 0, .zero] :=
    List.map_injective_iff.2 (Option.some_injective _) (hletters.symm.trans (by decide))
  exact ⟨hbase, accepted, hentries ▸ hleaves⟩

end Typing

/-! ## Indices past the end -/

namespace Lvalue

/-- Reads an expression after the words from one to eight have been stored to the array, with an
index past its end. -/
def readPastTheEnd (e : Expr) : GenM Unit := do
  assignWords (.ofVariable default vectors none) [1, 2, 3, 4, 5, 6, 7, 8]
  assignWords (.ofVariable default chooser none) [2]
  (e.operand bare).push
  Gen.build (·.pushConstant 0 (4 - e.ty.slotCount))

/-- An index past the end is limited so that the last vector is read. -/
theorem component_past_the_end :
    let masked (mask : String) : Expr :=
      (Typing.swizzle ⟨.fragment, .standard⟩ chosenVector mask default).value
    GenM.color? (readPastTheEnd chosenVector) = some ⟨5, 6, 7, 8⟩ ∧
      GenM.color? (readPastTheEnd (masked "yx")) = some ⟨6, 5, 0, 0⟩ ∧
      GenM.color? (readPastTheEnd (masked "y")) = some ⟨8, 0, 0, 0⟩ :=
  ⟨by decide +kernel, by decide +kernel, by decide +kernel⟩

end Lvalue

end RasterShader
