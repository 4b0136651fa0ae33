import RasterShader.Source.Span

/-!
# Modifiers of declarations

Keywords and layout qualifiers that stand before a declaration. The keywords form a set
(`ModifierFlags`), written in a fixed order; `in` and `out` together are written `inout`.
-/

namespace RasterShader

/-- A set of modifier keywords, one bit each. -/
structure ModifierFlags where
  bits : BitVec 16
deriving DecidableEq, Repr, Inhabited

namespace ModifierFlags

/-- No keyword. -/
def none : ModifierFlags := ⟨0⟩

/-- The set with one keyword, by its place in the order of `names`. -/
def single (place : Nat) : ModifierFlags := ⟨1 <<< place⟩

/-- The keyword `uniform`. -/
def uniform : ModifierFlags := single 0
/-- The keyword `const`. -/
def const : ModifierFlags := single 1
/-- The keyword `in`. -/
def input : ModifierFlags := single 2
/-- The keyword `out`. -/
def output : ModifierFlags := single 3
/-- The keyword `flat`. -/
def flat : ModifierFlags := single 4
/-- The keyword `noperspective`. -/
def noperspective : ModifierFlags := single 5
/-- The keyword `inline`. -/
def inline : ModifierFlags := single 6
/-- The keyword `noinline`. -/
def noinline : ModifierFlags := single 7
/-- The keyword that marks a function whose result depends on its arguments only. -/
def pure : ModifierFlags := single 8
/-- The keyword `workgroup`. -/
def workgroup : ModifierFlags := single 9
/-- The keyword `readonly`. -/
def readonly : ModifierFlags := single 10
/-- The keyword `writeonly`. -/
def writeonly : ModifierFlags := single 11
/-- The keyword `buffer`. -/
def buffer : ModifierFlags := single 12
/-- The keyword `highp`. -/
def highp : ModifierFlags := single 13
/-- The keyword `mediump`. -/
def mediump : ModifierFlags := single 14
/-- The keyword `lowp`. -/
def lowp : ModifierFlags := single 15

/-- Every keyword with its spelling, in the order they are written. -/
def spellings : List (ModifierFlags × String) :=
  [(uniform, "uniform"), (const, "const"), (input, "in"), (output, "out"), (flat, "flat"),
    (noperspective, "noperspective"), (inline, "inline"), (noinline, "noinline"),
    (pure, "$pure"), (workgroup, "workgroup"), (readonly, "readonly"),
    (writeonly, "writeonly"), (buffer, "buffer"), (highp, "highp"), (mediump, "mediump"),
    (lowp, "lowp")]

/-- The set with the keyword of a given spelling. -/
def ofSpelling? (name : String) : Option ModifierFlags :=
  (spellings.find? (·.2 == name)).map (·.1)

/-- Keywords of either set. -/
def union (a b : ModifierFlags) : ModifierFlags := ⟨a.bits ||| b.bits⟩

instance : OrOp ModifierFlags := ⟨union⟩

/-- All keywords of `other` are in `flags`, and there is one. -/
def contains (flags other : ModifierFlags) : Bool :=
  flags.bits &&& other.bits == other.bits && other.bits != 0

/-- Some keyword is in both sets. -/
def intersects (flags other : ModifierFlags) : Bool := flags.bits &&& other.bits != 0

/-- No keyword is in the set. -/
def isEmpty (flags : ModifierFlags) : Bool := flags.bits == 0

/-- The set without the keywords of another. -/
def remove (flags other : ModifierFlags) : ModifierFlags := ⟨flags.bits &&& ~~~other.bits⟩

/-- Spellings of the keywords in the set, in order. `in` and `out` together are one word. -/
def names (flags : ModifierFlags) : List String :=
  let inout := flags.contains (input ||| output)
  spellings.filterMap fun (flag, name) =>
    if inout && flag == input then some "inout"
    else if inout && flag == output then Option.none
    else if flags.contains flag then some name
    else Option.none

end ModifierFlags

/-- Layout qualifiers without a value. -/
inductive LayoutFlag where
  | originUpperLeft
  | blendSupportAllEquations
  | pushConstant
  | color
deriving DecidableEq, Repr, Inhabited

/-- The spelling of a layout flag. -/
def LayoutFlag.name : LayoutFlag → String
  | originUpperLeft => "origin_upper_left"
  | blendSupportAllEquations => "blend_support_all_equations"
  | pushConstant => "push_constant"
  | color => "color"

/-- Layout qualifiers with an integer value. -/
inductive LayoutKey where
  | location
  | offset
  | binding
  | index
  | set
  | builtin
  | inputAttachmentIndex
deriving DecidableEq, Repr, Inhabited

/-- The spelling of a layout key. -/
def LayoutKey.name : LayoutKey → String
  | location => "location"
  | offset => "offset"
  | binding => "binding"
  | index => "index"
  | set => "set"
  | builtin => "builtin"
  | inputAttachmentIndex => "input_attachment_index"

/-- A layout qualifier of either sort. -/
inductive LayoutQualifier where
  | flag (flag : LayoutFlag)
  | value (key : LayoutKey)
deriving DecidableEq, Repr

/-- The spelling of a layout qualifier. -/
def LayoutQualifier.name : LayoutQualifier → String
  | flag f => f.name
  | value k => k.name

/-- The layout qualifier of a given spelling. -/
def LayoutQualifier.ofName? (name : String) : Option LayoutQualifier :=
  let all : List LayoutQualifier :=
    [.value .location, .value .offset, .value .binding, .value .index, .value .set,
      .value .builtin, .value .inputAttachmentIndex, .flag .originUpperLeft,
      .flag .blendSupportAllEquations, .flag .pushConstant, .flag .color]
  all.find? (·.name == name)

/-- The layout qualifiers of a declaration, each sort in the order written. -/
structure Layout where
  flags : List LayoutFlag
  values : List (LayoutKey × Int)
deriving DecidableEq, Repr, Inhabited

namespace Layout

/-- No qualifier. -/
def empty : Layout := ⟨[], []⟩

/-- There is no qualifier. -/
def isEmpty (layout : Layout) : Bool := layout.flags.isEmpty && layout.values.isEmpty

/-- A flag is among the qualifiers. -/
def hasFlag (layout : Layout) (flag : LayoutFlag) : Bool := layout.flags.contains flag

/-- The value of a key. -/
def get? (layout : Layout) (key : LayoutKey) : Option Int := layout.values.lookup key

/-- The number that binds a variable to a built-in input or output. -/
def builtin? (layout : Layout) : Option Int := layout.get? .builtin

/-- Written before a declaration: values first, then flags, and nothing when there are none. -/
def text (layout : Layout) : String :=
  if layout.isEmpty then ""
  else
    let values := layout.values.map fun (key, value) => s!"{key.name} = {value}"
    let parts := values ++ layout.flags.map LayoutFlag.name
    let inner := String.intercalate ", " parts
    s!"layout ({inner}) "

end Layout

/-- Everything that stands before the type of a declaration. -/
structure Modifiers where
  layout : Layout
  flags : ModifierFlags
  span : Span
deriving DecidableEq, Repr, Inhabited

namespace Modifiers

/-- Keywords alone. -/
def ofFlags (flags : ModifierFlags) : Modifiers := ⟨.empty, flags, ⟨0, 0⟩⟩

/-- The declaration is `const`. -/
def isConst (m : Modifiers) : Bool := m.flags.contains .const

/-- The declaration is `uniform`. -/
def isUniform (m : Modifiers) : Bool := m.flags.contains .uniform

/-- The declaration is `out` or `inout`. -/
def isOut (m : Modifiers) : Bool := m.flags.contains .output

/-- Written before a declaration, with a blank after every part. -/
def text (m : Modifiers) : String :=
  m.layout.text ++ String.join (m.flags.names.map (· ++ " "))

end Modifiers

end RasterShader
