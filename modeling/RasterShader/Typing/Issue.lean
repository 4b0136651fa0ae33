import RasterShader.Analysis.Trips
import RasterShader.Source.Sink

/-!
# Issues with a program

Everything that can be wrong with a source text, as data. `Issue.message` holds the wording; an
`Issue` with a place is a `Report`.
-/

namespace RasterShader

/-- What a list of fields belongs to. -/
inductive FieldOwner where
  | struct
  | interfaceBlock
deriving DecidableEq, Repr, Inhabited

/-- How messages name the owner of a field. -/
def FieldOwner.text : FieldOwner → String
  | struct => "struct"
  | interfaceBlock => "interface block"

/-- What the arguments of a constructor are counted in. -/
inductive PartUnit where
  | scalars
  | elements
deriving DecidableEq, Repr, Inhabited

/-- How messages name the unit. -/
def PartUnit.text : PartUnit → String
  | scalars => "scalars"
  | elements => "elements"

/-- What can be wrong with a program. -/
inductive Issue where
  -- Tokens and directives
  | programTooLarge
  | invalidToken
  | lateVersion
  | unknownDirective (text : String)
  | unknownVersion (text : String)
  | versionNotAllowed (text : String)
  | malformedExtension
  | reservedWord (text : String)
  | expected (wanted found : String)
  | unexpected (found : String)
  | nestedTooDeep
  -- Modifiers and layouts
  | repeatedModifier (text : String)
  | repeatedQualifier (name : String)
  | layoutValueTooLarge (text : String)
  | unknownQualifier (name : String)
  | modifierNotPermitted (name : String)
  -- Names
  | unknownType (name : String)
  | noTypeNamed (name : String)
  | unknownIdentifier (name : String)
  | alreadyDefined (name : String)
  -- Literals
  | integerTooLarge (text : String)
  | intOutOfRange (text : String)
  | floatTooLarge (text : String)
  -- Array types
  | nestedArray
  | noArrayOf (ty : Ty)
  | unsizedArray
  | sizeNotInteger
  | sizeNotPositive
  | sizeTooLarge
  | sizeNotConstant
  -- Expressions
  | bareTypeName
  | bareFunctionName
  | notAFunction (text : String)
  | missingIndex
  | wrongType (wanted found : Ty)
  | operandTypes (op : Operator) (left right : Ty)
  | operandType (op : Operator) (ty : Ty)
  | immutable (name : String)
  | repeatedSwizzleTarget
  | notAssignable
  | folding (error : FoldError)
  | notIndexable (ty : Ty)
  | indexOutOfRange (index : Int) (ty : Ty)
  | noField (ty : Ty) (name : String)
  | swizzleTooLong
  | swizzleComponent (letter : Char)
  | emptySwizzle
  | ternaryTypes (left right : Ty)
  | ternaryOpaque (ty : Ty)
  | ternaryArray
  -- Constructors and calls
  | partCount (ty : Ty) (unit : PartUnit) (wanted found : Nat)
  | notConstructible (ty : Ty)
  | arrayConstructor (ty : Ty)
  | constructorPart (part ty : Ty)
  | noOverload (name : String) (arguments : List Ty)
  | argumentCount (name : String) (wanted found : Nat)
  | callToMain
  | indirectChild
  | noMethod (ty : Ty) (name : String)
  -- Variables
  | voidVariable
  | mustBeGlobal (ty : Ty)
  | mustBeUniform (ty : Ty)
  | mayNotBeUniform (ty : Ty)
  | uniformInitializer
  | stageInitializer
  | constWithoutValue
  | constNotConstant
  -- Statements
  | tripCount (obstacle : TripObstacle)
  | whileLoop
  | doLoop
  | switchStatement
  | duplicateCase (value : Int)
  | caseNotConstant
  | returnOutsideFunction
  | returnFromVoid
  | returnWithoutValue (ty : Ty)
  | strayBreak
  | strayContinue
  | strayDiscard
  -- Functions
  | voidParameter
  | outParameter (ty : Ty)
  | mainReturns (wanted : String)
  | mainParameters (wanted : String)
  | mainOut
  | inlineBoth
  | returnType (ty : Ty)
  | onlyReturnTypeDiffers (signature other : String)
  | parameterModifiers (place : Nat)
  | duplicateDefinition (signature : String)
  | missingReturn (name : String)
  | recursion
  | undefinedFunction (signature : String)
  -- Structs and interface blocks
  | fieldInitializer
  | fieldModifier (name : String)
  | voidField
  | opaqueField (ty : Ty) (owner : FieldOwner)
  | duplicateField (name : String) (owner : FieldOwner) (ownerName : String)
  | emptyStruct (name : String)
  | structTooDeep (name : String)
  | blockNotAllowed
  | emptyBlock (name : String)
deriving Inhabited

namespace Issue

/-- The ending of a noun that is counted. -/
def plural (n : Nat) : String := if n = 1 then "" else "s"

/-- What the author of the program is told. -/
def message : Issue → String
  | programTooLarge => "program is too large"
  | invalidToken => "invalid token"
  | lateVersion => "'#version' must be the first token in the file"
  | unknownDirective text => s!"unsupported directive '{text}'"
  | unknownVersion text => s!"unsupported version '{text}'"
  | versionNotAllowed text => s!"version '{text}' is not supported"
  | malformedExtension => "invalid #extension directive"
  | reservedWord text => s!"'{text}' is a reserved word"
  | expected wanted found => s!"expected {wanted}, but found {found}"
  | unexpected found => s!"unexpected {found}"
  | nestedTooDeep => "exceeded max parse depth"
  | repeatedModifier text => s!"'{text}' appears more than once"
  | repeatedQualifier name => s!"layout qualifier '{name}' appears more than once"
  | layoutValueTooLarge text => s!"value in layout is too large: {text}"
  | unknownQualifier name => s!"'{name}' is not a valid layout qualifier"
  | modifierNotPermitted name => s!"'{name}' is not permitted here"
  | unknownType name => s!"unknown type '{name}'"
  | noTypeNamed name => s!"no type named '{name}'"
  | unknownIdentifier name => s!"unknown identifier '{name}'"
  | alreadyDefined name => s!"symbol '{name}' was already defined"
  | integerTooLarge text => s!"integer is too large: {text}"
  | intOutOfRange text => s!"integer is out of range for type 'int': {text}"
  | floatTooLarge text => s!"floating-point value is too large: {text}"
  | nestedArray => "multi-dimensional arrays are not supported"
  | noArrayOf ty => s!"type '{ty.name}' may not be used in an array"
  | unsizedArray => "unsized arrays are not permitted here"
  | sizeNotInteger => "array size must be an integer"
  | sizeNotPositive => "array size must be positive"
  | sizeTooLarge => "array size is too large"
  | sizeNotConstant => "array size must be a constant integer expression"
  | bareTypeName => "expected '(' to begin constructor invocation"
  | bareFunctionName => "expected '(' to begin function call"
  | notAFunction text => s!"'{text}' is not a function"
  | missingIndex => "missing index in '[]'"
  | wrongType wanted found => s!"expected '{wanted.name}', but found '{found.name}'"
  | operandTypes op left right =>
    s!"type mismatch: '{op.symbol}' cannot operate on '{left.name}', '{right.name}'"
  | operandType op ty => s!"'{op.symbol}' cannot operate on '{ty.name}'"
  | immutable name => s!"cannot modify immutable variable '{name}'"
  | repeatedSwizzleTarget => "cannot write to the same swizzle field more than once"
  | notAssignable => "cannot assign to this expression"
  | folding error => error.message
  | notIndexable ty => s!"expected array, but found '{ty.name}'"
  | indexOutOfRange index ty => s!"index {index} out of range for '{ty.name}'"
  | noField ty name => s!"type '{ty.name}' does not have a field named '{name}'"
  | swizzleTooLong => "too many components in swizzle mask"
  | swizzleComponent letter => s!"invalid swizzle component '{letter}'"
  | emptySwizzle => "invalid swizzle"
  | ternaryTypes left right => s!"ternary operator result mismatch: '{left.name}', '{right.name}'"
  | ternaryOpaque ty => s!"ternary expression of opaque type '{ty.name}' not allowed"
  | ternaryArray => "ternary operator result may not be an array (or struct containing an array)"
  | partCount ty unit wanted found =>
    s!"invalid arguments to '{ty.name}' constructor (expected {wanted} {unit.text}, " ++
      s!"but found {found})"
  | notConstructible ty => s!"cannot construct '{ty.name}'"
  | arrayConstructor ty => s!"construction of array type '{ty.name}' is not supported"
  | constructorPart part ty => s!"'{part.name}' is not a valid parameter to '{ty.name}' constructor"
  | noOverload name arguments =>
    let list := String.intercalate ", " (arguments.map Ty.name)
    s!"no match for {name}({list})"
  | argumentCount name wanted found =>
    let ending := plural wanted
    s!"call to '{name}' expected {wanted} argument{ending}, but found {found}"
  | callToMain => "call to 'main' is not allowed"
  | indirectChild => "child effects may only be called directly"
  | noMethod ty name => s!"type '{ty.name}' does not have a method named '{name}'"
  | voidVariable => "variables of type 'void' are not allowed"
  | mustBeGlobal ty => s!"variables of type '{ty.name}' must be global"
  | mustBeUniform ty => s!"variables of type '{ty.name}' must be uniform"
  | mayNotBeUniform ty => s!"variables of type '{ty.name}' may not be uniform"
  | uniformInitializer => "'uniform' variables cannot use initializer expressions"
  | stageInitializer => "'in' and 'out' variables cannot use initializer expressions"
  | constWithoutValue => "'const' variables must be initialized"
  | constNotConstant => "'const' variable initializer must be a constant expression"
  | tripCount obstacle => obstacle.message
  | whileLoop => "while loops are not supported"
  | doLoop => "do-while loops are not supported"
  | switchStatement => "switch statements are not supported"
  | duplicateCase value => s!"duplicate case value '{value}'"
  | caseNotConstant => "case value must be a constant integer"
  | returnOutsideFunction => "return statement must be inside a function"
  | returnFromVoid => "may not return a value from a void function"
  | returnWithoutValue ty => s!"expected function to return '{ty.name}'"
  | strayBreak => "break statement must be inside a loop or switch"
  | strayContinue => "continue statement must be inside a loop"
  | strayDiscard => "discard statement is only permitted in fragment shaders"
  | voidParameter => "parameters of type 'void' are not allowed"
  | outParameter ty => s!"parameters of type '{ty.name}' cannot be 'out'"
  | mainReturns wanted => s!"'main' must return {wanted}"
  | mainParameters wanted => s!"'main' parameters must be {wanted}"
  | mainOut => "'main' parameters may not be 'out'"
  | inlineBoth => "functions cannot be both 'inline' and 'noinline'"
  | returnType ty => s!"functions may not return type '{ty.name}'"
  | onlyReturnTypeDiffers signature other =>
    s!"functions '{signature}' and '{other}' differ only in return type"
  | parameterModifiers place =>
    s!"modifiers on parameter {place} differ between declaration and definition"
  | duplicateDefinition signature => s!"duplicate definition of '{signature}'"
  | missingReturn name => s!"function '{name}' can exit without returning a value"
  | recursion => "potential recursion (function call cycle) not allowed"
  | undefinedFunction signature => s!"function '{signature}' is not defined"
  | fieldInitializer => "initializers are not permitted on struct fields"
  | fieldModifier name => s!"modifier '{name}' is not permitted on a struct field"
  | voidField => "type 'void' is not permitted in a struct"
  | opaqueField ty owner => s!"opaque type '{ty.name}' is not permitted in a {owner.text}"
  | duplicateField name owner ownerName =>
    s!"field '{name}' was already defined in the same {owner.text} ('{ownerName}')"
  | emptyStruct name => s!"struct '{name}' must contain at least one field"
  | structTooDeep name => s!"struct '{name}' is too deeply nested"
  | blockNotAllowed => "interface blocks are not allowed in this kind of program"
  | emptyBlock name => s!"interface block '{name}' must contain at least one member"

end Issue

/-- An issue and the place it is about. -/
structure Report where
  span : Span
  issue : Issue
deriving Inhabited

/-- The report in words. -/
def Report.diagnostic (r : Report) : Diagnostic := ⟨r.span, r.issue.message⟩

end RasterShader
