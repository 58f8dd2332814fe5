/-!
# The types of shader expressions

Every expression has one of sixteen types: `bool`, the three numeric scalars, the float, signed and
unsigned vectors of two to four components, and the square float matrices.  A type is known by its
*kind* (what a component is) and its *dimension* (how many components a column has).

* `ValueType.ofKindDim?` is a left inverse of the pair kind, dimension on scalars and vectors;
* `ValueType.ofName?` reads back exactly the sixteen names.
-/

namespace ShaderExpr

/-- What the components of a value are. -/
inductive Kind where
  | bool
  | int
  | uint
  | float
  deriving DecidableEq, Repr

/-- How many components a scalar or vector has, or a column of a square matrix. -/
inductive Dim where
  | scalar
  | d2
  | d3
  | d4
  deriving DecidableEq, Repr

namespace Dim

def width : Dim → Nat
  | scalar => 1
  | d2 => 2
  | d3 => 3
  | d4 => 4

def ofWidth? : Nat → Option Dim
  | 1 => some scalar
  | 2 => some d2
  | 3 => some d3
  | 4 => some d4
  | _ => none

@[simp]
theorem ofWidth?_width (d : Dim) : ofWidth? d.width = some d := by
  cases d <;> rfl

end Dim

inductive ValueType where
  | bool
  | int
  | uint
  | float
  | vec2
  | vec3
  | vec4
  | ivec2
  | ivec3
  | ivec4
  | uvec2
  | uvec3
  | uvec4
  | mat2
  | mat3
  | mat4
  deriving DecidableEq, Repr

/-- The scalar type whose only component has the given kind. -/
def Kind.scalarType : Kind → ValueType
  | .bool => .bool
  | .int => .int
  | .uint => .uint
  | .float => .float

namespace ValueType

def all : List ValueType :=
  [bool, int, uint, float, vec2, vec3, vec4, ivec2, ivec3, ivec4, uvec2, uvec3, uvec4, mat2, mat3, mat4]

theorem mem_all (ty : ValueType) : ty ∈ all := by
  cases ty <;> decide

/-- The kind of the components; matrices hold floats. -/
def kind : ValueType → Kind
  | bool => .bool
  | int | ivec2 | ivec3 | ivec4 => .int
  | uint | uvec2 | uvec3 | uvec4 => .uint
  | float | vec2 | vec3 | vec4 | mat2 | mat3 | mat4 => .float

/-- The dimension; for a matrix, that of a column. -/
def dim : ValueType → Dim
  | bool | int | uint | float => .scalar
  | vec2 | ivec2 | uvec2 | mat2 => .d2
  | vec3 | ivec3 | uvec3 | mat3 => .d3
  | vec4 | ivec4 | uvec4 | mat4 => .d4

def isMatrix : ValueType → Bool
  | mat2 | mat3 | mat4 => true
  | _ => false

def isScalar (ty : ValueType) : Bool :=
  ty.dim = .scalar

def isVector (ty : ValueType) : Bool :=
  !ty.isScalar && !ty.isMatrix

/-- Every type but `bool` is made of numbers. -/
def isNumeric (ty : ValueType) : Bool :=
  ty ≠ bool

/-- Number of scalars in a value: the width, or its square for a matrix. -/
def componentCount (ty : ValueType) : Nat :=
  if ty.isMatrix then ty.dim.width * ty.dim.width else ty.dim.width

def scalarType (ty : ValueType) : ValueType :=
  ty.kind.scalarType

/-- The scalar or vector type of a kind and dimension; there are no vectors of booleans. -/
def ofKindDim? : Kind → Dim → Option ValueType
  | .bool, .scalar => some bool
  | .bool, _ => none
  | .int, .scalar => some int
  | .int, .d2 => some ivec2
  | .int, .d3 => some ivec3
  | .int, .d4 => some ivec4
  | .uint, .scalar => some uint
  | .uint, .d2 => some uvec2
  | .uint, .d3 => some uvec3
  | .uint, .d4 => some uvec4
  | .float, .scalar => some float
  | .float, .d2 => some vec2
  | .float, .d3 => some vec3
  | .float, .d4 => some vec4

/-- The type of a column of a matrix; other types are their own column. -/
def column : ValueType → ValueType
  | mat2 => vec2
  | mat3 => vec3
  | mat4 => vec4
  | ty => ty

def name : ValueType → String
  | bool => "bool"
  | int => "int"
  | uint => "uint"
  | float => "float"
  | vec2 => "vec2"
  | vec3 => "vec3"
  | vec4 => "vec4"
  | ivec2 => "ivec2"
  | ivec3 => "ivec3"
  | ivec4 => "ivec4"
  | uvec2 => "uvec2"
  | uvec3 => "uvec3"
  | uvec4 => "uvec4"
  | mat2 => "mat2"
  | mat3 => "mat3"
  | mat4 => "mat4"

def ofName? (name : String) : Option ValueType :=
  all.find? fun ty => ty.name = name

/-- Different types have different names. -/
theorem name_injective {a b : ValueType} (h : a.name = b.name) : a = b := by
  cases a <;> cases b <;> first | rfl | (revert h; decide)

theorem ofName?_name (ty : ValueType) : ofName? ty.name = some ty := by
  cases ty <;> decide

theorem ofKindDim?_kind_dim {ty : ValueType} (h : ty.isMatrix = false) :
    ofKindDim? ty.kind ty.dim = some ty := by
  cases ty <;> first | rfl | (revert h; decide)

end ValueType

/-- The type of a right operand: that of an expression, or an untyped numeric literal. -/
inductive OperandType where
  | typed (ty : ValueType)
  | literal
  deriving DecidableEq, Repr

namespace OperandType

def name : OperandType → String
  | typed ty => ty.name
  | literal => "literal"

theorem name_injective {a b : OperandType} (h : a.name = b.name) : a = b := by
  cases a with
  | typed s =>
    cases b with
    | typed t => exact congrArg typed (ValueType.name_injective h)
    | literal => cases s <;> exact absurd h (by decide)
  | literal =>
    cases b with
    | typed t => cases t <;> exact absurd h (by decide)
    | literal => rfl

end OperandType

end ShaderExpr
