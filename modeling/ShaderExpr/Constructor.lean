import ShaderExpr.ValueType

/-!
# Vector constructors and conversions

A vector constructor takes scalars, literals and vectors whose widths, in order, form one of the
listed shapes of the target's width.  Every argument that is not a literal has the target's kind.  A
conversion changes the numeric kind and keeps the dimension.
-/

namespace ShaderExpr

/-- The argument widths accepted for vectors of a dimension. -/
def Dim.shapes : Dim → List (List Nat)
  | scalar => []
  | d2 => [[1, 1], [2]]
  | d3 => [[1, 1, 1], [2, 1], [1, 2], [3]]
  | d4 => [[1, 1, 1, 1], [2, 1, 1], [1, 2, 1], [1, 1, 2], [2, 2], [3, 1], [1, 3], [4]]

namespace ValueType

/-- The argument widths accepted by the constructor of a type; only vectors have one. -/
def shapes (target : ValueType) : List (List Nat) :=
  if target.isVector then target.dim.shapes else []

def constructible : List ValueType :=
  [vec2, vec3, vec4, ivec2, ivec3, ivec4, uvec2, uvec3, uvec4]

/-- The width that an argument contributes; matrices and other kinds contribute none. -/
def argumentWidth? (target : ValueType) : OperandType → Option Nat
  | .literal => some 1
  | .typed ty => if ty.isMatrix ∨ ty.kind ≠ target.kind then none else some ty.dim.width

def constructs (target : ValueType) (args : List OperandType) : Bool :=
  match args.mapM target.argumentWidth? with
  | some widths => widths ∈ target.shapes
  | none => false

/-- Conversions apply to the numeric scalars and vectors. -/
def isConvertible (ty : ValueType) : Bool :=
  !ty.isMatrix && ty.kind ≠ .bool

def convertsTo (source target : ValueType) : Bool :=
  source.isConvertible && target.isConvertible && source.dim = target.dim

end ValueType

end ShaderExpr
