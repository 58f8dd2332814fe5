import ShaderExpr.Operator
import ShaderExpr.Value

/-!
# Vertices of a recorded graph

A vertex is one recorded request: an operation over earlier vertices, an accessor, an input, or a
variable.  Vertices refer to one another by handles, which count them in the order they were recorded.
-/

namespace ShaderExpr

/-- The place of a vertex in its graph. -/
structure Handle where
  index : Nat
  deriving DecidableEq, Repr

structure ResourceId where
  number : Nat
  deriving DecidableEq, Repr

/-- How a texture is read. -/
inductive TextureKind where
  /-- A color texture, read with filtering. -/
  | sampled
  /-- A data texture, read texel by texel. -/
  | data
  deriving DecidableEq, Repr

structure TextureInfo where
  id : ResourceId
  label : String
  /-- The format of the texels, for data textures. -/
  format : Option String
  filtered : Bool
  texel : ValueType
  deriving DecidableEq, Repr

inductive Op where
  | constant (value : Value)
  | binary (op : BinaryOp)
  | oneMinus
  | construct (target : ValueType)
  | cast (target : ValueType)
  | sample
  | fetch
  deriving DecidableEq

/-- One recorded request. -/
inductive Vertex where
  /-- An operation over other vertices. -/
  | op (op : Op) (ty : ValueType) (operands : List Handle)
  /-- The components of `source` that an accessor picks. -/
  | component (source : Handle) (name : String) (ty : ValueType)
  | uniform (ty : ValueType) (value : Value)
  /-- An attribute: an input that differs from one mesh vertex to the next. -/
  | attr (ty : ValueType) (name : String)
  | texture (kind : TextureKind) (info : TextureInfo)
  /-- A variable, whose value is that of `init` until it is rebound. -/
  | var (ty : ValueType) (init : Handle)
  deriving DecidableEq

namespace Vertex

/-- The type of what the vertex gives: for a texture, that of its texels. -/
def ty : Vertex → ValueType
  | op _ ty _ | component _ _ ty | uniform ty _ | attr ty _ | var ty _ => ty
  | texture _ info => info.texel

def constant (value : Value) : Vertex :=
  op (.constant value) value.ty []

end Vertex

/-- The type of the texels of a format: unsigned for names that end in `uint`, signed for others that
end in `int`, in any mix of ASCII cases, and float for the rest. -/
def texelType (format : String) : ValueType :=
  let lower := format.toList.map Char.toLower
  if "uint".toList.isSuffixOf lower then .uvec4
  else if "int".toList.isSuffixOf lower then .ivec4
  else .vec4

end ShaderExpr
