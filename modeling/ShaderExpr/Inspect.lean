import ShaderExpr.Literal
import ShaderExpr.Number.Shortest
import ShaderExpr.Vertex

/-!
# Inspection text

Types, values and vertices have an inspection text for logs and for the reasons of failed evaluations.
It spells out how a thing is built: `Name(a, b)` for parts in order, `Name { field: a }` for named
parts, `[a, b]` for lists, quoted strings, and floats by their shortest decimal.

`Handle.text`, the short name `%3` of a handle, is the one used in messages.
-/

namespace ShaderExpr

namespace Inspect

/-- Floats are positional from `0.0001` up to below `1e16` and have an exponent elsewhere. -/
def floatLayout : DecimalLayout where
  leastPositional := -4
  leastScientific := 16
  exponentMark := "e"
  nan := "NaN"
  infinity := "inf"

def float32 (f : Float32) : String :=
  floatLayout.text .binary32 (.ofFloat32 f)

def float64 (f : Float) : String :=
  floatLayout.text .binary64 (.ofFloat f)

def commas (parts : List String) : String :=
  ", ".intercalate parts

def list (parts : List String) : String :=
  "[" ++ commas parts ++ "]"

def tuple (name : String) (parts : List String) : String :=
  name ++ "(" ++ commas parts ++ ")"

def record (name : String) (fields : List (String × String)) : String :=
  name ++ " \x7b " ++ commas (fields.map fun field => field.1 ++ ": " ++ field.2) ++ " \x7d"

/-- A character inside quotes: the quote, the backslash and the ASCII controls are escaped.  Characters outside ASCII
stand as they are, also those that have no graphic form. -/
def quotedChar (c : Char) : String :=
  if c = '\"' then "\\\""
  else if c = '\\' then "\\\\"
  else if c = '\n' then "\\n"
  else if c = '\t' then "\\t"
  else if c = '\r' then "\\r"
  else if c.toNat = 0 then "\\0"
  else if c.toNat < 32 ∨ c.toNat = 127 then
    "\\u\x7b" ++ String.ofList (Nat.toDigits 16 c.toNat) ++ "\x7d"
  else String.singleton c

def quoted (s : String) : String :=
  "\"" ++ String.join (s.toList.map quotedChar) ++ "\""

def optional : Option String → String
  | none => "None"
  | some part => tuple "Some" [part]

def bool (b : Bool) : String :=
  if b then "true" else "false"

end Inspect

def Handle.text (h : Handle) : String :=
  "%" ++ toString h.index

def Handle.inspect (h : Handle) : String :=
  Inspect.tuple "Handle" [toString h.index]

def ValueType.inspect : ValueType → String
  | .bool => "Bool"
  | .int => "Int"
  | .uint => "UInt"
  | .float => "Float"
  | .vec2 => "Vec2"
  | .vec3 => "Vec3"
  | .vec4 => "Vec4"
  | .ivec2 => "IVec2"
  | .ivec3 => "IVec3"
  | .ivec4 => "IVec4"
  | .uvec2 => "UVec2"
  | .uvec3 => "UVec3"
  | .uvec4 => "UVec4"
  | .mat2 => "Mat2"
  | .mat3 => "Mat3"
  | .mat4 => "Mat4"

namespace Scalar

def digits : Scalar → String
  | bool b => Inspect.bool b
  | int i => toString i.toInt
  | uint u => toString u.toNat
  | float f => Inspect.float32 f

def inspect (s : Scalar) : String :=
  Inspect.tuple s.kind.scalarType.inspect [s.digits]

end Scalar

namespace Value

def columns (v : Value) : List (List Scalar) :=
  (List.range (v.ty.componentCount / v.ty.dim.width)).map fun i =>
    (v.components.drop (i * v.ty.dim.width)).take v.ty.dim.width

/-- The vector of a column of a matrix, or of the components of a vector. -/
def inspectColumn (v : Value) (column : List Scalar) : String :=
  Inspect.tuple v.ty.column.inspect (column.map Scalar.digits)

def inspect (v : Value) : String :=
  Inspect.tuple v.ty.inspect <|
    if v.ty.isScalar then v.components.map Scalar.digits
    else if v.ty.isMatrix then
      [Inspect.record v.ty.inspect
        (["x_axis", "y_axis", "z_axis", "w_axis"].zip (v.columns.map v.inspectColumn))]
    else [v.inspectColumn v.components]

end Value

def BinaryOp.inspect : BinaryOp → String
  | .mul => "Mul"
  | .add => "Add"
  | .sub => "Sub"
  | .div => "Div"
  | .lessThan => "LessThan"

def Op.inspect : Op → String
  | .constant value => Inspect.tuple "Constant" [value.inspect]
  | .binary op => Inspect.tuple "Binary" [op.inspect]
  | .oneMinus => Inspect.tuple "Unary" ["OneMinus"]
  | .construct target => Inspect.tuple "Construct" [target.inspect]
  | .cast target => Inspect.tuple "Cast" [target.inspect]
  | .sample => "Sample"
  | .fetch => "Fetch"

def TextureKind.inspect : TextureKind → String
  | .sampled => "Sampled"
  | .data => "Data"

def TextureInfo.inspect (info : TextureInfo) : String :=
  Inspect.record "TextureDesc"
    [("id", Inspect.tuple "ResourceId" [toString info.id.number]),
      ("label", Inspect.quoted info.label),
      ("format", Inspect.optional (info.format.map Inspect.quoted)),
      ("filtered", Inspect.bool info.filtered),
      ("texel", info.texel.inspect)]

def Vertex.inspect : Vertex → String
  | .op operation ty operands =>
    Inspect.record "Op"
      [("op", operation.inspect), ("ty", ty.inspect), ("operands", Inspect.list (operands.map Handle.inspect))]
  | .component source name ty =>
    Inspect.record "Component"
      [("source", source.inspect), ("name", Inspect.quoted name), ("ty", ty.inspect)]
  | .uniform ty value => Inspect.record "Uniform" [("ty", ty.inspect), ("value", value.inspect)]
  | .attr ty name => Inspect.record "Attribute" [("ty", ty.inspect), ("name", Inspect.quoted name)]
  | .texture kind info => Inspect.record "Texture" [("kind", kind.inspect), ("desc", info.inspect)]
  | .var ty init => Inspect.record "Variable" [("ty", ty.inspect), ("init", init.inspect)]

def Literal.inspect (x : Literal) : String :=
  Inspect.tuple "Literal" [Inspect.float64 x.number]

end ShaderExpr
