import ShaderExpr.ValueType
import ShaderExpr.Number.Datum

/-!
# Scalars

A scalar is one component of a value: a boolean, a 32-bit signed or unsigned integer, or a
single-precision float.  Scalars convert between kinds as shading languages convert them: integers
wrap, floats truncate toward zero and saturate, and a number is true when it is not zero.
-/

namespace ShaderExpr

inductive Scalar where
  | bool (value : Bool)
  | int (value : Int32)
  | uint (value : UInt32)
  | float (value : Float32)
  deriving DecidableEq

namespace Scalar

def kind : Scalar → Kind
  | bool _ => .bool
  | int _ => .int
  | uint _ => .uint
  | float _ => .float

/-- A number is true when it differs from zero; so is a NaN. -/
def toBool : Scalar → Bool
  | bool b => b
  | int i => i != 0
  | uint u => u != 0
  | float f => f != 0.0

/-- Unsigned integers wrap; floats truncate toward zero and saturate. -/
def toInt : Scalar → Int32
  | bool b => if b then 1 else 0
  | int i => i
  | uint u => u.toInt32
  | float f => Int32.ofInt ((Datum.ofFloat32 f).saturate Int32.minValue.toInt Int32.maxValue.toInt)

/-- Signed integers wrap; floats truncate toward zero and saturate. -/
def toUInt : Scalar → UInt32
  | bool b => if b then 1 else 0
  | int i => i.toUInt32
  | uint u => u
  | float f => UInt32.ofNat ((Datum.ofFloat32 f).saturate 0 (UInt32.size - 1)).toNat

/-- Integers round to the nearest float, a half going to the even neighbour. -/
def toFloat : Scalar → Float32
  | bool b => if b then 1.0 else 0.0
  | int i => (Datum.ofInt i.toInt).toFloat32
  | uint u => (Datum.ofInt u.toNat).toFloat32
  | float f => f

def convert (s : Scalar) : Kind → Scalar
  | .bool => bool s.toBool
  | .int => int s.toInt
  | .uint => uint s.toUInt
  | .float => float s.toFloat

@[simp]
theorem kind_convert (s : Scalar) (k : Kind) : (s.convert k).kind = k := by
  cases k <;> rfl

/-- A scalar of the right kind is left alone. -/
@[simp]
theorem convert_kind (s : Scalar) : s.convert s.kind = s := by
  cases s <;> rfl

end Scalar

end ShaderExpr
