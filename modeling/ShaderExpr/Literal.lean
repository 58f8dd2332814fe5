import ShaderExpr.Value

/-!
# Literals

A literal is a bare number, held in double precision.  It has no type of its own and unifies with the
scalar type of the kind it is used with: with integers only if it equals an integer of their range,
with floats unless a finite number would become infinite, and with booleans never.
-/

namespace ShaderExpr

structure Literal where
  number : Float

namespace Literal

/-- Single-precision floats are literals exactly. -/
def ofFloat32 (f : Float32) : Literal :=
  ⟨(Datum.ofFloat32 f).toFloat⟩

/-- Integers are literals exactly, up to `2 ^ 53` in absolute value. -/
def ofInt (i : Int) : Literal :=
  ⟨(Datum.ofInt i).toFloat⟩

/-- The integer from `low` to `high` that a literal equals. -/
def intIn? (x : Literal) (low high : Int) : Option Int :=
  (Datum.ofFloat x.number).toInt?.filter fun i => low ≤ i ∧ i ≤ high

/-- The float that a literal rounds to, unless it is finite and the float is not. -/
def float? (x : Literal) : Option Float32 :=
  let rounded := (Datum.ofFloat x.number).toFloat32
  if (Datum.ofFloat x.number).isFinite ∧ ¬ (Datum.ofFloat32 rounded).isFinite then none else some rounded

def unify? (x : Literal) : Kind → Option Value
  | .bool => none
  | .int => (x.intIn? Int32.minValue.toInt Int32.maxValue.toInt).map fun i => Value.ofInt (Int32.ofInt i)
  | .uint => (x.intIn? 0 (UInt32.size - 1)).map fun i => Value.ofUInt (UInt32.ofNat i.toNat)
  | .float => x.float?.map Value.ofFloat

end Literal

end ShaderExpr
