import ShaderExpr.ValueType

/-!
# Operators and the operands they accept

Each binary operator owns a finite table of rules `left, right => result`, and a pair that is not
listed is rejected.  Rules are directional: `vec3 * float` is listed, `float * vec3` is not.  Literals
are listed where they stand for a scalar of the left operand's kind.
-/

namespace ShaderExpr

inductive BinaryOp where
  | mul
  | add
  | sub
  | div
  | lessThan
  deriving DecidableEq, Repr

structure Rule where
  left : ValueType
  right : OperandType
  result : ValueType
  deriving DecidableEq, Repr

namespace Rule

/-- The numeric scalars, in the order the tables list them. -/
def scalars : List ValueType :=
  [.float, .int, .uint]

def vectors : List ValueType :=
  [.vec2, .vec3, .vec4, .ivec2, .ivec3, .ivec4, .uvec2, .uvec3, .uvec4]

def matrices : List ValueType :=
  [.mat2, .mat3, .mat4]

def same (ty : ValueType) : Rule :=
  ⟨ty, .typed ty, ty⟩

/-- A matrix applied to a vector of its dimension. -/
def onColumn (ty : ValueType) : Rule :=
  ⟨ty, .typed ty.column, ty.column⟩

def byScalar (ty : ValueType) : Rule :=
  ⟨ty, .typed ty.scalarType, ty⟩

def byLiteral (ty : ValueType) : Rule :=
  ⟨ty, .literal, ty⟩

/-- The rule of a comparison in place of that of an operation on the same operands. -/
def comparing (rule : Rule) : Rule :=
  { rule with result := .bool }

end Rule

namespace BinaryOp

def all : List BinaryOp :=
  [mul, add, sub, div, lessThan]

def name : BinaryOp → String
  | mul => "mul"
  | add => "add"
  | sub => "sub"
  | div => "div"
  | lessThan => "lessThan"

def rules : BinaryOp → List Rule
  | mul =>
    Rule.scalars.flatMap (fun ty => [.same ty, .byLiteral ty]) ++
    Rule.vectors.flatMap (fun ty => [.same ty, .byScalar ty, .byLiteral ty]) ++
    Rule.matrices.flatMap (fun ty => [.same ty, .onColumn ty, .byScalar ty, .byLiteral ty])
  | add | sub =>
    Rule.scalars.flatMap (fun ty => [.same ty, .byLiteral ty]) ++
    (Rule.vectors ++ Rule.matrices).flatMap (fun ty => [.same ty, .byScalar ty, .byLiteral ty])
  | div =>
    (Rule.scalars ++ Rule.vectors ++ Rule.matrices).flatMap (fun ty => [.byScalar ty, .byLiteral ty])
  | lessThan =>
    Rule.scalars.flatMap (fun ty => [.comparing (.same ty), .comparing (.byLiteral ty)])

/-- The type of the result, if the table lists the pair. -/
def result? (op : BinaryOp) (left : ValueType) (right : OperandType) : Option ValueType :=
  (op.rules.find? fun rule => rule.left = left ∧ rule.right = right).map Rule.result

end BinaryOp

/-- The table of `1 - x`: operand and result. -/
def oneMinusRules : List (ValueType × ValueType) :=
  Rule.scalars.map fun ty => (ty, ty)

/-- The type of `1 - x`, if the table lists the type of `x`. -/
def oneMinusResult? (ty : ValueType) : Option ValueType :=
  oneMinusRules.lookup ty

/-- What an operand was rejected by. -/
inductive Operation where
  | binary (op : BinaryOp)
  | oneMinus
  | assign
  | sample
  deriving DecidableEq, Repr

namespace Operation

def name : Operation → String
  | binary op => op.name
  | oneMinus => "oneMinus"
  | assign => "assign"
  | sample => "sample"

theorem name_injective {a b : Operation} (h : a.name = b.name) : a = b := by
  rcases a with (_ | _ | _ | _ | _) | _ | _ | _ <;> rcases b with (_ | _ | _ | _ | _) | _ | _ | _ <;>
    first | rfl | exact absurd h (by decide)

end Operation

end ShaderExpr
