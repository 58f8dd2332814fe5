import ShaderExpr.Accessor
import ShaderExpr.Error

/-!
# Arithmetic on values

Operators work component by component, a right operand of one component being used for all components
of the left one.  The exceptions are the products of a matrix with a matrix or with a vector of its
dimension.

Integers wrap, and their division truncates toward zero and has no value where the quotient is not an
integer of the type.  Floats follow IEEE 754, each operation rounded on its own.

* `Value.multiply` sums the products of a matrix entry from the first column to the last;
* `Op.apply` is the value of an operation on the values of its operands.
-/

namespace ShaderExpr

namespace BinaryOp

/-- Two floats combined; a comparison gives a boolean. -/
def onFloats (op : BinaryOp) (x y : Float32) : Scalar :=
  match op with
  | mul => .float (x * y)
  | add => .float (x + y)
  | sub => .float (x - y)
  | div => .float (x / y)
  | lessThan => .bool (x < y)

/-- The quotient of signed integers is missing when the divisor is zero and for `-2 ^ 31 / -1`. -/
def onInts (op : BinaryOp) (x y : Int32) : Except EvalFailure Scalar :=
  match op with
  | mul => .ok (.int (x * y))
  | add => .ok (.int (x + y))
  | sub => .ok (.int (x - y))
  | div => if y = 0 ∨ (x = Int32.minValue ∧ y = -1) then .error .divisionByZero else .ok (.int (x / y))
  | lessThan => .ok (.bool (x < y))

def onUInts (op : BinaryOp) (x y : UInt32) : Except EvalFailure Scalar :=
  match op with
  | mul => .ok (.uint (x * y))
  | add => .ok (.uint (x + y))
  | sub => .ok (.uint (x - y))
  | div => if y = 0 then .error .divisionByZero else .ok (.uint (x / y))
  | lessThan => .ok (.bool (x < y))

/-- Two components combine if both are numbers of one kind. -/
def onScalars (op : BinaryOp) (x y : Scalar) : Except EvalFailure Scalar :=
  match x, y with
  | .float a, .float b => .ok (op.onFloats a b)
  | .int a, .int b => op.onInts a b
  | .uint a, .uint b => op.onUInts a b
  | x, y => .error (.scalarKinds op x y)

/-- Combine paired components from the first pair to the last, stopping at the first that fails. -/
def onPairs (op : BinaryOp) : List Scalar → List Scalar → Except EvalFailure (List Scalar)
  | x :: xs, y :: ys => do
    let z ← op.onScalars x y
    let zs ← op.onPairs xs ys
    return z :: zs
  | _, _ => .ok []

end BinaryOp

namespace Value

/-- The value of a type that components form, or the failure that says how many there were. -/
def rebuild (ty : ValueType) (components : List Scalar) : Except EvalFailure Value :=
  match ofComponents? ty components with
  | some v => .ok v
  | none => .error (.componentCount components.length ty)

/-- One component stands for as many as are needed. -/
def broadcast (count : Nat) : List Scalar → List Scalar
  | [s] => List.replicate count s
  | components => components

def componentwise (op : BinaryOp) (ty : ValueType) (left right : Value) : Except EvalFailure Value :=
  let others := broadcast left.components.length right.components
  if others.length = left.components.length then do
    rebuild ty (← op.onPairs left.components others)
  else .error (.operandWidths op left.ty right.ty)

/-- Whether the product with the right operand is that of linear algebra: the left one is a matrix,
and the right one a matrix or vector of floats of its dimension. -/
def multiplies (left right : Value) : Bool :=
  left.ty.isMatrix && right.ty.kind = .float && right.ty.dim = left.ty.dim

/-- The sum of a nonempty list of floats, from the first to the last. -/
def sumFromFirst : List Float32 → Float32
  | [] => 0.0
  | x :: xs => xs.foldl (· + ·) x

/-- An entry of a product: the row of the left matrix that starts at `row`, times the column of the
right operand that starts at `column`. -/
def entry (width : Nat) (left right : List Float32) (row column : Nat) : Float32 :=
  sumFromFirst <| (List.range width).map fun k =>
    left.getD (k * width + row) 0.0 * right.getD (column + k) 0.0

/-- The product of a matrix with a matrix or vector; it has the type of the right operand. -/
def multiply (left right : Value) (floats : right.ty.kind = .float) : Value where
  ty := right.ty
  components := (List.range right.ty.componentCount).map fun i =>
    .float (entry left.ty.dim.width left.floats right.floats (i % left.ty.dim.width)
      (i / left.ty.dim.width * left.ty.dim.width))
  length_components := by rw [List.length_map, List.length_range]
  kind_of_mem := by
    intro c hc
    obtain ⟨i, _, rfl⟩ := List.mem_map.1 hc
    exact floats.symm

/-- A binary operator on values; `ty` is the type of a result that is computed component by
component. -/
def binary (op : BinaryOp) (ty : ValueType) (left right : Value) : Except EvalFailure Value :=
  if h : op = .mul ∧ left.multiplies right = true then
    .ok (multiply left right (by
      have hm := h.2
      simp only [multiplies, Bool.and_eq_true, decide_eq_true_eq] at hm
      exact hm.1.2))
  else componentwise op ty left right

def pick? (v : Value) (name : String) : Option (List Scalar) := do
  let selectors ← Selector.parse? name
  selectors.mapM fun selector => v.components[selector.index]?

end Value

def Op.apply (op : Op) (ty : ValueType) (args : List Value) : Except EvalFailure Value :=
  match op, args with
  | .constant value, [] => .ok value
  | .binary op, [left, right] => Value.binary op ty left right
  | .oneMinus, [operand] => do
    let one ← Value.rebuild ty [.int 1]
    Value.componentwise .sub ty one operand
  | .construct target, args => Value.rebuild target (args.flatMap Value.components)
  | .cast target, [operand] => Value.rebuild target operand.components
  | .sample, _ | .fetch, _ => .error .textureRead
  | op, args => .error (.operandCount op args.length)

end ShaderExpr
