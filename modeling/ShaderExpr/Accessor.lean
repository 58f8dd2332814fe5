import ShaderExpr.ValueType

/-!
# Component accessors

An accessor such as `.x` or `.rgb` picks components of a vector.  Its letters come from the positional
alphabet `xyzw` or the color alphabet `rgba`.  The accessors of a vector are listed by its dimension:
every single letter below the dimension, and the contiguous runs inside `xyz` and `rgb` that it can
serve.
-/

namespace ShaderExpr

/-- A component of a vector, named by a letter of either alphabet. -/
inductive Selector where
  | x
  | y
  | z
  | w
  deriving DecidableEq, Repr

namespace Selector

def ofChar? : Char → Option Selector
  | 'x' | 'r' => some x
  | 'y' | 'g' => some y
  | 'z' | 'b' => some z
  | 'w' | 'a' => some w
  | _ => none

def index : Selector → Nat
  | x => 0
  | y => 1
  | z => 2
  | w => 3

def parse? (name : String) : Option (List Selector) :=
  name.toList.mapM ofChar?

end Selector

structure AccessorRule where
  source : ValueType
  name : String
  result : ValueType
  deriving DecidableEq, Repr

namespace AccessorRule

def names : Dim → List String
  | .scalar => []
  | .d2 => ["x", "y", "r", "g", "xy", "rg"]
  | .d3 => ["x", "y", "z", "r", "g", "b", "xy", "yz", "rg", "gb", "xyz", "rgb"]
  | .d4 => ["x", "y", "z", "w", "r", "g", "b", "a", "xy", "yz", "rg", "gb", "xyz", "rgb"]

/-- The rule of an accessor of the vectors of a kind and dimension: the result has one component for
each letter. -/
def ofName? (kind : Kind) (dim : Dim) (name : String) : Option AccessorRule := do
  let source ← ValueType.ofKindDim? kind dim
  let width ← Dim.ofWidth? name.length
  let result ← ValueType.ofKindDim? kind width
  return ⟨source, name, result⟩

/-- The accessors of the float, signed and unsigned vectors. -/
def table : List AccessorRule :=
  [Kind.float, .int, .uint].flatMap fun kind =>
    [Dim.d2, .d3, .d4].flatMap fun dim => (names dim).filterMap (ofName? kind dim)

end AccessorRule

/-- The type of the components that an accessor picks, if the source has it. -/
def accessorResult? (source : ValueType) (name : String) : Option ValueType :=
  (AccessorRule.table.find? fun rule => rule.source = source ∧ rule.name = name).map AccessorRule.result

def hasAccessor (source : ValueType) (name : String) : Bool :=
  (accessorResult? source name).isSome

end ShaderExpr
