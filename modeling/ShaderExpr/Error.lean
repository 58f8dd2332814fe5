import ShaderExpr.Inspect

/-!
# Errors

`Error` is what a rejected or failed call reports, with one message for each.  `EvalFailure` tells why
a vertex has no value; its reason in words is the text of `Error.unevaluable`.
-/

namespace ShaderExpr

inductive HandleRole where
  | vertex
  | uniform
  deriving DecidableEq, Repr

def HandleRole.name : HandleRole → String
  | vertex => "vertex"
  | uniform => "uniform"

inductive Error where
  /-- An operation is not defined for the types of its operands. -/
  | typeMismatch (op : Operation) (operands : List OperandType)
  | undefinedAccessor (ty : ValueType) (name : String)
  /-- The arguments of a constructor or conversion do not make up the target. -/
  | shapeMismatch (target : ValueType) (args : List OperandType)
  | notVariable (ty : ValueType)
  /-- A node of one graph was given to another. -/
  | foreignNode (handle : Handle)
  | wrongHandle (handle : Handle) (expected : HandleRole)
  | unknownType (name : String)
  | unevaluable (reason : String)
  deriving DecidableEq, Repr

def OperandType.names (types : List OperandType) : String :=
  ", ".intercalate (types.map OperandType.name)

namespace Error

def message : Error → String
  | typeMismatch op operands =>
    "type mismatch: `" ++ op.name ++ "` is not defined for (" ++ OperandType.names operands ++ ")"
  | undefinedAccessor ty name => "invalid swizzle: `." ++ name ++ "` is not defined on " ++ ty.name
  | shapeMismatch target args =>
    "invalid constructor shape: " ++ target.name ++ " cannot be built from (" ++ OperandType.names args ++ ")"
  | notVariable ty => "cannot assign to a " ++ ty.name ++ " expression that is not a variable"
  | foreignNode handle => handle.text ++ " belongs to another graph"
  | wrongHandle handle expected => handle.text ++ " is not a " ++ expected.name
  | unknownType name => "unknown type `" ++ name ++ "`"
  | unevaluable reason => "cannot evaluate: " ++ reason

end Error

inductive EvalFailure where
  | missing (handle : Handle)
  /-- An operand was recorded after its reader. -/
  | readsLater (reader operand : Handle)
  /-- A variable was bound to an expression that was recorded after the binding. -/
  | boundLater (var expr : Handle)
  /-- An accessor is no accessor, or picks a component that its source does not have. -/
  | accessor (name : String) (source : Handle)
  | attributeUnbound (name : String)
  | attributeType (name : String) (bound expected : ValueType)
  | textureValue (label : String)
  | textureRead
  /-- The components of a result do not form its type. -/
  | componentCount (count : Nat) (ty : ValueType)
  | operandCount (op : Op) (count : Nat)
  /-- The operands have different numbers of components. -/
  | operandWidths (op : BinaryOp) (left right : ValueType)
  /-- Two paired components are of different kinds, or booleans. -/
  | scalarKinds (op : BinaryOp) (left right : Scalar)
  | divisionByZero
  deriving DecidableEq

namespace EvalFailure

def reason : EvalFailure → String
  | missing handle => handle.text ++ " is not recorded"
  | readsLater reader operand => reader.text ++ " reads " ++ operand.text ++ ", recorded after it"
  | boundLater var expr => var.text ++ " is bound to " ++ expr.text ++ ", recorded after the binding"
  | accessor name source => "accessor ." ++ name ++ " on " ++ source.text
  | attributeUnbound name => "attribute `" ++ name ++ "` is not bound"
  | attributeType name bound expected =>
    "attribute `" ++ name ++ "` is bound to a " ++ bound.name ++ " value, expected " ++ expected.name
  | textureValue label => "texture `" ++ label ++ "` has no value"
  | textureRead => "texture reads have no reference value"
  | componentCount count ty => toString count ++ " component(s) do not form a " ++ ty.name
  | operandCount op count => op.inspect ++ " applied to " ++ toString count ++ " operand(s)"
  | operandWidths op left right => op.name ++ " of " ++ left.name ++ " and " ++ right.name
  | scalarKinds op left right => op.name ++ " of " ++ left.inspect ++ " and " ++ right.inspect
  | divisionByZero => "integer division by zero"

def error : EvalFailure → Error
  | missing handle => .wrongHandle handle .vertex
  | failure => .unevaluable failure.reason

end EvalFailure

end ShaderExpr
