import ShaderExpr.Accessor
import ShaderExpr.Constructor
import ShaderExpr.Error

/-!
# Rejections

A call that is rejected says so twice: to its caller by an `Error`, and in the log by a `Rejection`,
which tells apart the ways in which a constructor or conversion can fail.

The checks look up the tables of operators, accessors, constructors and conversions, and reject what
is not listed.
-/

namespace ShaderExpr

/-- Why a call on a graph under construction is rejected. -/
inductive Rejection where
  /-- The operation is not defined for its operands, or a literal operand does not fit. -/
  | operands (op : Operation) (types : List OperandType)
  | accessor (ty : ValueType) (name : String)
  /-- The arguments do not have a shape of the target. -/
  | shape (target : ValueType) (args : List OperandType)
  /-- The arguments have a shape of the target, but a literal among them does not fit its kind. -/
  | unfitLiteral (target : ValueType) (args : List OperandType)
  | conversion (source target : ValueType)
  | assignment (handle : Handle) (ty : ValueType)
  | foreign (handle : Handle)
  deriving DecidableEq, Repr

namespace Rejection

/-- What the caller gets. -/
def error : Rejection → Error
  | operands op types => .typeMismatch op types
  | accessor ty name => .undefinedAccessor ty name
  | shape target args | unfitLiteral target args => .shapeMismatch target args
  | conversion source target => .shapeMismatch target [.typed source]
  | assignment _ ty => .notVariable ty
  | foreign handle => .foreignNode handle

/-- What the log says. -/
def report : Rejection → String
  | operands op types => (Error.typeMismatch op types).message
  | accessor ty name => "rejected swizzle ." ++ name ++ " on " ++ ty.name
  | shape target args =>
    "rejected " ++ target.name ++ " constructor with " ++ toString args.length ++ " argument(s)"
  | unfitLiteral target _ => "rejected " ++ target.name ++ " constructor: literal does not fit"
  | conversion source target => "rejected conversion from " ++ source.name ++ " to " ++ target.name
  | assignment handle _ => "rejected assignment to " ++ handle.text ++ ", which is not a variable"
  | foreign handle => "rejected " ++ handle.text ++ ", which belongs to another graph"

end Rejection

def BinaryOp.check (op : BinaryOp) (left : ValueType) (right : OperandType) : Except Rejection ValueType :=
  match op.result? left right with
  | some ty => .ok ty
  | none => .error (.operands (.binary op) [.typed left, right])

namespace ValueType

def checkOneMinus (ty : ValueType) : Except Rejection ValueType :=
  match oneMinusResult? ty with
  | some result => .ok result
  | none => .error (.operands .oneMinus [.typed ty])

def checkAccess (ty : ValueType) (name : String) : Except Rejection ValueType :=
  match accessorResult? ty name with
  | some result => .ok result
  | none => .error (.accessor ty name)

def checkArguments (target : ValueType) (args : List OperandType) : Except Rejection Unit :=
  if target.constructs args then .ok () else .error (.shape target args)

def checkConversion (source target : ValueType) : Except Rejection Unit :=
  if source.convertsTo target then .ok () else .error (.conversion source target)

def parse (name : String) : Except Error ValueType :=
  match ofName? name with
  | some ty => .ok ty
  | none => .error (.unknownType name)

end ValueType

end ShaderExpr
