import ShaderExpr.Builder

/-!
# Nodes

A node is a recorded expression as its user holds it: the graph it belongs to, its handle, its type,
and whether it is a variable.  Calls on nodes are checked first, without touching the graph, and
recorded only if the check accepts them.  Nothing is shared: the same call made twice records twice.

The right operand of an operator, and each argument of a constructor, is a node or a literal.  A
literal takes the kind of the receiver, or of the target, and is recorded as a constant just before
the vertex that reads it.
-/

namespace ShaderExpr

/-- An expression of one of `n` graphs. -/
structure Node (n : Nat) where
  graph : Fin n
  handle : Handle
  ty : ValueType
  isVariable : Bool
  deriving DecidableEq, Repr

structure Variable (n : Nat) where
  node : Node n
  deriving DecidableEq, Repr

/-- A right operand, or an argument of a constructor. -/
inductive Operand (n : Nat) where
  | node (x : Node n)
  | literal (x : Literal)

/-- An accepted operand: a vertex, or a constant that is still to be recorded. -/
inductive Source where
  | vertex (h : Handle)
  | constant (value : Value)

def Source.record : Source → Draft Handle
  | vertex h => return h
  | constant value => Draft.record (.constant value)

def Source.recordAll : List Source → Draft (List Handle)
  | [] => return []
  | source :: sources => do
    let h ← source.record
    let hs ← recordAll sources
    return h :: hs

variable {n : Nat}

namespace Operand

def type : Operand n → OperandType
  | node x => .typed x.ty
  | literal _ => .literal

/-- Nodes of other graphs are rejected. -/
def checkOwner (g : Fin n) : Operand n → Except Rejection Unit
  | node x => if x.graph = g then .ok () else .error (.foreign x.handle)
  | literal _ => .ok ()

/-- The first operand of another graph is rejected. -/
def checkOwners (g : Fin n) : List (Operand n) → Except Rejection Unit
  | [] => .ok ()
  | x :: xs => do
    x.checkOwner g
    checkOwners g xs

/-- What an operand contributes where a kind is asked for; `none` for a literal that does not fit. -/
def source? (kind : Kind) : Operand n → Option Source
  | node x => some (.vertex x.handle)
  | literal x => (x.unify? kind).map .constant

end Operand

namespace Node

def derive (x : Node n) (ty : ValueType) (v : Vertex) : Draft (Node n) := do
  return ⟨x.graph, ← Draft.record v, ty, false⟩

/-- The type of an operation and the source of its right operand. -/
def checkBinary (op : BinaryOp) (x : Node n) (y : Operand n) :
    Except Rejection (ValueType × Source) := do
  y.checkOwner x.graph
  let ty ← op.check x.ty y.type
  match y.source? x.ty.kind with
  | some source => return (ty, source)
  | none => throw (.operands (.binary op) [.typed x.ty, y.type])

def binary (op : BinaryOp) (x : Node n) (y : Operand n) : Build (Node n) := do
  let (ty, source) ← Build.accept (checkBinary op x y)
  let right ← source.record
  x.derive ty (.op (.binary op) ty [x.handle, right])

def oneMinus (x : Node n) : Build (Node n) := do
  let ty ← Build.accept x.ty.checkOneMinus
  x.derive ty (.op .oneMinus ty [x.handle])

def access (x : Node n) (name : String) : Build (Node n) := do
  let ty ← Build.accept (x.ty.checkAccess name)
  x.derive ty (.component x.handle name ty)

def cast (x : Node n) (target : ValueType) : Build (Node n) := do
  Build.accept (x.ty.checkConversion target)
  x.derive target (.op (.cast target) target [x.handle])

/-- A variable that starts with the value of an expression. -/
def toVariable (x : Node n) : Draft (Variable n) := do
  let h ← Draft.record (.var x.ty x.handle)
  Draft.note (.variableDeclared h x.ty x.handle)
  return ⟨⟨x.graph, h, x.ty, true⟩⟩

/-- What an assignment binds the variable to: an expression of its type, or a literal if it is a
scalar. -/
def checkAssign (x : Node n) (y : Operand n) : Except Rejection Source := do
  unless x.isVariable do throw (.assignment x.handle x.ty)
  y.checkOwner x.graph
  let fits := match y with
    | .node z => decide (z.ty = x.ty)
    | .literal _ => x.ty.isScalar
  match fits, y.source? x.ty.kind with
  | true, some source => return source
  | _, _ => throw (.operands .assign [.typed x.ty, y.type])

/-- Bind a variable to another expression from now on. -/
def assign (x : Node n) (y : Operand n) : Build Unit := do
  let source ← Build.accept (checkAssign x y)
  let expr ← source.record
  Draft.note (.assigned x.handle expr)
  Draft.rebind x.handle expr

/-- Name the vertex of a node; the result is an expression even if the node is a variable. -/
def label (x : Node n) (name : String) : Draft (Node n) := do
  Draft.label x.handle name
  return { x with isVariable := false }

def checkConstruct (g : Fin n) (target : ValueType) (args : List (Operand n)) :
    Except Rejection (List Source) := do
  Operand.checkOwners g args
  let types := args.map Operand.type
  target.checkArguments types
  match args.mapM (Operand.source? target.kind) with
  | some sources => return sources
  | none => throw (.unfitLiteral target types)

/-- A vector made of the components of its arguments. -/
def construct (g : Fin n) (target : ValueType) (args : List (Operand n)) : Build (Node n) := do
  let sources ← Build.accept (checkConstruct g target args)
  let operands ← Source.recordAll sources
  return ⟨g, ← Draft.record (.op (.construct target) target operands), target, false⟩

def setUniform (g : Fin n) (x : Node n) (value : Value) : Build Unit := do
  Build.accept ((Operand.node x).checkOwner g)
  Build.setUniform x.handle value

def evaluate (g : Fin n) (x : Node n) (bindings : Bindings) : Build Value := do
  Build.accept ((Operand.node x).checkOwner g)
  Build.evaluate x.handle bindings

def inspect (x : Node n) : String :=
  Inspect.record "Node"
    [("handle", x.handle.inspect), ("ty", x.ty.inspect), ("var", Inspect.bool x.isVariable)]

end Node

namespace Variable

/-- The variable as an expression that cannot be assigned to. -/
def toExpr (v : Variable n) : Node n :=
  { v.node with isVariable := false }

/-- Name a variable, which stays one. -/
def label (v : Variable n) (name : String) : Draft (Variable n) := do
  Draft.label v.node.handle name
  return v

def inspect (v : Variable n) : String :=
  Inspect.tuple "Var" [v.node.inspect]

end Variable

def Operand.inspect : Operand n → String
  | node x => x.inspect
  | literal x => x.inspect

end ShaderExpr
