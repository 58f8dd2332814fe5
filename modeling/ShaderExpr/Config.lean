/-!
# Configuration of a graph

A configuration names the well-known inputs and shapes the depth bias vector.  `Config.standard` is
what most graphs use.
-/

namespace ShaderExpr

inductive Axis where
  | x
  | y
  | z
  deriving DecidableEq, Repr

namespace Axis

def index : Axis → Nat
  | x => 0
  | y => 1
  | z => 2

def name : Axis → String
  | x => "x"
  | y => "y"
  | z => "z"

def ofName? : String → Option Axis
  | "x" => some x
  | "y" => some y
  | "z" => some z
  | _ => none

theorem ofName?_name (a : Axis) : ofName? a.name = some a := by
  cases a <;> rfl

end Axis

/-- The shape of the depth bias vector: the normalized z-index over the divisor at one component, zero
at the others. -/
structure DepthBias where
  divisor : Float32
  component : Axis
  deriving BEq

def DepthBias.standard : DepthBias :=
  ⟨1000000.0, .z⟩

/-- The names of the well-known inputs. -/
structure InputNames where
  uv : String
  zIndex : String
  viewMatrix : String
  worldMatrix : String
  deriving BEq

def InputNames.standard : InputNames :=
  ⟨"uv", "z_index", "view_matrix", "world_matrix"⟩

structure Config where
  depthBias : DepthBias
  names : InputNames
  deriving BEq

def Config.standard : Config :=
  ⟨.standard, .standard⟩

end ShaderExpr
