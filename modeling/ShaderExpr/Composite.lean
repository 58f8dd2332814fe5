import ShaderExpr.Node

/-!
# Inputs and composites

Uniforms, attributes and constants are the leaves of a graph.  Some inputs are well known, and some
expressions over them are shared: they are built at the first call and found again at later ones.

* `Composite.legacyUv` is `vec2(uv.x, 1 - uv.y)`;
* `Composite.normZ` is `z / (z + 1)` for the z-index `z`;
* `Composite.depthBias` has `normZ / divisor` at one component and zero at the others;
* `Composite.modelView` is the product of the view and world matrices, in this order.
-/

namespace ShaderExpr

variable {n : Nat}

namespace Node

def constant (g : Fin n) (value : Value) : Draft (Node n) := do
  return ⟨g, ← Draft.record (.constant value), value.ty, false⟩

def uniform (g : Fin n) (value : Value) : Draft (Node n) := do
  let h ← Draft.record (.uniform value.ty value)
  Draft.note (.uniformDeclared h value.ty)
  return ⟨g, h, value.ty, false⟩

def attr (g : Fin n) (ty : ValueType) (name : String) : Draft (Node n) := do
  let h ← Draft.record (.attr ty name)
  Draft.note (.attributeDeclared h ty name)
  return ⟨g, h, ty, false⟩

end Node

namespace Composite

/-- The node of a composite of a graph. -/
def node (g : Fin n) (c : Composite) (h : Handle) : Node n :=
  ⟨g, h, c.ty, false⟩

def namedUniform (g : Fin n) (ty : ValueType) (name : String) : Draft Handle := do
  let x ← Node.uniform g (.initial ty)
  let x ← x.label name
  return x.handle

def buildUv (g : Fin n) : Draft (Node n) := do
  let h ← uv.shared do
    let x ← Node.attr g uv.ty (← get).config.names.uv
    return x.handle
  return uv.node g h

/-- The number that orders overlapping geometry. -/
def buildZIndex (g : Fin n) : Draft (Node n) := do
  let h ← zIndex.shared do namedUniform g zIndex.ty (← get).config.names.zIndex
  return zIndex.node g h

def buildViewMatrix (g : Fin n) : Draft (Node n) := do
  let h ← viewMatrix.shared do namedUniform g viewMatrix.ty (← get).config.names.viewMatrix
  return viewMatrix.node g h

def buildWorldMatrix (g : Fin n) : Draft (Node n) := do
  let h ← worldMatrix.shared do namedUniform g worldMatrix.ty (← get).config.names.worldMatrix
  return worldMatrix.node g h

def buildModelView (g : Fin n) : Build (Node n) := do
  let h ← modelView.shared do
    let view ← buildViewMatrix g
    let world ← buildWorldMatrix g
    let x ← view.binary .mul (.node world)
    return x.handle
  return modelView.node g h

def buildLegacyUv (g : Fin n) : Build (Node n) := do
  let h ← legacyUv.shared do
    let coordinates ← buildUv g
    let u ← coordinates.access "x"
    let v ← coordinates.access "y"
    let flipped ← v.oneMinus
    let x ← Node.construct g legacyUv.ty [.node u, .node flipped]
    return x.handle
  return legacyUv.node g h

def buildNormZ (g : Fin n) : Build (Node n) := do
  let h ← normZ.shared do
    let z ← buildZIndex g
    let next ← z.binary .add (.literal ⟨1.0⟩)
    let x ← z.binary .div (.node next)
    return x.handle
  return normZ.node g h

def buildDepthBias (g : Fin n) : Build (Node n) := do
  let h ← depthBias.shared do
    let shape := (← get).config.depthBias
    let z ← buildNormZ g
    let bias ← z.binary .div (.literal (.ofFloat32 shape.divisor))
    let zeros := List.replicate 3 (Operand.literal ⟨0.0⟩)
    let x ← Node.construct g depthBias.ty (zeros.set shape.component.index (.node bias))
    return x.handle
  return depthBias.node g h

def build (g : Fin n) : Composite → Build (Node n)
  | uv => buildUv g
  | zIndex => buildZIndex g
  | viewMatrix => buildViewMatrix g
  | worldMatrix => buildWorldMatrix g
  | modelView => buildModelView g
  | legacyUv => buildLegacyUv g
  | normZ => buildNormZ g
  | depthBias => buildDepthBias g

end Composite

end ShaderExpr
