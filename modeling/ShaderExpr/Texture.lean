import ShaderExpr.Composite

/-!
# Textures

A texture is a resource with an identity of its own, read at texture coordinates: color textures are
sampled, data textures are fetched texel by texel.  A texture is held together with the coordinates it
is read at, which can be replaced by another `vec2` of its graph; the resource stays the same.
-/

namespace ShaderExpr

variable {n : Nat}

/-- A texture and one reading of it. -/
structure Texture (n : Nat) where
  texel : Node n
  resource : Handle
  uv : Node n
  info : TextureInfo
  deriving DecidableEq, Repr

namespace Texture

def read (g : Fin n) (resource : Handle) (uv : Node n) (info : TextureInfo) : Draft (Texture n) := do
  let op := if info.filtered then Op.sample else Op.fetch
  let h ← Draft.record (.op op info.texel [resource, uv.handle])
  return ⟨⟨g, h, info.texel, false⟩, resource, uv, info⟩

/-- A new texture, read at the texture coordinates of the graph. -/
def declare (g : Fin n) (kind : TextureKind) (info : TextureInfo) : Draft (Texture n) := do
  let h ← Draft.record (.texture kind info)
  Draft.note (.textureDeclared h kind info)
  let uv ← Composite.buildUv g
  read g h uv info

def color (g : Fin n) (id : ResourceId) (label : String) : Draft (Texture n) :=
  declare g .sampled ⟨id, label, none, true, .vec4⟩

/-- A data texture; its format gives the type of a texel. -/
def data (g : Fin n) (id : ResourceId) (format label : String) : Draft (Texture n) :=
  declare g .data ⟨id, label, some format, false, texelType format⟩

def checkUv (t : Texture n) (uv : Node n) : Except Rejection Unit := do
  (Operand.node uv).checkOwner t.texel.graph
  unless uv.ty = .vec2 do throw (.operands .sample [.typed t.info.texel, .typed uv.ty])

/-- Read the same texture at other coordinates. -/
def withUv (t : Texture n) (uv : Node n) : Build (Texture n) := do
  Build.accept (t.checkUv uv)
  read t.texel.graph t.resource uv t.info

def inspect (t : Texture n) : String :=
  Inspect.record "TextureNode"
    [("texel", t.texel.inspect), ("resource", t.resource.inspect), ("uv", t.uv.inspect),
      ("desc", t.info.inspect)]

end Texture

end ShaderExpr
