import ShaderExpr.Config
import ShaderExpr.Evaluation
import ShaderExpr.Notice

/-!
# Graphs under construction

A builder is a recorded graph with its configuration, the composites already built, and the journal of
everything that was reported about it.  Requests that cannot be rejected are `Draft`s; calls that can
are `Build`s, which keep what was recorded before a rejection.

`Build.accept` turns the outcome of a check, which looks at nodes only, into a call: a rejection is
reported and thrown.
-/

namespace ShaderExpr

/-- The well-known inputs and the expressions made from them, each built at most once for a graph. -/
inductive Composite where
  | uv
  | zIndex
  | viewMatrix
  | worldMatrix
  | modelView
  | legacyUv
  | normZ
  | depthBias
  deriving DecidableEq, Repr

def Composite.ty : Composite → ValueType
  | uv | legacyUv => .vec2
  | zIndex | normZ => .float
  | viewMatrix | worldMatrix | modelView => .mat4
  | depthBias => .vec3

structure Builder where
  config : Config
  graph : Graph
  composites : Composite → Option Handle
  /-- What was reported, oldest first. -/
  journal : Array Notice

def Builder.ofConfig (config : Config) : Builder :=
  ⟨config, .empty, fun _ => none, #[]⟩

/-- A request that cannot be rejected. -/
abbrev Draft (α : Type) : Type :=
  StateM Builder α

/-- A call that can be rejected. -/
abbrev Build (α : Type) : Type :=
  ExceptT Error (StateM Builder) α

/-- The handle of a composite, which is built if it was not yet; if its building is rejected it stays
unbuilt. -/
def Composite.shared {m : Type → Type} [Monad m] [MonadStateOf Builder m] (c : Composite) (build : m Handle) :
    m Handle := do
  match (← get).composites c with
  | some h => return h
  | none =>
    let h ← build
    modify fun b => { b with composites := fun d => if d = c then some h else b.composites d }
    return h

namespace Draft

def note (notice : Notice) : Draft Unit :=
  modify fun b => { b with journal := b.journal.push notice }

def record (v : Vertex) : Draft Handle := do
  let b ← get
  note (.recorded b.graph.next v)
  modify fun b => { b with graph := b.graph.push v }
  return b.graph.next

def rebind (var expr : Handle) : Draft Unit := do
  note (.rebound var expr)
  modify fun b => { b with graph := b.graph.rebind var expr }

/-- Name a vertex; labels are not reported. -/
def label (h : Handle) (name : String) : Draft Unit :=
  modify fun b => { b with graph := b.graph.label h name }

end Draft

namespace Build

/-- Go on with what a check found, or report its rejection. -/
def accept {α : Type} : Except Rejection α → Build α
  | .ok a => return a
  | .error reason => do
    Draft.note (.rejected reason)
    throw reason.error

def setUniform (h : Handle) (value : Value) : Build Unit := do
  match (← get).graph.setUniform h value with
  | .ok g =>
    Draft.note (.uniformSet h value)
    modify fun b => { b with graph := g }
  | .error (.typeMismatch op types) => accept (.error (.operands op types))
  | .error e => throw e

def evaluate (h : Handle) (bindings : Bindings) : Build Value := do
  liftExcept ((← get).graph.evaluate bindings h)
where
  liftExcept : Except Error Value → Build Value
    | .ok v => return v
    | .error e => throw e

end Build

end ShaderExpr
