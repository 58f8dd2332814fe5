import ShaderExpr.Texture

/-!
# Sessions

A session holds several graphs under construction and hands out the identities of textures, which are
the same for all of them.  `Call` is any call on the nodes, variables and textures of a session, and
any request made to a graph directly, without checks; `Session.perform` carries it out.  A call works
on at most one graph and leaves the others alone.

`Session.reportedSince` is the log of what happened between two states of a session.
-/

namespace ShaderExpr

variable {n : Nat}

/-- `n` graphs and the number of the next texture. -/
structure Session (n : Nat) where
  builders : Vector Builder n
  nextResource : Nat

namespace Session

def ofConfigs (configs : Vector Config n) : Session n :=
  ⟨configs.map Builder.ofConfig, 1⟩

def builder (s : Session n) (g : Fin n) : Builder :=
  s.builders[g]

def on {α : Type} (s : Session n) (g : Fin n) (call : Build α) : Except Error α × Session n :=
  let outcome := call.run (s.builder g)
  (outcome.1, { s with builders := s.builders.set g outcome.2 })

/-- What was reported after an earlier state of the session, graph by graph. -/
def reportedSince (after before : Session n) : List Notice :=
  (List.finRange n).flatMap fun g =>
    (after.builder g).journal.toList.drop (before.builder g).journal.size

def allocate (s : Session n) : ResourceId × Session n :=
  (⟨s.nextResource⟩, { s with nextResource := s.nextResource + 1 })

end Session

/-- A request made to a graph directly, with any handles. -/
inductive Request where
  | record (v : Vertex)
  | rebind (var expr : Handle)
  | label (h : Handle) (name : String)
  | setUniform (h : Handle) (value : Value)

inductive Reply (n : Nat) where
  | done
  | node (x : Node n)
  | variable (v : Variable n)
  | texture (t : Texture n)
  | value (v : Value)
  | handle (h : Handle)
  | resource (id : ResourceId)
  deriving DecidableEq

def Request.perform : Request → Build (Reply n)
  | record v => return .handle (← Draft.record v)
  | rebind var expr => do
    Draft.rebind var expr
    return .done
  | label h name => do
    Draft.label h name
    return .done
  | setUniform h value => do
    Build.setUniform h value
    return .done

inductive Call (n : Nat) where
  | uniform (g : Fin n) (value : Value)
  | constant (g : Fin n) (value : Value)
  | attr (g : Fin n) (ty : ValueType) (name : String)
  | colorTexture (g : Fin n) (label : String)
  | dataTexture (g : Fin n) (format label : String)
  | withUv (t : Texture n) (uv : Node n)
  | composite (g : Fin n) (c : Composite)
  | binary (op : BinaryOp) (x : Node n) (y : Operand n)
  | oneMinus (x : Node n)
  | access (x : Node n) (name : String)
  | cast (x : Node n) (target : ValueType)
  | construct (g : Fin n) (target : ValueType) (args : List (Operand n))
  | toVariable (x : Node n)
  | assign (x : Node n) (y : Operand n)
  | label (x : Node n) (name : String)
  | labelVariable (v : Variable n) (name : String)
  | setUniform (g : Fin n) (x : Node n) (value : Value)
  | evaluate (g : Fin n) (x : Node n) (bindings : Bindings)
  | request (g : Fin n) (r : Request)
  | resourceId

namespace Session

/-- Carry out a call: its reply or error, and the session after it. -/
def perform (s : Session n) : Call n → Except Error (Reply n) × Session n
  | .uniform g value => s.on g do return .node (← Node.uniform g value)
  | .constant g value => s.on g do return .node (← Node.constant g value)
  | .attr g ty name => s.on g do return .node (← Node.attr g ty name)
  | .colorTexture g label =>
    let (id, s) := s.allocate
    s.on g do return .texture (← Texture.color g id label)
  | .dataTexture g format label =>
    let (id, s) := s.allocate
    s.on g do return .texture (← Texture.data g id format label)
  | .withUv t uv => s.on t.texel.graph do return .texture (← t.withUv uv)
  | .composite g c => s.on g do return .node (← c.build g)
  | .binary op x y => s.on x.graph do return .node (← x.binary op y)
  | .oneMinus x => s.on x.graph do return .node (← x.oneMinus)
  | .access x name => s.on x.graph do return .node (← x.access name)
  | .cast x target => s.on x.graph do return .node (← x.cast target)
  | .construct g target args => s.on g do return .node (← Node.construct g target args)
  | .toVariable x => s.on x.graph do return .variable (← x.toVariable)
  | .assign x y => s.on x.graph do
    x.assign y
    return .done
  | .label x name => s.on x.graph do return .node (← x.label name)
  | .labelVariable v name => s.on v.node.graph do return .variable (← v.label name)
  | .setUniform g x value => s.on g do
    x.setUniform g value
    return .done
  | .evaluate g x bindings => s.on g do return .value (← x.evaluate g bindings)
  | .request g r => s.on g r.perform
  | .resourceId =>
    let (id, s) := s.allocate
    (.ok (.resource id), s)

end Session

end ShaderExpr
