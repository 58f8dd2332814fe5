import ShaderExpr.Proofs.Composites

/-!
# Runs of a session

A user of a session holds what its calls have handed out, and gives it to later calls: to calls on any graph,
and also to calls that are rejected.  `Session.Reachable` says which sessions such runs lead to, from any
configurations, with what is held then.  `Session.run` carries out a list of calls, if each is given what was handed
out before it (`Session.Reachable.run`).

Calls take steps on their graph (`Session.moves_perform`), so that in a reachable session every graph is legal
and everything held is backed (`Session.Reachable.invariant`).
-/

namespace ShaderExpr

variable {n : Nat}

def Operand.nodes : Operand n → List (Node n)
  | node x => [x]
  | literal _ => []

/-- The nodes that a reply hands out; a variable is also handed out as an expression. -/
def Reply.nodes : Reply n → List (Node n)
  | .node x => [x]
  | .variable v => [v.node, v.toExpr]
  | .texture t => [t.texel, t.uv]
  | _ => []

namespace Call

def nodes : Call n → List (Node n)
  | withUv _ x | oneMinus x | access x _ | cast x _ | toVariable x | label x _ | setUniform _ x _
  | evaluate _ x _ => [x]
  | binary _ x y | assign x y => x :: y.nodes
  | construct _ _ args => args.flatMap Operand.nodes
  | _ => []

def vars : Call n → List (Variable n)
  | labelVariable v _ => [v]
  | _ => []

def textures : Call n → List (Texture n)
  | withUv t _ => [t]
  | _ => []

/-- A call is typed, unless it is a request made to a graph directly, with any handles. -/
def isTyped : Call n → Bool
  | request .. => false
  | _ => true

/-- A typed call is given what was handed out before. -/
structure GivenFrom (held : List (Reply n)) (c : Call n) : Prop where
  typed : c.isTyped = true
  nodes : ∀ x ∈ c.nodes, ∃ r ∈ held, x ∈ r.nodes
  vars : ∀ v ∈ c.vars, .variable v ∈ held
  textures : ∀ t ∈ c.textures, .texture t ∈ held

instance (held : List (Reply n)) (c : Call n) : Decidable (c.GivenFrom held) :=
  decidable_of_iff
    (c.isTyped = true ∧ (∀ x ∈ c.nodes, ∃ r ∈ held, x ∈ r.nodes) ∧ (∀ v ∈ c.vars, .variable v ∈ held) ∧
      ∀ t ∈ c.textures, .texture t ∈ held)
    ⟨fun ⟨typed, nodes, vars, textures⟩ => ⟨typed, nodes, vars, textures⟩,
      fun hc => ⟨hc.typed, hc.nodes, hc.vars, hc.textures⟩⟩

/-- Inputs need nothing that was handed out before. -/
theorem GivenFrom.of_nil {held : List (Reply n)} {c : Call n} (typed : c.isTyped = true) (hnodes : c.nodes = [])
    (hvars : c.vars = []) (htextures : c.textures = []) : c.GivenFrom held where
  typed := typed
  nodes := by
    rw [hnodes]
    exact fun _ hx => absurd hx List.not_mem_nil
  vars := by
    rw [hvars]
    exact fun _ hv => absurd hv List.not_mem_nil
  textures := by
    rw [htextures]
    exact fun _ ht => absurd ht List.not_mem_nil

end Call

namespace Session

/-- The sessions that typed calls lead to, with the replies of the accepted ones, newest first. -/
inductive Reachable : Session n → List (Reply n) → Prop where
  | start (configs : Vector Config n) : Reachable (ofConfigs configs) []
  | call {s : Session n} {held : List (Reply n)} (hs : Reachable s held) (c : Call n) (hc : c.GivenFrom held) :
    Reachable (s.perform c).2 ((s.perform c).1.toOption.toList ++ held)

/-- Carry out calls, the first of which is the head of the list: the session after them, with what is held then.  There
is none if one of them is given something that was not handed out before. -/
def run (s : Session n) (held : List (Reply n)) : List (Call n) → Option (Session n × List (Reply n))
  | [] => some (s, held)
  | c :: calls =>
    if c.GivenFrom held then (s.perform c).2.run ((s.perform c).1.toOption.toList ++ held) calls else none

theorem Reachable.run {s t : Session n} {held held' : List (Reply n)} {calls : List (Call n)} (hs : s.Reachable held)
    (hrun : s.run held calls = some (t, held')) : t.Reachable held' := by
  induction calls generalizing s held with
  | nil =>
    cases hrun
    exact hs
  | cons c calls ih =>
    obtain ⟨hc, hrest⟩ := Option.ite_none_right_eq_some.1 hrun
    exact ih (hs.call c hc) hrest

/-! ### One call -/

variable {s : Session n} {g : Fin n}

theorem builder_ofConfigs (configs : Vector Config n) (g : Fin n) :
    (ofConfigs configs).builder g = Builder.ofConfig (configs.get g) :=
  Vector.getElem_map _ _

theorem builder_on_self (s : Session n) (g : Fin n) (call : Build (Reply n)) :
    (s.on g call).2.builder g = (call.run (s.builder g)).2 :=
  Vector.getElem_set_self _

theorem builder_on_ne {g' : Fin n} (hg : g ≠ g') (call : Build (Reply n)) :
    (s.on g call).2.builder g' = s.builder g' :=
  Vector.getElem_set_ne g.isLt g'.isLt fun h => hg (Fin.ext h)

end Session

def Reply.BackedBy (g : Fin n) (r : Reply n) (graph : Graph) : Prop :=
  match r with
  | .node x => x.BackedBy g graph
  | .variable v => v.node.BackedBy g graph
  | .texture t => t.BackedBy g graph
  | _ => True

/-- What a reply hands out is backed by the graphs of a session. -/
def Reply.Backed (r : Reply n) (s : Session n) : Prop :=
  match r with
  | .node x => x.Backed (s.builder x.graph).graph
  | .variable v => v.node.Backed (s.builder v.node.graph).graph
  | .texture t => t.Backed (s.builder t.texel.graph).graph
  | _ => True

namespace Reply

variable {r : Reply n} {s s' : Session n} {g : Fin n}

theorem BackedBy.backed (hr : r.BackedBy g (s.builder g).graph) : r.Backed s := by
  match r with
  | .node x | .variable x | .texture x =>
    obtain ⟨rfl, hx⟩ := hr
    exact hx
  | .done | .value _ | .handle _ | .resource _ => trivial

theorem Backed.mono (hr : r.Backed s) (hs : ∀ g, (s.builder g).graph.Grows (s'.builder g).graph) :
    r.Backed s' := by
  match r with
  | .node x => exact Node.Backed.mono hr (hs _)
  | .variable v => exact Node.Backed.mono hr (hs _)
  | .texture t => exact Texture.Backed.mono hr (hs _)
  | .done | .value _ | .handle _ | .resource _ => trivial

theorem Backed.nodes (hr : r.Backed s) : ∀ x ∈ r.nodes, x.Backed (s.builder x.graph).graph := by
  intro x hx
  match r with
  | .node y =>
    rw [List.mem_singleton.1 hx]
    exact hr
  | .variable v =>
    rcases List.mem_pair.1 hx with rfl | rfl
    · exact hr
    · exact Node.Backed.toExpr hr
  | .texture t =>
    have ht : t.Backed (s.builder t.texel.graph).graph := hr
    rcases List.mem_pair.1 hx with rfl | rfl
    · exact ht.texel
    · rw [ht.uv_graph]
      exact ht.uv
  | .done | .value _ | .handle _ | .resource _ => exact absurd hx List.not_mem_nil

end Reply

namespace Session

/-- Every graph is legal, and what is held is backed. -/
structure Invariant (s : Session n) (held : List (Reply n)) : Prop where
  legal : ∀ g, (s.builder g).Legal
  backed : ∀ r ∈ held, r.Backed s

/-- The graphs of a session take steps, and the reply is backed if there is one. -/
structure Moves (s : Session n) (outcome : Except Error (Reply n) × Session n) : Prop where
  steps : ∀ g, (s.builder g).Steps (outcome.2.builder g)
  reply : ∀ r, outcome.1 = .ok r → r.Backed outcome.2

variable {s : Session n} {g : Fin n} {held : List (Reply n)}

/-- A call on one graph leaves the others alone. -/
theorem moves_on {call : Build (Reply n)} (hcall : call.Meets (s.builder g) (Reply.BackedBy g)) :
    s.Moves (s.on g call) where
  steps g' := by
    by_cases hg : g = g'
    · subst hg
      rw [builder_on_self]
      exact hcall.1
    · rw [builder_on_ne hg]
      exact .refl _
  reply r hr := by
    refine Reply.BackedBy.backed (g := g) ?_
    rw [builder_on_self]
    exact hcall.2 r hr

namespace Invariant

theorem node (hs : s.Invariant held) {x : Node n} (hx : ∃ r ∈ held, x ∈ r.nodes) :
    x.Backed (s.builder x.graph).graph := by
  obtain ⟨r, hr, hx⟩ := hx
  exact (hs.backed r hr).nodes x hx

theorem operand (hs : s.Invariant held) {y : Operand n} (hy : ∀ x ∈ y.nodes, ∃ r ∈ held, x ∈ r.nodes)
    (g : Fin n) : y.Backed g (s.builder g).graph := by
  rintro x rfl rfl
  exact hs.node (hy x List.mem_cons_self)

end Invariant

private theorem moves_allocate {outcome : Except Error (Reply n) × Session n} (h : s.allocate.2.Moves outcome) :
    s.Moves outcome :=
  ⟨h.steps, h.reply⟩

/-- A typed call that is given what was handed out moves the session. -/
theorem moves_perform (hs : s.Invariant held) {c : Call n} (hc : c.GivenFrom held) : s.Moves (s.perform c) := by
  have hnode : ∀ x ∈ c.nodes, x.Backed (s.builder x.graph).graph := fun x hx => hs.node (hc.nodes x hx)
  have hoperand : ∀ {y : Operand n} (g : Fin n), (∀ x ∈ y.nodes, x ∈ c.nodes) → y.Backed g (s.builder g).graph :=
    fun g hy => hs.operand (fun x hx => hc.nodes x (hy x hx)) g
  cases c with
  | uniform g value =>
    refine moves_on (.map (.lift ?_ ⟨rfl, .nextIn _ _ rfl rfl⟩))
    exact (Builder.Steps.single (.record (.uniform value))).tail (.note _)
  | constant g value =>
    refine moves_on (.map (.lift ?_ ⟨rfl, .nextIn _ _ rfl rfl⟩))
    exact .single (.record (.constant value))
  | attr g ty name =>
    refine moves_on (.map (.lift ?_ ⟨rfl, .nextIn _ _ rfl rfl⟩))
    exact (Builder.Steps.single (.record (.attr ty name))).tail (.note _)
  | colorTexture g label =>
    exact moves_allocate (moves_on (.map (Texture.meets_color g _ label (hs.legal g))))
  | dataTexture g format label =>
    exact moves_allocate (moves_on (.map (Texture.meets_data g _ format label (hs.legal g))))
  | withUv t x =>
    have ht : t.Backed (s.builder t.texel.graph).graph := hs.backed _ (hc.textures t List.mem_cons_self)
    exact moves_on (.map (Texture.meets_withUv ht (hoperand _ fun _ hx => hx)))
  | composite g c =>
    refine moves_on (.map (.of_returns ((c.returns_build g (hs.legal g)).mono ?_)))
    intro x b hx
    have htyped := hx.typed (hs.legal g)
    exact ⟨hx.1, htyped.graph_eq, htyped.backed⟩
  | binary op x y =>
    have hy := hoperand x.graph fun z hz => List.mem_cons_of_mem x hz
    exact moves_on (.map (Node.meets_binary op (hnode x List.mem_cons_self) hy))
  | oneMinus x => exact moves_on (.map (Node.meets_oneMinus (hnode x List.mem_cons_self)))
  | access x name => exact moves_on (.map (Node.meets_access name (hnode x List.mem_cons_self)))
  | cast x target => exact moves_on (.map (Node.meets_cast target (hnode x List.mem_cons_self)))
  | construct g target args =>
    have hargs : ∀ y ∈ args, y.Backed g (s.builder g).graph := by
      intro y hy
      exact hoperand g fun x hx => List.mem_flatMap.2 ⟨y, hy, hx⟩
    exact moves_on (.map (Node.meets_construct target hargs))
  | toVariable x =>
    have hx := hnode x List.mem_cons_self
    -- the one call that hands out a variable; its vertex is the one that was recorded
    refine moves_on (.map (.lift ?_ ⟨rfl, ?_⟩))
    · exact (Builder.Steps.single (.record (.var hx.hasType))).tail (.note _)
    · exact ⟨.of_next _ rfl, fun _ => ⟨x.handle, Graph.vertex?_next _ _⟩⟩
  | assign x y =>
    have hy := hoperand x.graph fun z hz => List.mem_cons_of_mem x hz
    exact moves_on (.map (Node.meets_assign (hnode x List.mem_cons_self) hy))
  | label x name =>
    have hx := hnode x List.mem_cons_self
    refine moves_on (.map (.lift (.single (.label x.handle name)) ⟨rfl, hx.toExpr.mono ?_⟩))
    exact Graph.grows_label _ _ _
  | labelVariable v name =>
    have hv : v.node.Backed (s.builder v.node.graph).graph := hs.backed _ (hc.vars v List.mem_cons_self)
    refine moves_on (.map (.lift (.single (.label v.node.handle name)) ⟨rfl, hv.mono ?_⟩))
    exact Graph.grows_label _ _ _
  | setUniform g x value => exact moves_on (.map (Node.meets_setUniform value))
  | evaluate g x bindings => exact moves_on (.map (Node.meets_evaluate bindings))
  | request g r => exact absurd hc.typed Bool.false_ne_true
  | resourceId =>
    refine ⟨?_, ?_⟩
    · intro g
      exact .refl _
    · intro r hr
      cases hr
      trivial

namespace Reachable

theorem invariant (hs : s.Reachable held) : s.Invariant held := by
  induction hs with
  | start configs =>
    refine ⟨?_, ?_⟩
    · intro g
      rw [builder_ofConfigs]
      exact .ofConfig _
    · intro r hr
      exact absurd hr List.not_mem_nil
  | @call s held hs c hc ih =>
    have hmoves := moves_perform ih hc
    refine ⟨?_, ?_⟩
    · intro g
      exact (ih.legal g).steps (hmoves.steps g)
    · intro r hr
      -- the reply of the call, if there is one, or what was held before
      rcases List.mem_append.1 hr with hr | hr
      · cases hreply : (s.perform c).1 with
        | ok reply =>
          rw [hreply] at hr
          rw [List.mem_singleton.1 hr]
          exact hmoves.reply reply hreply
        | error e =>
          rw [hreply] at hr
          exact absurd hr List.not_mem_nil
      · exact (ih.backed r hr).mono fun g => (hmoves.steps g).grows

/-- Nothing illegal is recorded in any run, and textures are read only by sampling and fetching, as their first
operand. -/
theorem legal_graph (hs : s.Reachable held) (g : Fin n) :
    (s.builder g).graph.Legal ∧
      ∀ {h t : Handle} {v : Vertex} {kind : TextureKind} {info : TextureInfo},
        (s.builder g).graph.vertex? h = some v → t ∈ v.reads →
          (s.builder g).graph.vertex? t = some (.texture kind info) →
            ∃ op uv, (op = .sample ∨ op = .fetch) ∧ v = .op op info.texel [t, uv] := by
  have hlegal := (hs.invariant.legal g).graph
  exact ⟨hlegal, fun hv ht htexture => (hlegal.vertex hv).op_of_reads_texture ht htexture⟩

end Reachable

/-- A color texture of the first of two graphs is multiplied by a literal. -/
def tinted : Session 2 :=
  (((ofConfigs (Vector.replicate 2 .standard)).perform (.colorTexture 0 "albedo")).2.perform
    (.binary .mul ⟨0, ⟨2⟩, .vec4, false⟩ (.literal ⟨2.0⟩))).2

theorem reachable_tinted : ∃ held, tinted.Reachable held ∧ ∃ r ∈ held, ⟨0, ⟨2⟩, .vec4, false⟩ ∈ r.nodes := by
  have hstart : (ofConfigs (Vector.replicate 2 .standard)).Reachable [] := .start _
  have htexture := hstart.call (.colorTexture 0 "albedo") (by decide)
  have hproduct := htexture.call (.binary .mul ⟨0, ⟨2⟩, .vec4, false⟩ (.literal ⟨2.0⟩)) (by decide +kernel)
  exact ⟨_, hproduct, by decide +kernel⟩

theorem legal_graph_tinted : (tinted.builder 0).graph.Legal := by
  obtain ⟨held, hreachable, _⟩ := reachable_tinted
  exact (Reachable.legal_graph hreachable 0).1

end Session

end ShaderExpr
