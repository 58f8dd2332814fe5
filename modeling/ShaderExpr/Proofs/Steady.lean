import ShaderExpr.Proofs.Components
import ShaderExpr.Proofs.Readings
import ShaderExpr.Proofs.Soundness
import ShaderExpr.Proofs.Traces

/-!
# Runs without assignments

Expressions that are made one after the other see the same variables, if there is no assignment in between.
`Session.Steady` is a session that a run leads to, with the calls at its end that left the variables of a graph as they
are.  What these calls have made is evaluated as the operation of the call on what its operands are evaluated to now:
this is `Session.Steady.eval_access`, `Session.Steady.eval_binary` and `Session.Steady.eval_construct`.
-/

namespace ShaderExpr

variable {n : Nat}

/-- The vertex of an operand: that of a node, or a constant for a literal that takes a kind. -/
inductive Operand.At (graph : Graph) (kind : Kind) : Operand n → Handle → Prop where
  | node (x : Node n) : At graph kind (.node x) x.handle
  | literal {x : Literal} {value : Value} {h : Handle} (hvalue : x.unify? kind = some value)
    (hv : graph.vertex? h = some (.constant value)) : At graph kind (.literal x) h

/-- The outcome of an operand where a kind is asked for: a node is evaluated, and a literal that takes the kind has the
value that it takes. -/
def Operand.outcome? (graph : Graph) (b : Bindings) (kind : Kind) : Operand n → Option (Except EvalFailure Value)
  | node x => some (graph.eval b x.handle)
  | literal x => (x.unify? kind).map .ok

namespace Operand

variable {graph graph' : Graph} {kind : Kind} {y : Operand n} {h : Handle}

theorem At.mono (hy : y.At graph kind h) (hg : graph.Grows graph') : y.At graph' kind h := by
  cases hy with
  | node x => exact .node x
  | literal hvalue hv => exact .literal hvalue (hg.stays hv rfl)

theorem At.outcome?_eq (hy : y.At graph kind h) (b : Bindings) : y.outcome? graph b kind = some (graph.eval b h) := by
  cases hy with
  | node x => rfl
  | literal hvalue hv =>
    rw [Graph.eval_constant hv]
    exact congrArg (Option.map Except.ok) hvalue

theorem outcomes_nodes (graph : Graph) (b : Bindings) (kind : Kind) (xs : List (Node n)) :
    (xs.map Operand.node).mapM (outcome? graph b kind) = some (xs.map fun x => graph.eval b x.handle) := by
  rw [List.mapM_map]
  exact List.mapM_pure

/-- Operands that are recorded from a place on, if their constants are. -/
theorem at_handlesFrom {operands : List (Operand n)} {values : List Value}
    (hvalues : List.Forall₂ (fun x value => x.unify? kind = some value) (operands.filterMap literal?) values)
    {next : Nat} (hconstants : ∀ i value, values[i]? = some value →
      graph.vertex? ⟨next + i⟩ = some (.constant value)) :
    List.Forall₂ (At graph kind) operands (handlesFrom next operands) := by
  induction operands generalizing values next with
  | nil => exact .nil
  | cons y operands ih =>
    cases y with
    | node x => exact .cons (.node x) (ih hvalues hconstants)
    | literal x =>
      obtain ⟨value, rest, hvalue, hrest, rfl⟩ := List.forall₂_cons_left_iff.1 hvalues
      refine .cons (.literal hvalue (hconstants 0 value rfl)) (ih hrest ?_)
      intro i w hw
      have := hconstants (i + 1) w hw
      rwa [show next + (i + 1) = next + 1 + i by omega] at this

end Operand

namespace Graph

variable {graph graph' : Graph} {h : Handle}

/-- A vertex that was recorded after the last rebind sees them all. -/
theorem visibleFrom_eq_size (hpoints : ∀ r ∈ graph.rebinds, r.point ≤ h.index) :
    graph.visibleFrom h = graph.rebinds.size := by
  by_contra hne
  have hlt : graph.visibleFrom h < graph.rebinds.size := Nat.lt_of_le_of_ne (graph.visibleFrom_le h) hne
  have hr := Array.getElem?_eq_getElem hlt
  have hsees := (lt_visibleFrom_iff hr).2 (hpoints _ (Array.getElem_mem hlt))
  exact absurd hsees (Nat.lt_irrefl _)

end Graph

/-- What a derivation has recorded: its vertex, which sees all rebinds. -/
structure Derivation.RecordedIn (d : Derivation n) (graph : Graph) (x : Node n) : Prop where
  vertex : ∃ operands, graph.vertex? x.handle = some (d.vertex x.ty operands) ∧
    List.Forall₂ (Operand.At graph d.kind) d.operands operands
  latest : graph.visibleFrom x.handle = graph.rebinds.size

namespace Derivation

variable {d : Derivation n} {graph graph' : Graph} {x : Node n}

/-- It stays, as long as there are no rebinds. -/
theorem RecordedIn.mono (hd : d.RecordedIn graph x) (hvertex : ∀ ty hs, (d.vertex ty hs).isUniform = false)
    (hg : graph.Grows graph') (hrebinds : graph'.rebinds = graph.rebinds) : d.RecordedIn graph' x := by
  obtain ⟨operands, hv, hoperands⟩ := hd.vertex
  refine ⟨⟨operands, hg.stays hv (hvertex _ _), hoperands.imp fun _ _ hy => hy.mono hg⟩, ?_⟩
  rw [hg.visibleFrom_eq (Graph.index_lt_size hv), hd.latest, hrebinds]

theorem Adds.recordedIn {b b' : Builder} (hd : d.Adds b x b') : d.RecordedIn b'.graph x := by
  obtain ⟨values, hvalues, hadds, _, hhandle⟩ := hd
  have hnew := hadds.graph.vertex?_new
  refine ⟨⟨Operand.handlesFrom b.graph.size d.operands, ?_, Operand.at_handlesFrom hvalues ?_⟩, ?_⟩
  · rw [hhandle, hnew, List.getElem?_append_right (by rw [List.length_map]), List.length_map, Nat.sub_self]
    rfl
  · intro i value hvalue
    have hlt : i < (values.map Vertex.constant).length := by
      rw [List.length_map]
      exact (List.getElem?_eq_some_iff.1 hvalue).1
    rw [hnew, List.getElem?_append_left hlt, List.getElem?_map, hvalue]
    rfl
  · have hrebinds : b'.graph.rebinds = b.graph.rebinds :=
      Array.toList_inj.1 (hadds.graph.rebinds.trans (List.append_nil _))
    refine Graph.visibleFrom_eq_size fun r hr => ?_
    rw [hrebinds] at hr
    obtain ⟨i, hi⟩ := Array.mem_iff_getElem?.1 hr
    have := b.graph.point_le i r hi
    rw [hhandle]
    exact Nat.le_trans this (Nat.le_add_right _ _)

end Derivation

theorem Call.isUniform_derivation {c : Call n} {d : Derivation n} (hd : c.derivation? = some d) (ty : ValueType)
    (hs : List Handle) : (d.vertex ty hs).isUniform = false := by
  cases c <;> cases hd <;> rfl

/-- The vertex that a call declares, if it is a constant or an attribute. -/
def Call.input? : Call n → Option (Fin n × Vertex)
  | constant g value => some (g, .constant value)
  | attr g ty name => some (g, .attr ty name)
  | _ => none

theorem Call.isUniform_input {c : Call n} {g : Fin n} {v : Vertex} (hc : c.input? = some (g, v)) :
    v.isUniform = false := by
  cases c <;> cases hc <;> rfl

namespace Session

variable {s : Session n} {x y : Node n} {b : Bindings} {v : Value}

/-- A node is evaluated to a value. -/
def Evaluates (s : Session n) (b : Bindings) (x : Node n) (v : Value) : Prop :=
  (s.perform (.evaluate x.graph x b)).1 = .ok (.value v)

/-- Two nodes are evaluated to the same value, or fail with the same error, for all values of the attributes. -/
def Agree (s : Session n) (x y : Node n) : Prop :=
  ∀ b, (s.perform (.evaluate x.graph x b)).1 = (s.perform (.evaluate y.graph y b)).1

/-- A call is accepted, and makes an expression of a graph, of a type. -/
def Makes (s : Session n) (c : Call n) (g : Fin n) (ty : ValueType) : Prop :=
  ∃ h, (s.perform c).1 = .ok (.node ⟨g, h, ty, false⟩)

theorem evaluates_iff : s.Evaluates b x v ↔ (s.builder x.graph).graph.eval b x.handle = .ok v := by
  unfold Evaluates
  rw [perform_evaluate]
  unfold Graph.evaluate
  cases (s.builder x.graph).graph.eval b x.handle with
  | error failure => exact iff_of_false nofun nofun
  | ok w => simp [Except.map, Except.mapError]

theorem Evaluates.unique {w : Value} (h : s.Evaluates b x v) (h' : s.Evaluates b x w) : v = w :=
  Except.ok.inj ((evaluates_iff.1 h).symm.trans (evaluates_iff.1 h'))

theorem agree_of_eval (h : ∀ b, (s.builder x.graph).graph.eval b x.handle = (s.builder y.graph).graph.eval b y.handle) :
    s.Agree x y := by
  intro b
  rw [perform_evaluate, perform_evaluate]
  unfold Graph.evaluate
  rw [h b]

section

variable {g : Fin n} {ty : ValueType}

theorem makes_binary {op : BinaryOp} (hx : x.graph = g) (hy : y.graph = g) (h : op.Accepts x.ty (.typed y.ty) ty) :
    s.Makes (.binary op x (.node y)) g ty := by
  subst hx
  refine ((decides_binary op ?_).accepted ty).2 ⟨h, Operand.allUnify_singleton.2 ⟨_, rfl⟩⟩
  intro z hz
  cases List.mem_singleton.1 hz
  exact hy

theorem makes_access {name : String} (hx : x.graph = g) (h : x.ty.Accesses name ty) : s.Makes (.access x name) g ty :=
  hx ▸ ((decides_access x name).accepted ty).2 h

theorem makes_cast (hx : x.graph = g) (h : x.ty.Converts ty) : s.Makes (.cast x ty) g ty :=
  hx ▸ ((decides_cast x ty).accepted ty).2 ⟨h, rfl⟩

end

end Session

/-! ### Steady sessions -/

/-- Operations need the nodes that they are given, and nothing else. -/
theorem Call.GivenFrom.of_nodes {held : List (Reply n)} {c : Call n} (typed : c.isTyped = true)
    (hnodes : ∀ x ∈ c.nodes, .node x ∈ held) (hvars : c.vars = []) (htextures : c.textures = []) :
    c.GivenFrom held where
  typed := typed
  nodes x hx := ⟨_, hnodes x hx, List.mem_singleton_self x⟩
  vars := by
    rw [hvars]
    exact List.forall_mem_nil _
  textures := by
    rw [htextures]
    exact List.forall_mem_nil _

namespace Session

/-- A session that a run leads to, with what is held, and the latest calls with their outcomes, newest first; none of
them binds a variable of a graph. -/
inductive Steady (g : Fin n) : Session n → List (Reply n) → List (Event n) → Prop where
  | start {s : Session n} {held : List (Reply n)} (hs : s.Reachable held) : Steady g s held []
  | call {s : Session n} {held : List (Reply n)} {events : List (Event n)} (hs : Steady g s held events) (c : Call n)
    (hc : c.GivenFrom held) (hrebinds : c.rebinds g = false) :
    Steady g (s.perform c).2 ((s.perform c).1.toOption.toList ++ held) (⟨c, (s.perform c).1⟩ :: events)

namespace Steady

variable {g : Fin n} {s : Session n} {held : List (Reply n)} {events : List (Event n)} {e : Event n} {c : Call n}

theorem reachable (hs : s.Steady g held events) : s.Reachable held := by
  induction hs with
  | start hs => exact hs
  | call _ c hc _ ih => exact ih.call c hc

theorem legal (hs : s.Steady g held events) : (s.builder g).graph.Legal :=
  (hs.reachable.invariant.legal g).graph

theorem performed (hs : s.Steady g held events) (he : e ∈ events) :
    ∃ t : Session n, (t.perform e.call).1 = e.outcome := by
  induction hs with
  | start => exact absurd he List.not_mem_nil
  | @call t _ _ _ _ _ _ ih =>
    rcases List.mem_cons.1 he with rfl | he
    · exact ⟨t, rfl⟩
    · exact ih he

/-- What a call was given is still held. -/
theorem given (hs : s.Steady g held events) (he : e ∈ events) : ∀ x ∈ e.call.nodes, ∃ r ∈ held, x ∈ r.nodes := by
  induction hs with
  | start => exact absurd he List.not_mem_nil
  | call _ c hc _ ih =>
    intro x hx
    rcases List.mem_cons.1 he with rfl | he
    · obtain ⟨r, hr, hx⟩ := hc.nodes x hx
      exact ⟨r, List.mem_append_right _ hr, hx⟩
    · obtain ⟨r, hr, hx⟩ := ih he x hx
      exact ⟨r, List.mem_append_right _ hr, hx⟩

/-- What a call has made is held. -/
theorem replied (hs : s.Steady g held events) {x : Node n} (he : ⟨c, .ok (.node x)⟩ ∈ events) : .node x ∈ held := by
  induction hs with
  | start => exact absurd he List.not_mem_nil
  | call _ _ _ _ ih =>
    rcases List.mem_cons.1 he with heq | he
    · obtain ⟨_, houtcome⟩ := Event.mk.inj heq
      rw [← houtcome]
      exact List.mem_cons_self
    · exact List.mem_append_right _ (ih he)

/-- The latest call has made a node. -/
theorem made (hs : s.Steady g held events) (hc : c.GivenFrom held) (hrebinds : c.rebinds g = false) {x : Node n}
    (hreply : (s.perform c).1 = .ok (.node x)) :
    (s.perform c).2.Steady g (.node x :: held) (⟨c, .ok (.node x)⟩ :: events) := by
  have hcall := hs.call c hc hrebinds
  rw [hreply] at hcall
  exact hcall

theorem attr (hs : s.Steady g held events) (ty : ValueType) (name : String) :
    ∃ x : Node n, x.ty = ty ∧
      (s.perform (.attr g ty name)).2.Steady g (.node x :: held) (⟨.attr g ty name, .ok (.node x)⟩ :: events) :=
  ⟨_, rfl, hs.made (c := .attr g ty name) (.of_nil rfl rfl rfl rfl) rfl rfl⟩

/-- A call that is accepted has made a node of its type. -/
theorem makes (hs : s.Steady g held events) (hc : c.GivenFrom held) (hrebinds : c.rebinds g = false) {g' : Fin n}
    {ty : ValueType} (hmakes : s.Makes c g' ty) :
    ∃ x : Node n, x.ty = ty ∧ (s.perform c).2.Steady g (.node x :: held) (⟨c, .ok (.node x)⟩ :: events) := by
  obtain ⟨h, hreply⟩ := hmakes
  exact ⟨⟨g', h, ty, false⟩, rfl, hs.made hc hrebinds hreply⟩

/-- A call that a law decides has made a node of each type that the law allows. -/
theorem decided (hs : s.Steady g held events) (hc : c.GivenFrom held) (hrebinds : c.rebinds g = false) {g' : Fin n}
    {law : ValueType → Prop} {failure : Error} (hdecides : s.Decides c g' law failure) {ty : ValueType}
    (hlaw : law ty) :
    ∃ x : Node n, x.ty = ty ∧ (s.perform c).2.Steady g (.node x :: held) (⟨c, .ok (.node x)⟩ :: events) :=
  hs.makes hc hrebinds ((hdecides.accepted ty).2 hlaw)

/-- What a derivation has recorded is still there. -/
theorem recordedIn (hs : s.Steady g held events) {x : Node n} (he : ⟨c, .ok (.node x)⟩ ∈ events) {d : Derivation n}
    (hd : c.derivation? = some d) (hg : d.graph = g) : d.RecordedIn (s.builder g).graph x := by
  subst hg
  induction hs with
  | start => exact absurd he List.not_mem_nil
  | @call s _ _ _ c' _ hrebinds ih =>
    rcases List.mem_cons.1 he with heq | he
    · obtain ⟨rfl, houtcome⟩ := Event.mk.inj heq
      obtain ⟨y, hy, hadds⟩ := derived_perform hd houtcome.symm
      rcases hy with hy | hy <;> cases hy
      exact hadds.recordedIn
    · have heffect := effect_perform s c' d.graph
      exact (ih he).mono (Call.isUniform_derivation hd) heffect.toExtends.graph (heffect.rebinds_eq hrebinds)

/-- A constant or an attribute that was recorded is still there. -/
theorem input_of_event (hs : s.Steady g held events) {v : Vertex} {x : Node n} (hc : c.input? = some (g, v))
    (he : ⟨c, .ok (.node x)⟩ ∈ events) :
    x.graph = g ∧ x.ty = v.ty ∧ (s.builder g).graph.vertex? x.handle = some v := by
  induction hs with
  | start => exact absurd he List.not_mem_nil
  | @call s _ _ _ c' _ _ ih =>
    rcases List.mem_cons.1 he with heq | he
    · obtain ⟨rfl, houtcome⟩ := Event.mk.inj heq
      cases c with
      | constant | attr =>
        cases hc
        cases houtcome
        refine ⟨rfl, rfl, ?_⟩
        show ((s.on g _).2.builder g).graph.vertex? _ = _
        rw [builder_on_self]
        exact Graph.vertex?_next _ _
      | _ => exact nomatch hc
    · obtain ⟨hgraph, hty, hv⟩ := ih he
      exact ⟨hgraph, hty, (effect_perform s c' g).toExtends.graph.stays hv (Call.isUniform_input hc)⟩

theorem constant_of_event (hs : s.Steady g held events) {value : Value} {x : Node n}
    (he : ⟨.constant g value, .ok (.node x)⟩ ∈ events) :
    x.graph = g ∧ x.ty = value.ty ∧ (s.builder g).graph.vertex? x.handle = some (.constant value) :=
  hs.input_of_event (v := .constant value) rfl he

theorem ty_of_eval (hs : s.Steady g held events) {x : Node n} (hx : x.graph = g) (hheld : ∃ r ∈ held, x ∈ r.nodes)
    {b : Bindings} {v : Value} (heval : (s.builder g).graph.eval b x.handle = .ok v) : v.ty = x.ty := by
  subst hx
  have hbacked := hs.reachable.invariant.node hheld
  rw [Graph.eval_eq_valueAt] at heval
  rcases hs.legal.sound_valueAt b (Graph.visibleFrom_le _ _) hbacked.hasType with ⟨w, hw, hty⟩ | ⟨_, hfailure, _⟩
  · cases hw.symm.trans heval
    exact hty
  · exact absurd (hfailure.symm.trans heval) nofun

theorem ty_of_evaluates (hs : s.Steady g held events) {x : Node n} (hx : x.graph = g) (hheld : ∃ r ∈ held, x ∈ r.nodes)
    {b : Bindings} {v : Value} (hv : s.Evaluates b x v) : v.ty = x.ty := by
  rw [evaluates_iff, hx] at hv
  exact hs.ty_of_eval hx hheld hv

theorem checkAccess_of_event (hs : s.Steady g held events) {x p : Node n} {name : String}
    (he : ⟨.access x name, .ok (.node p)⟩ ∈ events) : p.graph = x.graph ∧ x.ty.checkAccess name = .ok p.ty := by
  obtain ⟨t, ht⟩ := hs.performed he
  obtain ⟨hgraph, haccesses⟩ := (decides_access x name).law_of_node ht
  exact ⟨hgraph, ValueType.checkAccess_iff.2 haccesses⟩

private theorem readsNow (hs : s.Steady g held events) {h : Handle} {v : Vertex}
    (hv : (s.builder g).graph.vertex? h = some v)
    (hlatest : (s.builder g).graph.visibleFrom h = (s.builder g).graph.rebinds.size) :
    ∀ o ∈ v.reads, (s.builder g).graph.ReadsNow h o :=
  fun o ho => ⟨hs.legal.reads_lt hv o ho, .inl hlatest⟩

theorem eval_access (hs : s.Steady g held events) {x p : Node n} {name : String} (hx : x.graph = g)
    (he : ⟨.access x name, .ok (.node p)⟩ ∈ events) (b : Bindings) :
    (s.builder g).graph.eval b p.handle =
      (s.builder g).graph.eval b x.handle >>= fun v => v.access x.handle name p.ty := by
  obtain ⟨⟨_, hv, _⟩, hlatest⟩ := hs.recordedIn he rfl hx
  exact Graph.eval_component hv (hs.readsNow hv hlatest _ (List.mem_singleton_self _)) b

theorem eval_binary (hs : s.Steady g held events) {op : BinaryOp} {x p : Node n} {y : Operand n} (hx : x.graph = g)
    (he : ⟨.binary op x y, .ok (.node p)⟩ ∈ events) (b : Bindings) :
    ∃ right, y.outcome? (s.builder g).graph b x.ty.kind = some right ∧
      (s.builder g).graph.eval b p.handle = (s.builder g).graph.eval b x.handle >>= fun v =>
        right >>= fun w => Value.binary op p.ty v w := by
  obtain ⟨⟨operands, hv, hoperands⟩, hlatest⟩ := hs.recordedIn he rfl hx
  have hreads := hs.readsNow hv hlatest
  obtain ⟨_, _, ⟨⟩, hrest, rfl⟩ := List.forall₂_cons_left_iff.1 hoperands
  obtain ⟨r, _, hr, ⟨⟩, rfl⟩ := List.forall₂_cons_left_iff.1 hrest
  refine ⟨_, hr.outcome?_eq b, ?_⟩
  exact Graph.eval_binary hv (hreads _ List.mem_cons_self) (hreads _ (List.mem_cons_of_mem _ List.mem_cons_self)) b

theorem eval_binary_node (hs : s.Steady g held events) {op : BinaryOp} {x y p : Node n} (hx : x.graph = g)
    (he : ⟨.binary op x (.node y), .ok (.node p)⟩ ∈ events) (b : Bindings) :
    (s.builder g).graph.eval b p.handle = (s.builder g).graph.eval b x.handle >>= fun v =>
      (s.builder g).graph.eval b y.handle >>= fun w => Value.binary op p.ty v w := by
  obtain ⟨_, hright, heval⟩ := hs.eval_binary hx he b
  cases hright
  exact heval

/-- An operation on one node is that operation on what the node is evaluated to. -/
private theorem eval_unary (hs : s.Steady g held events) {op : Op} {kind : Kind} {x p : Node n}
    (hd : c.derivation? = some ⟨g, kind, [.node x], .op op⟩) (he : ⟨c, .ok (.node p)⟩ ∈ events) (b : Bindings) :
    (s.builder g).graph.eval b p.handle =
      (s.builder g).graph.eval b x.handle >>= fun v => op.apply p.ty [v] := by
  obtain ⟨⟨operands, hv, hoperands⟩, hlatest⟩ := hs.recordedIn he hd rfl
  obtain ⟨_, _, ⟨⟩, ⟨⟩, rfl⟩ := List.forall₂_cons_left_iff.1 hoperands
  exact Graph.eval_unary hv (hs.readsNow hv hlatest _ (List.mem_singleton_self _)) b

theorem eval_oneMinus (hs : s.Steady g held events) {x p : Node n} (hx : x.graph = g)
    (he : ⟨.oneMinus x, .ok (.node p)⟩ ∈ events) (b : Bindings) :
    (s.builder g).graph.eval b p.handle =
      (s.builder g).graph.eval b x.handle >>= fun v => Op.oneMinus.apply p.ty [v] := by
  subst hx
  exact hs.eval_unary rfl he b

theorem eval_cast (hs : s.Steady g held events) {x p : Node n} {target : ValueType} (hx : x.graph = g)
    (he : ⟨.cast x target, .ok (.node p)⟩ ∈ events) (b : Bindings) :
    (s.builder g).graph.eval b p.handle =
      (s.builder g).graph.eval b x.handle >>= fun v => Value.rebuild target v.components := by
  subst hx
  exact hs.eval_unary rfl he b

theorem eval_constant (hs : s.Steady g held events) {value : Value} {x : Node n}
    (he : ⟨.constant g value, .ok (.node x)⟩ ∈ events) (b : Bindings) :
    (s.builder g).graph.eval b x.handle = .ok value :=
  Graph.eval_constant (hs.constant_of_event he).2.2 b

/-- An attribute has the value that it is bound to. -/
theorem evaluates_attr (hs : s.Steady g held events) (ty : ValueType) (name : String) {x : Node n}
    (he : ⟨.attr g ty name, .ok (.node x)⟩ ∈ events) {b : Bindings} {v : Value} (hv : b.value ty name = .ok v) :
    s.Evaluates b x v := by
  obtain ⟨hgraph, _, hvertex⟩ := hs.input_of_event rfl he
  rw [evaluates_iff, hgraph, Graph.eval_attr hvertex]
  exact hv

theorem eval_construct (hs : s.Steady g held events) {target : ValueType} {args : List (Operand n)} {p : Node n}
    (he : ⟨.construct g target args, .ok (.node p)⟩ ∈ events) (b : Bindings) :
    ∃ outcomes, args.mapM (Operand.outcome? (s.builder g).graph b target.kind) = some outcomes ∧
      (s.builder g).graph.eval b p.handle = outcomes.mapM id >>= fun values =>
        Value.rebuild target (values.flatMap Value.components) := by
  obtain ⟨⟨operands, hv, hoperands⟩, hlatest⟩ := hs.recordedIn he rfl rfl
  refine ⟨operands.map ((s.builder g).graph.eval b), ?_, ?_⟩
  · rw [mapM_eq_some, List.forall₂_map_right_iff]
    exact hoperands.imp fun _ _ hy => hy.outcome?_eq b
  · rw [Graph.eval_op hv (hs.readsNow hv hlatest), List.mapM_map]
    rfl

/-- Nodes are put together from what they are evaluated to, unless one of them fails. -/
theorem eval_construct_nodes (hs : s.Steady g held events) {target : ValueType} {xs : List (Node n)} {p : Node n}
    (he : ⟨.construct g target (xs.map .node), .ok (.node p)⟩ ∈ events) (b : Bindings) :
    (s.builder g).graph.eval b p.handle =
      (xs.mapM fun x => (s.builder g).graph.eval b x.handle) >>= fun values =>
        Value.rebuild target (values.flatMap Value.components) := by
  obtain ⟨outcomes, houtcomes, heval⟩ := hs.eval_construct he b
  rw [Operand.outcomes_nodes] at houtcomes
  cases houtcomes
  rw [heval, List.mapM_map]
  rfl

end Steady

end Session

end ShaderExpr
