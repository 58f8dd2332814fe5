import ShaderExpr.Proofs.Literals

/-!
# What calls add to a graph

A call that records something adds to what is there: vertices and rebinds after the old ones, label requests before
the older ones.  `Graph.Adds` lists what was added, and `Builder.Adds` says that nothing else changes but the journal.

* A graph that something is added to grows (`Graph.Adds.grows`).
* Operators, accessors, conversions, constructors and new variables are derivations (`Call.derivation?`): they add a
  constant for each literal among their operands, in order, and then one vertex of their own
  (`Session.derived_perform`).
-/

namespace ShaderExpr

variable {n : Nat}

/-- A graph that has more vertices, rebinds and label requests than another. -/
structure Graph.Adds (g : Graph) (vertices : List Vertex) (rebinds : List Rebind) (labels : List (Handle × String))
    (g' : Graph) : Prop where
  vertices : g'.vertices.toList = g.vertices.toList ++ vertices
  rebinds : g'.rebinds.toList = g.rebinds.toList ++ rebinds
  labels : g'.labels = labels ++ g.labels

namespace Graph.Adds

variable {g g' g'' : Graph} {vertices vertices' : List Vertex} {rebinds rebinds' : List Rebind}
  {labels labels' : List (Handle × String)} {h : Handle} {v : Vertex}

theorem refl (g : Graph) : g.Adds [] [] [] g :=
  ⟨(List.append_nil _).symm, (List.append_nil _).symm, rfl⟩

theorem trans (h : g.Adds vertices rebinds labels g') (h' : g'.Adds vertices' rebinds' labels' g'') :
    g.Adds (vertices ++ vertices') (rebinds ++ rebinds') (labels' ++ labels) g'' where
  vertices := by rw [h'.vertices, h.vertices, List.append_assoc]
  rebinds := by rw [h'.rebinds, h.rebinds, List.append_assoc]
  labels := by rw [h'.labels, h.labels, List.append_assoc]

theorem push (g : Graph) (v : Vertex) : g.Adds [v] [] [] (g.push v) :=
  ⟨Array.toList_push, (List.append_nil _).symm, rfl⟩

theorem rebind (g : Graph) (var expr : Handle) : g.Adds [] [⟨var, expr, g.size⟩] [] (g.rebind var expr) :=
  ⟨(List.append_nil _).symm, Array.toList_push, rfl⟩

theorem label (g : Graph) (h : Handle) (name : String) : g.Adds [] [] [(h, name)] (g.label h name) :=
  ⟨(List.append_nil _).symm, (List.append_nil _).symm, rfl⟩

theorem size_eq (h : g.Adds vertices rebinds labels g') : g'.size = g.size + vertices.length := by
  have hlength := congrArg List.length h.vertices
  rw [List.length_append, Array.length_toList, Array.length_toList] at hlength
  exact hlength

theorem vertex?_eq (hadds : g.Adds vertices rebinds labels g') (h : Handle) :
    g'.vertex? h = (g.vertices.toList ++ vertices)[h.index]? := by
  unfold Graph.vertex?
  rw [← hadds.vertices, Array.getElem?_toList]

/-- The new vertices come after the old ones. -/
theorem vertex?_new (hadds : g.Adds vertices rebinds labels g') (i : Nat) :
    g'.vertex? ⟨g.size + i⟩ = vertices[i]? := by
  rw [hadds.vertex?_eq]
  show (g.vertices.toList ++ vertices)[g.vertices.toList.length + i]? = _
  rw [List.getElem?_append_right (Nat.le_add_right _ _), Nat.add_sub_cancel_left]

theorem vertex?_cases (hadds : g.Adds vertices rebinds labels g') (hv : g'.vertex? h = some v) :
    g.vertex? h = some v ∨ g.size ≤ h.index ∧ v ∈ vertices := by
  rcases Nat.lt_or_ge h.index g.size with hlt | hge
  · rw [hadds.vertex?_eq, List.getElem?_append_left hlt, Array.getElem?_toList] at hv
    exact .inl hv
  · obtain ⟨i, hi⟩ := Nat.exists_eq_add_of_le hge
    have hh : h = ⟨g.size + i⟩ := congrArg Handle.mk hi
    rw [hh, hadds.vertex?_new] at hv
    exact .inr ⟨hge, List.mem_of_getElem? hv⟩

/-- A graph grows if rebinds are added at its end only. -/
theorem grows (hadds : g.Adds vertices rebinds labels g') (hpoints : ∀ r ∈ rebinds, g.size ≤ r.point) :
    g.Grows g' where
  vertex := by
    intro h v hv
    refine ⟨v, ?_, .same v⟩
    have hlt := Graph.index_lt_size hv
    rw [hadds.vertex?_eq, List.getElem?_append_left hlt, Array.getElem?_toList]
    exact hv
  rebind := by
    intro i r hr
    have hlt := (Array.getElem?_eq_some_iff.1 hr).1
    rw [← Array.getElem?_toList, hadds.rebinds, List.getElem?_append_left hlt, Array.getElem?_toList]
    exact hr
  point_ge := by
    intro i r hi hr
    rw [← Array.getElem?_toList, hadds.rebinds, List.getElem?_append_right hi] at hr
    exact hpoints r (List.mem_of_getElem? hr)

theorem grows_vertices (hadds : g.Adds vertices [] labels g') : g.Grows g' :=
  hadds.grows (List.forall_mem_nil _)

/-- The label of a vertex stays, or it is one of the new ones. -/
theorem labelOf?_cases (hadds : g.Adds vertices rebinds labels g') (h : Handle) :
    g'.labelOf? h = g.labelOf? h ∨ ∃ name, g'.labelOf? h = some name ∧ (h, name) ∈ labels := by
  unfold Graph.labelOf?
  rw [hadds.labels, List.lookup_append]
  cases hlookup : labels.lookup h with
  | none => exact .inl rfl
  | some name =>
    obtain ⟨before, after, hlist, _⟩ := List.lookup_eq_some_iff.1 hlookup
    refine .inr ⟨name, rfl, ?_⟩
    rw [hlist]
    exact List.mem_append_right before List.mem_cons_self

end Graph.Adds

/-- A builder that differs in what was added to its graph, and in its journal. -/
structure Builder.Adds (b : Builder) (vertices : List Vertex) (rebinds : List Rebind) (labels : List (Handle × String))
    (b' : Builder) : Prop where
  config : b'.config = b.config
  composites : b'.composites = b.composites
  graph : b.graph.Adds vertices rebinds labels b'.graph

namespace Builder.Adds

variable {b b' b'' : Builder} {vertices vertices' : List Vertex} {rebinds rebinds' : List Rebind}
  {labels labels' : List (Handle × String)}

theorem refl (b : Builder) : b.Adds [] [] [] b :=
  ⟨rfl, rfl, .refl b.graph⟩

theorem trans (h : b.Adds vertices rebinds labels b') (h' : b'.Adds vertices' rebinds' labels' b'') :
    b.Adds (vertices ++ vertices') (rebinds ++ rebinds') (labels' ++ labels) b'' :=
  ⟨h'.config.trans h.config, h'.composites.trans h.composites, h.graph.trans h'.graph⟩

theorem noted (h : b.Adds vertices rebinds labels b') (notice : Notice) :
    b.Adds vertices rebinds labels (b'.noted notice) :=
  ⟨h.config, h.composites, h.graph⟩

theorem recorded (b : Builder) (v : Vertex) : b.Adds [v] [] [] (b.recorded v) :=
  ⟨rfl, rfl, .push b.graph v⟩

theorem rebound (b : Builder) (var expr : Handle) : b.Adds [] [⟨var, expr, b.graph.size⟩] [] (b.rebound var expr) :=
  ⟨rfl, rfl, .rebind b.graph var expr⟩

theorem labelled (b : Builder) (h : Handle) (name : String) : b.Adds [] [] [(h, name)] (b.labelled h name) :=
  ⟨rfl, rfl, .label b.graph h name⟩

end Builder.Adds

namespace Operand

def literal? : Operand n → Option Literal
  | node _ => none
  | literal x => some x

/-- The vertices of operands, if the literals among them are recorded in order from `next` on. -/
def handlesFrom (next : Nat) : List (Operand n) → List Handle
  | [] => []
  | node x :: ys => x.handle :: handlesFrom next ys
  | literal _ :: ys => ⟨next⟩ :: handlesFrom (next + 1) ys

/-- Accepted operands add a constant for each literal, in order. -/
theorem adds_allRecordedIn {kind : Kind} {args : List (Operand n)} {sources : List Source}
    (hsources : args.mapM (source? kind) = some sources) (b : Builder) :
    ∃ values, List.Forall₂ (fun x value => x.unify? kind = some value) (args.filterMap literal?) values ∧
      b.Adds (values.map .constant) [] [] (Source.allRecordedIn b sources) ∧
      Source.handlesIn b sources = handlesFrom b.graph.size args := by
  rw [mapM_eq_some] at hsources
  induction hsources generalizing b with
  | nil => exact ⟨[], .nil, .refl b, rfl⟩
  | @cons y source ys rest hsource _ ih =>
    cases y with
    | node x =>
      cases Option.some.inj hsource
      obtain ⟨values, hvalues, hadds, hhandles⟩ := ih b
      exact ⟨values, hvalues, hadds, congrArg (x.handle :: ·) hhandles⟩
    | literal x =>
      obtain ⟨value, hvalue, rfl⟩ := Option.map_eq_some_iff.1 hsource
      obtain ⟨values, hvalues, hadds, hhandles⟩ := ih (b.recorded (.constant value))
      refine ⟨value :: values, .cons hvalue hvalues, (Builder.Adds.recorded b _).trans hadds, ?_⟩
      have hsize : (b.recorded (.constant value)).graph.size = b.graph.size + 1 := Graph.size_push _ _
      rw [hsize] at hhandles
      exact congrArg (b.graph.next :: ·) hhandles

end Operand

/-- A call that makes one vertex out of operands; its literals take a kind. -/
structure Derivation (n : Nat) where
  graph : Fin n
  kind : Kind
  operands : List (Operand n)
  /-- The vertex of the call's own, of a type and over the vertices of the operands. -/
  vertex : ValueType → List Handle → Vertex

def Derivation.literals (d : Derivation n) : List Literal :=
  d.operands.filterMap Operand.literal?

def Call.derivation? : Call n → Option (Derivation n)
  | binary op x y => some ⟨x.graph, x.ty.kind, [.node x, y], .op (.binary op)⟩
  | oneMinus x => some ⟨x.graph, x.ty.kind, [.node x], .op .oneMinus⟩
  | access x name => some ⟨x.graph, x.ty.kind, [.node x], fun ty _ => .component x.handle name ty⟩
  | cast x target => some ⟨x.graph, x.ty.kind, [.node x], .op (.cast target)⟩
  | construct g target args => some ⟨g, target.kind, args, .op (.construct target)⟩
  | toVariable x => some ⟨x.graph, x.ty.kind, [.node x], fun ty _ => .var ty x.handle⟩
  | _ => none

/-- A derivation adds a constant for each literal, in order, and then the vertex of a node. -/
def Derivation.Adds (d : Derivation n) (b : Builder) (x : Node n) (b' : Builder) : Prop :=
  ∃ values, List.Forall₂ (fun y value => y.unify? d.kind = some value) d.literals values ∧
    b.Adds (values.map .constant ++ [d.vertex x.ty (Operand.handlesFrom b.graph.size d.operands)]) [] [] b' ∧
    x.graph = d.graph ∧ x.handle = ⟨b.graph.size + values.length⟩

theorem Derivation.adds_of_sources (d : Derivation n) (b : Builder) {sources : List Source}
    (hsources : d.operands.mapM (Operand.source? d.kind) = some sources) (ty : ValueType) :
    d.Adds b (Node.nextIn (Source.allRecordedIn b sources) d.graph ty)
      ((Source.allRecordedIn b sources).recorded (d.vertex ty (Source.handlesIn b sources))) := by
  obtain ⟨values, hvalues, hadds, hhandles⟩ := Operand.adds_allRecordedIn hsources b
  refine ⟨values, hvalues, ?_, rfl, ?_⟩
  · rw [← hhandles]
    exact hadds.trans (.recorded _ _)
  · have hsize := hadds.graph.size_eq
    rw [List.length_map] at hsize
    exact congrArg Handle.mk hsize

namespace Session

variable {s : Session n}

/-- A call that a check decides is a derivation if it records the operands that the check found. -/
private theorem derived_of_checked {call : Build (Node n)} {σ : Type} {check : Except Rejection σ}
    {accepted : σ → Node n × Builder} {g : Fin n} {kind : Kind} {operands : List (Operand n)}
    {vertex : ValueType → List Handle → Vertex} {r : Reply n}
    (hr : (s.on g (call >>= fun z => pure (Reply.node z))).1 = .ok r)
    (hrun : call.run (s.builder g) = Build.checked (s.builder g) check accepted)
    (hsources : ∀ x, check = .ok x → ∃ ty sources, operands.mapM (Operand.source? kind) = some sources ∧
      accepted x = (Node.nextIn (Source.allRecordedIn (s.builder g) sources) g ty,
        (Source.allRecordedIn (s.builder g) sources).recorded (vertex ty (Source.handlesIn (s.builder g) sources)))) :
    ∃ z, (r = .node z ∨ r = .variable ⟨z⟩) ∧ Derivation.Adds ⟨g, kind, operands, vertex⟩ (s.builder g) z
      ((s.on g (call >>= fun z => pure (Reply.node z))).2.builder g) := by
  obtain ⟨z, hz, rfl⟩ := Build.exists_of_map (Prod.ext hr rfl)
  obtain ⟨x, hx, haccepted⟩ := Build.exists_of_checked (hrun.symm.trans hz)
  obtain ⟨ty, sources, hsome, hafter⟩ := hsources x hx
  obtain ⟨hnode, hbuilder⟩ := Prod.mk.inj (hafter.symm.trans haccepted)
  refine ⟨z, .inl rfl, ?_⟩
  have hadds := Derivation.adds_of_sources ⟨g, kind, operands, vertex⟩ (s.builder g) hsome ty
  rw [hnode, hbuilder] at hadds
  rw [builder_on_self]
  exact hadds

/-- An accepted derivation adds its constants and its vertex to its graph, and hands out the node of that vertex. -/
theorem derived_perform {c : Call n} {d : Derivation n} (hd : c.derivation? = some d) {r : Reply n}
    (hr : (s.perform c).1 = .ok r) :
    ∃ x, (r = .node x ∨ r = .variable ⟨x⟩) ∧ d.Adds (s.builder d.graph) x ((s.perform c).2.builder d.graph) := by
  have hone : ∀ {kind : Kind} {x : Node n}, [Operand.node x].mapM (Operand.source? kind) = some [.vertex x.handle] :=
    fun {_ _} => mapM_eq_some.2 (.cons rfl .nil)
  cases c with
  | binary op x y =>
    cases hd
    refine derived_of_checked hr (Node.run_binary _ x y op) ?_
    rintro ⟨ty, source⟩ hcheck
    have hsource := (Node.checkBinary_eq_ok.1 hcheck).2.2
    exact ⟨ty, [.vertex x.handle, source], mapM_eq_some.2 (.cons rfl (.cons hsource .nil)), rfl⟩
  | oneMinus x =>
    cases hd
    exact derived_of_checked hr (Node.run_oneMinus _ x) fun ty _ => ⟨ty, _, hone, rfl⟩
  | access x name =>
    cases hd
    exact derived_of_checked hr (Node.run_access _ x name) fun ty _ => ⟨ty, _, hone, rfl⟩
  | cast x target =>
    cases hd
    exact derived_of_checked hr (Node.run_cast _ x target) fun _ _ => ⟨target, _, hone, rfl⟩
  | construct g target args =>
    cases hd
    refine derived_of_checked hr (Node.run_construct _ g target args) ?_
    intro sources hcheck
    exact ⟨target, sources, (Node.checkConstruct_eq_ok.1 hcheck).2.2, rfl⟩
  | toVariable x =>
    cases hd
    cases hr
    obtain ⟨values, hvalues, hadds, hgraph, hhandle⟩ := Derivation.adds_of_sources
      ⟨x.graph, x.ty.kind, [.node x], fun ty _ => .var ty x.handle⟩ (s.builder x.graph) hone x.ty
    refine ⟨_, .inr rfl, values, hvalues, ?_, hgraph, hhandle⟩
    show Builder.Adds _ _ _ _ ((s.on x.graph _).2.builder x.graph)
    rw [builder_on_self]
    -- the new variable is announced
    exact hadds.noted _
  | _ => exact absurd hd nofun

end Session

end ShaderExpr
