import ShaderExpr.Proofs.WellKnown

/-!
# Effects of calls

`Call.Effect` tells what a call can do to a graph of a session, whatever the session, the call and its answer are:
something is added at the end, an input gets another value, composites are built, or a texture is declared.

It follows that a graph and its composites are kept by every call (`Call.Effect.toExtends`, `Call.Effect.shares`), and
that the record of a graph is append-only, in the sense of `Call.Appends`: this is `Session.appends_perform`.
-/

namespace ShaderExpr

variable {n : Nat} {b b' : Builder} {g : Fin n} {c : Call n} {id : ResourceId}

namespace Call

/-- The vertex of a graph that a call names. -/
def name? (g : Fin n) : Call n → Option (Handle × String)
  | label x name => if x.graph = g then some (x.handle, name) else none
  | labelVariable v name => if v.node.graph = g then some (v.node.handle, name) else none
  | request g' (.label h name) => if g' = g then some (h, name) else none
  | _ => none

/-- The vertex of a graph that a call gives a value to. -/
def set? (g : Fin n) : Call n → Option (Handle × Value)
  | setUniform g' x value => if g' = g then some (x.handle, value) else none
  | request g' (.setUniform h value) => if g' = g then some (h, value) else none
  | _ => none

/-- A call binds a variable of a graph to another expression. -/
def rebinds (g : Fin n) : Call n → Bool
  | assign x _ => x.graph = g
  | request g' (.rebind _ _) => g' = g
  | _ => false

/-- The texture that a call declares, with the next identity of its session. -/
def declares? (id : ResourceId) : Call n → Option (Fin n × TextureInfo)
  | colorTexture g name => some (g, ⟨id, name, none, true, .vec4⟩)
  | dataTexture g format name => some (g, ⟨id, name, some format, false, texelType format⟩)
  | _ => none

/-- What a call does to a graph. -/
inductive Effect (c : Call n) (id : ResourceId) (g : Fin n) (b b' : Builder) : Prop where
  | adds {vertices : List Vertex} {rebinds : List Rebind} {labels : List (Handle × String)}
    (hadds : b.Adds vertices rebinds labels b')
    (htextures : c.isTyped = true → ∀ v ∈ vertices, v.isTexture = false)
    (hrebinds : rebinds = [] ∨ c.rebinds g = true ∧ ∃ var expr, rebinds = [⟨var, expr, b'.graph.size⟩])
    (hlabels : ∀ entry ∈ labels, c.name? g = some entry)
  | sets {h : Handle} {value : Value} (hset : c.set? g = some (h, value)) (config : b'.config = b.config)
    (composites : b'.composites = b.composites) (graph : b.graph.setUniform h value = .ok b'.graph)
  | builds {d : Composite} (hc : c = .composite g d) (hbuilds : b.Builds d.needs b')
  | declares {info : TextureInfo} {b₁ b₂ : Builder} {uv : Handle} (hc : c.declares? id = some (g, info))
    (htexture : b.Adds [.texture info.kind info] [] [] b₁) (huv : b₁.Builds [.uv] b₂)
    (hread : b₂.Adds [.op (if info.filtered then .sample else .fetch) info.texel [b.graph.next, uv]] [] [] b')

namespace Effect

theorem refl (c : Call n) (id : ResourceId) (g : Fin n) (b : Builder) : c.Effect id g b b :=
  .adds (.refl b) (fun _ => List.forall_mem_nil _) (.inl rfl) (List.forall_mem_nil _)

theorem noted (c : Call n) (id : ResourceId) (g : Fin n) (b : Builder) (notice : Notice) :
    c.Effect id g b (b.noted notice) :=
  .adds ((Builder.Adds.refl b).noted notice) (fun _ => List.forall_mem_nil _) (.inl rfl) (List.forall_mem_nil _)

/-- Only vertices are added that are no textures. -/
theorem of_adds {vertices : List Vertex} (hadds : b.Adds vertices [] [] b')
    (hvertices : ∀ v ∈ vertices, v.isTexture = false) : c.Effect id g b b' :=
  .adds hadds (fun _ => hvertices) (.inl rfl) (List.forall_mem_nil _)

theorem recorded {v : Vertex} (hv : v.isTexture = false) : c.Effect id g b (b.recorded v) :=
  of_adds (.recorded b v) (List.forall_mem_singleton.2 hv)

theorem recorded_noted {v : Vertex} (hv : v.isTexture = false) (notice : Notice) :
    c.Effect id g b ((b.recorded v).noted notice) :=
  of_adds ((Builder.Adds.recorded b v).noted notice) (List.forall_mem_singleton.2 hv)

/-- A vertex is added after its operands. -/
theorem recorded_after {vertices : List Vertex} {v : Vertex} (hadds : b.Adds vertices [] [] b')
    (hvertices : ∀ v ∈ vertices, v.isTexture = false) (hv : v.isTexture = false) :
    c.Effect id g b (b'.recorded v) :=
  of_adds (hadds.trans (.recorded b' v)) (List.forall_mem_append.2 ⟨hvertices, List.forall_mem_singleton.2 hv⟩)

theorem labelled {h : Handle} {name : String} (hname : c.name? g = some (h, name)) :
    c.Effect id g b (b.labelled h name) :=
  .adds (.labelled b h name) (fun _ => List.forall_mem_nil _) (.inl rfl) (List.forall_mem_singleton.2 hname)

/-- What is added has a place after what is there. -/
theorem toExtends (h : c.Effect id g b b') : b.Extends b' := by
  cases h with
  | adds hadds _ hrebinds _ =>
    refine ⟨hadds.config, hadds.graph.grows ?_, fun hc => (congrFun hadds.composites _).trans hc⟩
    intro r hr
    rcases hrebinds with rfl | ⟨_, var, expr, rfl⟩
    · exact absurd hr List.not_mem_nil
    · rw [List.mem_singleton.1 hr, hadds.graph.size_eq]
      exact Nat.le_add_right _ _
  | sets _ config composites graph =>
    exact ⟨config, Graph.grows_setUniform graph, fun hc => (congrFun composites _).trans hc⟩
  | builds _ hbuilds => exact hbuilds.toExtends
  | declares _ htexture huv hread =>
    exact (htexture.toExtends.trans huv.toExtends).trans hread.toExtends

theorem shares (h : c.Effect id g b b') (hb : b.Shares) : b'.Shares := by
  have hext := h.toExtends
  cases h with
  | adds hadds => exact hb.mono hext hadds.composites
  | sets _ _ composites _ => exact hb.mono hext composites
  | builds _ hbuilds => exact hbuilds.shares hb
  | declares _ htexture huv hread =>
    have hb₂ := huv.shares (hb.mono htexture.toExtends htexture.composites)
    exact hb₂.mono hread.toExtends hread.composites

end Effect

end Call

theorem Build.builder_run_map {α β : Type} (call : Build α) (f : α → β) (b : Builder) :
    ((call >>= fun a => pure (f a)).run b).2 = (call.run b).2 := by
  rw [Build.run_bind]
  rcases call.run b with ⟨e | a, b'⟩ <;> rfl

namespace Session

variable {s : Session n}

/-- A call on one graph leaves the others alone. -/
private theorem effect_on {g' : Fin n} {call : Build (Reply n)}
    (hcall : g' = g → c.Effect id g (s.builder g) (call.run (s.builder g)).2) :
    c.Effect id g (s.builder g) ((s.on g' call).2.builder g) := by
  by_cases hg : g' = g
  · subst hg
    rw [builder_on_self]
    exact hcall rfl
  · rw [builder_on_ne hg]
    exact .refl c id g _

private theorem effect_map {g' : Fin n} {α : Type} {call : Build α} {f : α → Reply n}
    (hcall : g' = g → c.Effect id g (s.builder g) (call.run (s.builder g)).2) :
    c.Effect id g (s.builder g) ((s.on g' (call >>= fun a => pure (f a))).2.builder g) := by
  refine effect_on fun hg => ?_
  rw [Build.builder_run_map]
  exact hcall hg

private theorem effect_checked {α σ : Type} {call : Build α} {check : Except Rejection σ} {accepted : σ → α × Builder}
    (hrun : call.run b = Build.checked b check accepted)
    (hok : ∀ x, check = .ok x → c.Effect id g b (accepted x).2) : c.Effect id g b (call.run b).2 := by
  rw [hrun]
  cases check with
  | ok x => exact hok x rfl
  | error reason => exact .noted c id g b _

private theorem effect_declare {info : TextureInfo} (hc : c.declares? id = some (g, info)) (b : Builder) :
    c.Effect id g b ((Texture.declare g info.kind info).run b).2 := by
  have htexture := (Builder.Adds.recorded b (.texture info.kind info)).noted
    (.textureDeclared b.graph.next info.kind info)
  have huv := Composite.kept_buildUv g (((b.recorded (.texture info.kind info)).noted
    (.textureDeclared b.graph.next info.kind info)))
  exact .declares hc htexture huv.1 (.recorded _ _)

private theorem effect_setUniform {h : Handle} {value : Value} (hc : c.set? g = some (h, value)) :
    c.Effect id g b ((Build.setUniform h value).run b).2 := by
  rw [Build.run_setUniform]
  cases hset : b.graph.setUniform h value with
  | ok graph => exact .sets hc rfl rfl hset
  | error e =>
    cases e with
    | typeMismatch op types => exact .noted c id g b _
    | _ => exact .refl c id g b

/-- What a call does to a graph of any session. -/
theorem effect_perform (s : Session n) (c : Call n) (g : Fin n) :
    c.Effect ⟨s.nextResource⟩ g (s.builder g) ((s.perform c).2.builder g) := by
  cases c with
  | uniform g' value => exact effect_map fun _ => .recorded_noted rfl _
  | constant g' value => exact effect_map fun _ => .recorded rfl
  | attr g' ty name => exact effect_map fun _ => .recorded_noted rfl _
  | colorTexture g' label =>
    refine effect_map (s := s.allocate.2) fun hg => ?_
    subst hg
    have hc : (Call.colorTexture g' label).declares? ⟨s.nextResource⟩ =
      some (g', ⟨⟨s.nextResource⟩, label, none, true, .vec4⟩) := rfl
    exact effect_declare hc (s.builder g')
  | dataTexture g' format label =>
    refine effect_map (s := s.allocate.2) fun hg => ?_
    subst hg
    have hc : (Call.dataTexture g' format label).declares? ⟨s.nextResource⟩ =
      some (g', ⟨⟨s.nextResource⟩, label, some format, false, texelType format⟩) := rfl
    exact effect_declare hc (s.builder g')
  | withUv t x => exact effect_map fun _ => effect_checked (Texture.run_withUv _ t x) fun _ _ => .recorded rfl
  | composite g' d =>
    refine effect_map fun hg => ?_
    subst hg
    obtain ⟨x, b', hrun, hkept⟩ := d.returns_kept g' (s.builder g')
    rw [hrun]
    exact .builds rfl hkept.1
  | binary op x y =>
    refine effect_map fun _ => effect_checked (Node.run_binary _ x y op) fun result _ => ?_
    obtain ⟨vertices, hadds, hvertices⟩ := result.2.adds_recordedIn (s.builder g)
    exact .recorded_after hadds hvertices rfl
  | oneMinus x => exact effect_map fun _ => effect_checked (Node.run_oneMinus _ x) fun _ _ => .recorded rfl
  | access x name => exact effect_map fun _ => effect_checked (Node.run_access _ x name) fun _ _ => .recorded rfl
  | cast x target => exact effect_map fun _ => effect_checked (Node.run_cast _ x target) fun _ _ => .recorded rfl
  | construct g' target args =>
    refine effect_map fun _ => effect_checked (Node.run_construct _ g' target args) fun sources _ => ?_
    obtain ⟨vertices, hadds, hvertices⟩ := Source.adds_allRecordedIn sources (s.builder g)
    exact .recorded_after hadds hvertices rfl
  | toVariable x => exact effect_map fun _ => .recorded_noted rfl _
  | assign x y =>
    refine effect_map fun hg => effect_checked (Node.run_assign _ x y) fun source _ => ?_
    obtain ⟨vertices, hadds, hvertices⟩ := source.adds_recordedIn (s.builder g)
    refine .adds ((hadds.noted _).trans (.rebound _ _ _)) (fun _ => ?_) (.inr ⟨decide_eq_true hg, _, _, rfl⟩)
      (List.forall_mem_nil _)
    rw [List.append_nil]
    exact hvertices
  | label x name => exact effect_map fun hg => .labelled (if_pos hg)
  | labelVariable v name => exact effect_map fun hg => .labelled (if_pos hg)
  | setUniform g' x value =>
    refine effect_map fun hg => ?_
    unfold Node.setUniform
    rw [Build.run_bind, Build.run_accept]
    cases (Operand.node x).checkOwner g' with
    | error reason => exact .noted _ _ g _ _
    | ok _ => exact effect_setUniform (if_pos hg)
  | evaluate g' x bindings =>
    refine effect_map fun _ => ?_
    rw [Node.run_evaluate]
    cases (Operand.node x).checkOwner g' with
    | error reason => exact .noted _ _ g _ _
    | ok _ => exact .refl _ _ g _
  | request g' r =>
    refine effect_on fun hg => ?_
    cases r with
    | record v => exact .adds (.recorded _ v) (fun h => nomatch h) (.inl rfl) (List.forall_mem_nil _)
    | rebind var expr =>
      exact .adds (.rebound _ var expr) (fun h => nomatch h) (.inr ⟨decide_eq_true hg, _, _, rfl⟩)
        (List.forall_mem_nil _)
    | label h name => exact .labelled (if_pos hg)
    | setUniform h value =>
      unfold Request.perform
      rw [Build.builder_run_map]
      exact effect_setUniform (if_pos hg)
  | resourceId => exact .refl _ _ g _

end Session

/-! ### Records are append-only -/

/-- A call names a vertex: it asks for the name, or it builds a composite with a new input that is well known. -/
inductive Call.Names (c : Call n) (g : Fin n) (b b' : Builder) (h : Handle) (name : String) : Prop where
  | asked (hc : c.name? g = some (h, name))
  | input {d e : Composite} (hc : c = .composite g d) (he : e ∈ d.needs) (hname : e.label? b.config.names = some name)
    (hold : b.composites e = none) (hkept : b'.composites e = some h) (hnew : b.graph.size ≤ h.index)

namespace Call.Effect

/-- Vertices are added at the end, unless an input gets another value. -/
theorem vertices (h : c.Effect id g b b') (hset : c.set? g = none) :
    b.graph.vertices.toList <+: b'.graph.vertices.toList := by
  cases h with
  | adds hadds => exact ⟨_, hadds.graph.vertices.symm⟩
  | sets hset' => exact absurd (hset'.symm.trans hset) nofun
  | builds _ hbuilds =>
    obtain ⟨_, _, hadds, _⟩ := hbuilds.graph
    exact ⟨_, hadds.vertices.symm⟩
  | declares _ htexture huv hread =>
    obtain ⟨_, _, hadds, _⟩ := huv.graph
    exact ⟨_, ((htexture.graph.trans hadds).trans hread.graph).vertices.symm⟩

/-- A rebind is added at the end, after all vertices, by calls that bind a variable. -/
theorem rebinds_cases (h : c.Effect id g b b') :
    b'.graph.rebinds.toList = b.graph.rebinds.toList ∨ c.rebinds g = true ∧
      ∃ var expr, b'.graph.rebinds.toList = b.graph.rebinds.toList ++ [⟨var, expr, b'.graph.size⟩] := by
  cases h with
  | adds hadds _ hrebinds =>
    have hlist := hadds.graph.rebinds
    rcases hrebinds with rfl | ⟨hc, var, expr, rfl⟩
    · exact .inl (hlist.trans (List.append_nil _))
    · exact .inr ⟨hc, var, expr, hlist⟩
  | sets _ _ _ graph =>
    obtain ⟨_, _, hgraph⟩ := Graph.setUniform_ok graph
    exact .inl (congrArg (fun graph => graph.rebinds.toList) hgraph)
  | builds _ hbuilds =>
    obtain ⟨_, _, hadds, _⟩ := hbuilds.graph
    exact .inl (hadds.rebinds.trans (List.append_nil _))
  | declares _ htexture huv hread =>
    obtain ⟨_, _, hadds, _⟩ := huv.graph
    exact .inl (((htexture.graph.trans hadds).trans hread.graph).rebinds.trans (List.append_nil _))

theorem rebinds (h : c.Effect id g b b') :
    b'.graph.rebinds.toList = b.graph.rebinds.toList ∨
      ∃ var expr, b'.graph.rebinds.toList = b.graph.rebinds.toList ++ [⟨var, expr, b'.graph.size⟩] :=
  h.rebinds_cases.imp_right And.right

/-- Other calls leave the rebinds as they are. -/
theorem rebinds_eq (h : c.Effect id g b b') (hc : c.rebinds g = false) : b'.graph.rebinds = b.graph.rebinds := by
  rcases h.rebinds_cases with hlist | ⟨hrebinds, _⟩
  · exact Array.toList_inj.1 hlist
  · exact absurd (hrebinds.symm.trans hc) nofun

/-- Vertices keep their names, but for those that the call names. -/
theorem labels (heffect : c.Effect id g b b') (h : Handle) :
    b'.graph.labelOf? h = b.graph.labelOf? h ∨
      ∃ name, b'.graph.labelOf? h = some name ∧ c.Names g b b' h name := by
  cases heffect with
  | adds hadds _ _ hlabels =>
    refine (hadds.graph.labelOf?_cases h).imp_right ?_
    rintro ⟨name, hname, hmem⟩
    exact ⟨name, hname, .asked (hlabels _ hmem)⟩
  | sets _ _ _ graph =>
    obtain ⟨_, _, hgraph⟩ := Graph.setUniform_ok graph
    exact .inl (congrArg (fun graph => graph.labelOf? h) hgraph)
  | @builds d hc hbuilds =>
    obtain ⟨vertices, labels, hadds, _, hlabels⟩ := hbuilds.graph
    refine (hadds.labelOf?_cases h).imp_right ?_
    rintro ⟨name, hname, hmem⟩
    obtain ⟨e, he, hold, hkept, hnew⟩ := hlabels _ hmem
    refine ⟨name, hname, .input hc ?_ he hold hkept hnew⟩
    by_contra hneeds
    exact absurd (hkept.symm.trans ((hbuilds.only hneeds).trans hold)) nofun
  | declares _ htexture huv hread =>
    -- texture coordinates are the one input that is kept, and they get no name
    obtain ⟨vertices, labels, hadds, _, hlabels⟩ := huv.graph
    refine (((htexture.graph.trans hadds).trans hread.graph).labelOf?_cases h).imp_right ?_
    rintro ⟨name, _, hmem⟩
    rw [List.nil_append, List.append_nil] at hmem
    obtain ⟨e, he, hold, hkept, _⟩ := hlabels _ hmem
    exfalso
    by_cases huv' : e ∈ [Composite.uv]
    · rw [List.mem_singleton.1 huv'] at he
      cases he
    · exact absurd (hkept.symm.trans ((huv.only huv').trans hold)) nofun

end Call.Effect

/-- The record of a graph is append-only: what a call with an outcome can do to it. -/
structure Call.Appends (c : Call n) (g : Fin n) (outcome : Except Error (Reply n)) (b b' : Builder) : Prop where
  /-- Vertices are added at the end. -/
  vertices : c.set? g = none → b.graph.vertices.toList <+: b'.graph.vertices.toList
  /-- An accepted value replaces that of an input of its type, and nothing else changes. -/
  accepted : ∀ {h : Handle} {value : Value} {r : Reply n}, c.set? g = some (h, value) → outcome = .ok r →
    b.graph.Replaces h value b'.graph
  /-- A value that is not accepted changes nothing. -/
  rejected : ∀ {h : Handle} {value : Value} {e : Error}, c.set? g = some (h, value) → outcome = .error e →
    b'.graph = b.graph
  /-- A rebind is added at the end, with the number of vertices that are recorded then. -/
  rebinds : b'.graph.rebinds.toList = b.graph.rebinds.toList ∨
    ∃ var expr, b'.graph.rebinds.toList = b.graph.rebinds.toList ++ [⟨var, expr, b'.graph.size⟩]
  /-- Only what is named gets another name. -/
  labels : ∀ h, b'.graph.labelOf? h = b.graph.labelOf? h ∨
    ∃ name, b'.graph.labelOf? h = some name ∧ c.Names g b b' h name
  /-- A constant is added for each literal, and then one vertex, which no handle was issued for before. -/
  derived : ∀ {d : Derivation n} {r : Reply n}, c.derivation? = some d → d.graph = g → outcome = .ok r →
    ∃ x, (r = .node x ∨ r = .variable ⟨x⟩) ∧ d.Adds b x b' ∧ b.graph.vertex? x.handle = none

/-- A value is accepted for an input, or the graph stays as it is. -/
def Build.Sets {α : Type} (h : Handle) (value : Value) (b : Builder) (outcome : Except Error α × Builder) : Prop :=
  (∃ a, outcome.1 = .ok a) ∧ b.graph.setUniform h value = .ok outcome.2.graph ∨
    (∃ e, outcome.1 = .error e) ∧ outcome.2.graph = b.graph

namespace Build.Sets

variable {α β σ : Type} {h : Handle} {value : Value}

theorem setUniform (h : Handle) (value : Value) (b : Builder) : Sets h value b ((Build.setUniform h value).run b) := by
  rw [run_setUniform]
  cases hset : b.graph.setUniform h value with
  | ok graph => exact .inl ⟨⟨(), rfl⟩, hset⟩
  | error e =>
    cases e with
    | typeMismatch op types => exact .inr ⟨⟨_, rfl⟩, rfl⟩
    | _ => exact .inr ⟨⟨_, rfl⟩, rfl⟩

theorem accept_bind {check : Except Rejection σ} {f : σ → Build α}
    (hok : ∀ x, check = .ok x → Sets h value b ((f x).run b)) : Sets h value b ((accept check >>= f).run b) := by
  rw [run_bind, run_accept]
  cases check with
  | ok x => exact hok x rfl
  | error reason => exact .inr ⟨⟨_, rfl⟩, rfl⟩

theorem map {call : Build α} {f : α → β} (hcall : Sets h value b (call.run b)) :
    Sets h value b ((call >>= fun a => pure (f a)).run b) := by
  rw [run_bind]
  rcases hrun : call.run b with ⟨e | a, b'⟩ <;> rw [hrun] at hcall
  · rcases hcall with ⟨⟨a, ha⟩, _⟩ | ⟨_, hgraph⟩
    · cases ha
    · exact .inr ⟨⟨e, rfl⟩, hgraph⟩
  · rcases hcall with ⟨_, hgraph⟩ | ⟨⟨e, he⟩, _⟩
    · exact .inl ⟨⟨f a, rfl⟩, hgraph⟩
    · cases he

end Build.Sets

namespace Session

variable {s : Session n}

private theorem sets_on {call : Build (Reply n)} {h : Handle} {value : Value}
    (hcall : Build.Sets h value (s.builder g) (call.run (s.builder g))) :
    Build.Sets h value (s.builder g) ((s.on g call).1, (s.on g call).2.builder g) := by
  rw [builder_on_self]
  exact hcall

/-- A call that gives a value to an input does nothing else. -/
theorem sets_perform {h : Handle} {value : Value} (hset : c.set? g = some (h, value)) :
    Build.Sets h value (s.builder g) ((s.perform c).1, (s.perform c).2.builder g) := by
  cases c with
  | setUniform g' x value' =>
    obtain ⟨rfl, heq⟩ := Option.ite_none_right_eq_some.1 hset
    cases heq
    exact sets_on (.map (.accept_bind fun _ _ => .setUniform _ _ _))
  | request g' r =>
    cases r with
    | setUniform h' value' =>
      obtain ⟨rfl, heq⟩ := Option.ite_none_right_eq_some.1 hset
      cases heq
      exact sets_on (.map (.setUniform _ _ _))
    | _ => exact absurd hset nofun
  | _ => exact absurd hset nofun

/-- Whatever a call does to a graph of any session, and whether it is accepted or not, the record is append-only. -/
theorem appends_perform (s : Session n) (c : Call n) (g : Fin n) :
    c.Appends g (s.perform c).1 (s.builder g) ((s.perform c).2.builder g) where
  vertices := (effect_perform s c g).vertices
  accepted := by
    intro h value r hset hr
    rcases sets_perform (s := s) hset with ⟨_, hgraph⟩ | ⟨⟨e, he⟩, _⟩
    · exact Graph.setUniform_eq_ok.1 hgraph
    · exact absurd (hr.symm.trans he) nofun
  rejected := by
    intro h value e hset he
    rcases sets_perform (s := s) hset with ⟨⟨r, hr⟩, _⟩ | ⟨_, hgraph⟩
    · exact absurd (hr.symm.trans he) nofun
    · exact hgraph
  rebinds := (effect_perform s c g).rebinds
  labels := (effect_perform s c g).labels
  derived := by
    rintro d r hd rfl hr
    obtain ⟨x, hx, hadds⟩ := derived_perform hd hr
    refine ⟨x, hx, hadds, ?_⟩
    obtain ⟨values, _, _, _, hhandle⟩ := hadds
    rw [hhandle]
    exact Array.getElem?_eq_none (Nat.le_add_right _ _)

end Session

end ShaderExpr
