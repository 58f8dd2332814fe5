import ShaderExpr.Proofs.Additions

/-!
# Composites are shared

A composite that is kept has the vertex that its definition asks for, over the composites that it is made of
(`Composite.Formed`), and later calls leave it as it is (`Composite.Formed.mono`).  So this holds of all composites of a
builder (`Builder.Shares`) if it holds whenever one is kept for the first time.

`Builder.Builds` says what building composites does to a builder: vertices are added that are no textures, new inputs
are named, and what was kept stays.
-/

namespace ShaderExpr

variable {b b' b'' : Builder}

def Vertex.isUniform : Vertex → Bool
  | uniform .. => true
  | _ => false

/-- A vertex that is not a uniform stays as it is. -/
theorem Graph.Grows.stays {g g' : Graph} {h : Handle} {v : Vertex} (hg : g.Grows g') (hv : g.vertex? h = some v)
    (hu : v.isUniform = false) : g'.vertex? h = some v := by
  refine hg.vertex_eq hv ?_
  rintro ty value rfl
  exact Bool.noConfusion hu

/-- `b'` comes later than `b`: what `b` keeps is kept. -/
structure Builder.Extends (b b' : Builder) : Prop where
  config : b'.config = b.config
  graph : b.graph.Grows b'.graph
  composites : ∀ {c : Composite} {h : Handle}, b.composites c = some h → b'.composites c = some h

namespace Builder.Extends

theorem refl (b : Builder) : b.Extends b :=
  ⟨rfl, .refl b.graph, fun hc => hc⟩

theorem trans (h : b.Extends b') (h' : b'.Extends b'') : b.Extends b'' :=
  ⟨h'.config.trans h.config, h.graph.trans h'.graph, fun hc => h'.composites (h.composites hc)⟩

end Builder.Extends

theorem Builder.Adds.toExtends {vertices : List Vertex} {labels : List (Handle × String)}
    (h : b.Adds vertices [] labels b') : b.Extends b' :=
  ⟨h.config, h.graph.grows_vertices, fun hc => (congrFun h.composites _).trans hc⟩

theorem Builder.extends_shared {c : Composite} (hnone : b.composites c = none) (h : Handle) :
    b.Extends (b.shared c h) := by
  refine ⟨rfl, .refl b.graph, ?_⟩
  intro d k hd
  have hne : d ≠ c := by
    rintro rfl
    rw [hnone] at hd
    cases hd
  rw [Builder.composites_shared_ne h hne]
  exact hd

namespace Composite

/-- The vertex of a composite, over the composites that it is made of. -/
inductive Formed (b : Builder) : Composite → Handle → Prop where
  | uv {h : Handle} (hv : b.graph.vertex? h = some (.attr .vec2 b.config.names.uv)) : Formed b uv h
  | zIndex {h : Handle} {z : Value} (hv : b.graph.vertex? h = some (.uniform .float z)) (hty : z.ty = .float) :
    Formed b zIndex h
  | viewMatrix {h : Handle} {m : Value} (hv : b.graph.vertex? h = some (.uniform .mat4 m)) (hty : m.ty = .mat4) :
    Formed b viewMatrix h
  | worldMatrix {h : Handle} {m : Value} (hv : b.graph.vertex? h = some (.uniform .mat4 m)) (hty : m.ty = .mat4) :
    Formed b worldMatrix h
  | modelView {h view world : Handle} (hview : b.composites viewMatrix = some view)
    (hworld : b.composites worldMatrix = some world)
    (hv : b.graph.vertex? h = some (.op (.binary .mul) .mat4 [view, world])) : Formed b modelView h
  | legacyUv {h coordinates u v flipped : Handle} (hcoordinates : b.composites uv = some coordinates)
    (hu : b.graph.vertex? u = some (.component coordinates "x" .float))
    (hv : b.graph.vertex? v = some (.component coordinates "y" .float))
    (hflipped : b.graph.vertex? flipped = some (.op .oneMinus .float [v]))
    (hvector : b.graph.vertex? h = some (.op (.construct .vec2) .vec2 [u, flipped])) : Formed b legacyUv h
  | normZ {h z one next : Handle} (hz : b.composites zIndex = some z)
    (hone : b.graph.vertex? one = some (.constant (.ofFloat 1.0)))
    (hnext : b.graph.vertex? next = some (.op (.binary .add) .float [z, one]))
    (hv : b.graph.vertex? h = some (.op (.binary .div) .float [z, next])) : Formed b normZ h
  | depthBias {h z divisor bias : Handle} {operands : List Handle} (hz : b.composites normZ = some z)
    (hdivisor : b.graph.vertex? divisor = some (.constant (.ofFloat b.config.depthBias.divisor)))
    (hbias : b.graph.vertex? bias = some (.op (.binary .div) .float [z, divisor]))
    (hv : b.graph.vertex? h = some (.op (.construct .vec3) .vec3 operands)) (hlength : operands.length = 3)
    (hcomponent : operands[b.config.depthBias.component.index]? = some bias)
    (hothers : ∀ axis, axis ≠ b.config.depthBias.component → ∃ zero, operands[axis.index]? = some zero ∧
      b.graph.vertex? zero = some (.constant (.ofFloat 0.0))) : Formed b depthBias h

/-- A composite stays as it is, except that its inputs may get other values. -/
theorem Formed.mono {c : Composite} {h : Handle} (hc : c.Formed b h) (hext : b.Extends b') : c.Formed b' h := by
  have hstays : ∀ {k : Handle} {v : Vertex}, b.graph.vertex? k = some v → v.isUniform = false →
      b'.graph.vertex? k = some v := hext.graph.stays
  have hinput : ∀ {ty : ValueType} {value : Value}, b.graph.vertex? h = some (.uniform ty value) → value.ty = ty →
      ∃ value', b'.graph.vertex? h = some (.uniform ty value') ∧ value'.ty = ty := by
    intro ty value hv hty
    obtain ⟨w, hw, hbecomes⟩ := hext.graph.vertex hv
    cases hbecomes with
    | same => exact ⟨value, hw, hty⟩
    | reset _ hty' => exact ⟨_, hw, hty'⟩
  cases hc with
  | uv hv =>
    rw [← hext.config] at hv
    exact .uv (hstays hv rfl)
  | zIndex hv hty =>
    obtain ⟨_, hv', hty'⟩ := hinput hv hty
    exact .zIndex hv' hty'
  | viewMatrix hv hty =>
    obtain ⟨_, hv', hty'⟩ := hinput hv hty
    exact .viewMatrix hv' hty'
  | worldMatrix hv hty =>
    obtain ⟨_, hv', hty'⟩ := hinput hv hty
    exact .worldMatrix hv' hty'
  | modelView hview hworld hv => exact .modelView (hext.composites hview) (hext.composites hworld) (hstays hv rfl)
  | legacyUv hcoordinates hu hv hflipped hvector =>
    exact .legacyUv (hext.composites hcoordinates) (hstays hu rfl) (hstays hv rfl) (hstays hflipped rfl)
      (hstays hvector rfl)
  | normZ hz hone hnext hv =>
    exact .normZ (hext.composites hz) (hstays hone rfl) (hstays hnext rfl) (hstays hv rfl)
  | depthBias hz hdivisor hbias hv hlength hcomponent hothers =>
    rw [← hext.config] at hdivisor hcomponent hothers
    refine .depthBias (hext.composites hz) (hstays hdivisor rfl) (hstays hbias rfl) (hstays hv rfl) hlength
      hcomponent ?_
    intro axis haxis
    obtain ⟨zero, hzero, hconstant⟩ := hothers axis haxis
    exact ⟨zero, hzero, hstays hconstant rfl⟩

/-- The composites that a composite is made of are kept too. -/
theorem Formed.parts {c : Composite} {h : Handle} (hc : c.Formed b h) :
    ∀ part ∈ c.parts, ∃ k, b.composites part = some k := by
  cases hc with
  | modelView hview hworld =>
    intro part hpart
    rcases List.mem_pair.1 hpart with rfl | rfl
    · exact ⟨_, hview⟩
    · exact ⟨_, hworld⟩
  | legacyUv hk | normZ hk | depthBias hk =>
    intro part hpart
    rw [List.mem_singleton.1 hpart]
    exact ⟨_, hk⟩
  | _ => exact List.forall_mem_nil _

/-- The composites that a composite is made of, directly or not. -/
def below (c : Composite) : List Composite :=
  c.parts ++ c.parts.flatMap parts

def needs (c : Composite) : List Composite :=
  c :: c.below

theorem not_mem_below (c : Composite) : c ∉ c.below := by
  cases c <;> decide

theorem needs_subset_below {c part : Composite} (hpart : part ∈ c.parts) : part.needs ⊆ c.below := by
  have hall : ∀ part ∈ c.parts, ∀ d ∈ part.needs, d ∈ c.below := by
    cases c <;> decide
  exact fun d hd => hall part hpart d hd

/-- The name that an input gets, if it is a uniform. -/
def label? (names : InputNames) : Composite → Option String
  | zIndex => some names.zIndex
  | viewMatrix => some names.viewMatrix
  | worldMatrix => some names.worldMatrix
  | _ => none

end Composite

/-- Every composite that is kept has its vertex. -/
def Builder.Shares (b : Builder) : Prop :=
  ∀ (c : Composite) (h : Handle), b.composites c = some h → c.Formed b h

namespace Builder.Shares

theorem ofConfig (config : Config) : (Builder.ofConfig config).Shares :=
  fun _ _ hc => absurd hc nofun

theorem mono (hb : b.Shares) (hext : b.Extends b') (hcomposites : b'.composites = b.composites) : b'.Shares := by
  intro c h hc
  rw [hcomposites] at hc
  exact (hb c h hc).mono hext

/-- What is needed for a composite that is kept is kept. -/
theorem needs (hb : b.Shares) {c : Composite} {h : Handle} (hc : b.composites c = some h) :
    ∀ d ∈ c.needs, ∃ k, b.composites d = some k := by
  intro d hd
  rcases List.mem_cons.1 hd with rfl | hd
  · exact ⟨h, hc⟩
  · rcases List.mem_append.1 hd with hd | hd
    · exact (hb c h hc).parts d hd
    · obtain ⟨part, hpart, hd⟩ := List.mem_flatMap.1 hd
      obtain ⟨k, hk⟩ := (hb c h hc).parts part hpart
      exact (hb part k hk).parts d hd

end Builder.Shares

namespace Builder

/-- A new vertex gets the name of an input that is kept from now on. -/
def Names (b b' : Builder) (entry : Handle × String) : Prop :=
  ∃ c : Composite, c.label? b.config.names = some entry.2 ∧ b.composites c = none ∧
    b'.composites c = some entry.1 ∧ b.graph.size ≤ entry.1.index

/-- Some of the given composites are built: vertices that are no textures are added, and new inputs are named. -/
structure Builds (cs : List Composite) (b b' : Builder) : Prop where
  config : b'.config = b.config
  composites : ∀ {c : Composite} {h : Handle}, b.composites c = some h → b'.composites c = some h
  only : ∀ {c : Composite}, c ∉ cs → b'.composites c = b.composites c
  graph : ∃ vertices labels, b.graph.Adds vertices [] labels b'.graph ∧ (∀ v ∈ vertices, v.isTexture = false) ∧
    ∀ entry ∈ labels, b.Names b' entry
  shares : b.Shares → b'.Shares

namespace Builds

variable {cs cs' : List Composite} {c : Composite} {h : Handle}

theorem refl (cs : List Composite) (b : Builder) : b.Builds cs b where
  config := rfl
  composites hc := hc
  only _ := rfl
  graph := ⟨[], [], .refl b.graph, List.forall_mem_nil _, List.forall_mem_nil _⟩
  shares hb := hb

theorem toExtends (h : b.Builds cs b') : b.Extends b' := by
  obtain ⟨vertices, labels, hadds, _⟩ := h.graph
  exact ⟨h.config, hadds.grows_vertices, h.composites⟩

theorem mono (h : b.Builds cs b') (hcs : cs ⊆ cs') : b.Builds cs' b' where
  config := h.config
  composites := h.composites
  only hc := h.only fun hmem => hc (hcs hmem)
  graph := h.graph
  shares := h.shares

theorem trans (h : b.Builds cs b') (h' : b'.Builds cs b'') : b.Builds cs b'' where
  config := h'.config.trans h.config
  composites hc := h'.composites (h.composites hc)
  only hc := (h'.only hc).trans (h.only hc)
  graph := by
    obtain ⟨vertices, labels, hadds, hvertices, hlabels⟩ := h.graph
    obtain ⟨vertices', labels', hadds', hvertices', hlabels'⟩ := h'.graph
    refine ⟨_, _, hadds.trans hadds', ?_, ?_⟩
    · intro v hv
      exact (List.mem_append.1 hv).elim (hvertices v) (hvertices' v)
    · intro entry hentry
      rcases List.mem_append.1 hentry with hentry | hentry
      · obtain ⟨c, hname, hnone, hc, hnew⟩ := hlabels' entry hentry
        refine ⟨c, h.config ▸ hname, ?_, hc, Nat.le_trans h.toExtends.graph.size_le hnew⟩
        -- what was kept before is kept in between
        cases hold : b.composites c with
        | none => rfl
        | some k => exact absurd (hnone.symm.trans (h.composites hold)) nofun
      · obtain ⟨c, hname, hnone, hc, hnew⟩ := hlabels entry hentry
        exact ⟨c, hname, hnone, h'.composites hc, hnew⟩
  shares hb := h'.shares (h.shares hb)

theorem of_adds {vertices : List Vertex} (h : b.Adds vertices [] [] b')
    (hvertices : ∀ v ∈ vertices, v.isTexture = false) (cs : List Composite) : b.Builds cs b' where
  config := h.config
  composites := h.toExtends.composites
  only _ := congrFun h.composites _
  graph := ⟨vertices, [], h.graph, hvertices, List.forall_mem_nil _⟩
  shares hb := hb.mono h.toExtends h.composites

private theorem shares_shared (hb : b.Shares) (hnone : b.composites c = none) (hformed : c.Formed b h) :
    (b.shared c h).Shares := by
  intro d k hd
  have hext := extends_shared hnone h
  by_cases hdc : d = c
  · subst hdc
    cases (Builder.composites_shared b d h).symm.trans hd
    exact hformed.mono hext
  · rw [Builder.composites_shared_ne h hdc] at hd
    exact (hb d k hd).mono hext

/-- Vertices are added, and the composite is kept that one of them is made for, which may be named. -/
theorem shared {vertices : List Vertex} {labels : List (Handle × String)} (hadds : b.Adds vertices [] labels b')
    (hvertices : ∀ v ∈ vertices, v.isTexture = false) (hnone : b.composites c = none) (hformed : c.Formed b' h)
    (hlabels : ∀ entry ∈ labels, entry.1 = h ∧ c.label? b.config.names = some entry.2 ∧ b.graph.size ≤ h.index) :
    b.Builds [c] (b'.shared c h) := by
  have hnone' : b'.composites c = none := (congrFun hadds.composites c).trans hnone
  have hext := hadds.toExtends.trans (extends_shared hnone' h)
  refine ⟨hadds.config, hext.composites, ?_, ⟨vertices, labels, hadds.graph, hvertices, ?_⟩, ?_⟩
  · intro d hd
    rw [Builder.composites_shared_ne h fun hdc => hd (List.mem_singleton.2 hdc)]
    exact congrFun hadds.composites d
  · intro entry hentry
    obtain ⟨rfl, hname, hnew⟩ := hlabels entry hentry
    exact ⟨c, hname, hnone, Builder.composites_shared b' c _, hnew⟩
  · intro hb
    exact shares_shared (hb.mono hadds.toExtends hadds.composites) hnone' hformed

end Builds

end Builder

end ShaderExpr
