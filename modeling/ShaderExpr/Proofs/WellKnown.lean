import ShaderExpr.Proofs.Number.Machine
import ShaderExpr.Proofs.Sharing

/-!
# Building composites

Building a composite is accepted in any builder, also in one that no run leads to: its calls are on nodes that it has
made itself.  It keeps the composite with what is needed for it (`Composite.returns_kept`), and a composite that is kept
already is found again without a change (`Composite.run_build_of_kept`).
-/

namespace ShaderExpr

variable {n : Nat} {b b' : Builder}

/-- The vertex of an accepted operand: the given one, or a constant. -/
def Source.RecordedAs (graph : Graph) : Source → Handle → Prop
  | vertex h, k => k = h
  | constant value, k => graph.vertex? k = some (.constant value)

namespace Source

theorem RecordedAs.mono {graph graph' : Graph} {source : Source} {h : Handle} (hs : source.RecordedAs graph h)
    (hg : graph.Grows graph') : source.RecordedAs graph' h := by
  cases source with
  | vertex k => exact hs
  | constant value => exact hg.stays hs rfl

theorem recordedAs_handleIn (source : Source) (b : Builder) :
    source.RecordedAs (source.recordedIn b).graph (source.handleIn b) := by
  cases source with
  | vertex h => exact rfl
  | constant value => exact b.graph.vertex?_next (.constant value)

theorem adds_recordedIn (source : Source) (b : Builder) :
    ∃ vertices, b.Adds vertices [] [] (source.recordedIn b) ∧ ∀ v ∈ vertices, v.isTexture = false := by
  cases source with
  | vertex h => exact ⟨[], .refl b, List.forall_mem_nil _⟩
  | constant value => exact ⟨[.constant value], .recorded b _, List.forall_mem_singleton.2 rfl⟩

theorem adds_allRecordedIn (sources : List Source) (b : Builder) :
    ∃ vertices, b.Adds vertices [] [] (allRecordedIn b sources) ∧ ∀ v ∈ vertices, v.isTexture = false := by
  induction sources generalizing b with
  | nil => exact ⟨[], .refl b, List.forall_mem_nil _⟩
  | cons source sources ih =>
    obtain ⟨vertices, hadds, hvertices⟩ := source.adds_recordedIn b
    obtain ⟨vertices', hadds', hvertices'⟩ := ih (source.recordedIn b)
    exact ⟨_, hadds.trans hadds', List.forall_mem_append.2 ⟨hvertices, hvertices'⟩⟩

theorem recordedAs_handlesIn (sources : List Source) (b : Builder) :
    List.Forall₂ (RecordedAs (allRecordedIn b sources).graph) sources (handlesIn b sources) := by
  induction sources generalizing b with
  | nil => exact .nil
  | cons source sources ih =>
    obtain ⟨_, hadds, _⟩ := adds_allRecordedIn sources (source.recordedIn b)
    exact .cons ((source.recordedAs_handleIn b).mono hadds.graph.grows_vertices) (ih (source.recordedIn b))

end Source

namespace Node

variable {x z : Node n} {g : Fin n} {left right ty : ValueType}

/-- A node with a vertex is made, and no composite is built. -/
structure Recorded (g : Fin n) (ty : ValueType) (v : Vertex) (b : Builder) (x : Node n) (b' : Builder) : Prop where
  builds : ∀ cs, b.Builds cs b'
  graph_eq : x.graph = g
  ty_eq : x.ty = ty
  vertex : b'.graph.vertex? x.handle = some v

private theorem recorded_nextIn {vertices : List Vertex} (hadds : b.Adds vertices [] [] b')
    (hvertices : ∀ v ∈ vertices, v.isTexture = false) (g : Fin n) (ty : ValueType) {v : Vertex}
    (hv : v.isTexture = false) : Recorded g ty v b (nextIn b' g ty) (b'.recorded v) where
  builds := by
    refine .of_adds (hadds.trans (.recorded b' v)) ?_
    exact List.forall_mem_append.2 ⟨hvertices, List.forall_mem_singleton.2 hv⟩
  graph_eq := rfl
  ty_eq := rfl
  vertex := b'.graph.vertex?_next v

theorem recorded_binary {op : BinaryOp} (hx : x.graph = g) (hleft : x.ty = left) (hz : z.graph = g)
    (hright : z.ty = right) (hresult : op.check left (.typed right) = .ok ty) :
    (x.binary op (.node z)).Returns b (Recorded g ty (.op (.binary op) ty [x.handle, z.handle]) b) := by
  subst hx hleft hright
  have hcheck : checkBinary op x (.node z) = .ok (ty, .vertex z.handle) :=
    checkBinary_eq_ok.2 ⟨Operand.checkOwner_node_eq_ok.2 hz, hresult, rfl⟩
  have hrun := run_binary b x (.node z) op
  rw [hcheck] at hrun
  exact ⟨_, _, hrun, recorded_nextIn (.refl b) (List.forall_mem_nil _) _ ty rfl⟩

theorem recorded_binary_literal {op : BinaryOp} {y : Literal} {value : Value} (hx : x.graph = g) (hleft : x.ty = left)
    (hresult : op.check left .literal = .ok ty) (hunify : y.unify? left.kind = some value) :
    (x.binary op (.literal y)).Returns b fun r b' => ∃ k, b'.graph.vertex? k = some (.constant value) ∧
      Recorded g ty (.op (.binary op) ty [x.handle, k]) b r b' := by
  subst hx hleft
  have hcheck : checkBinary op x (.literal y) = .ok (ty, .constant value) :=
    checkBinary_eq_ok.2 ⟨rfl, hresult, congrArg (Option.map Source.constant) hunify⟩
  have hrun := run_binary b x (.literal y) op
  rw [hcheck] at hrun
  obtain ⟨vertices, hadds, hvertices⟩ := Source.adds_recordedIn (.constant value) b
  refine ⟨_, _, hrun, b.graph.next, ?_, recorded_nextIn hadds hvertices _ ty rfl⟩
  exact (Graph.grows_push _ _).stays (b.graph.vertex?_next (.constant value)) rfl

theorem recorded_oneMinus (hx : x.graph = g) (hleft : x.ty = left) (hresult : left.checkOneMinus = .ok ty) :
    x.oneMinus.Returns b (Recorded g ty (.op .oneMinus ty [x.handle]) b) := by
  subst hx hleft
  have hrun := run_oneMinus b x
  rw [hresult] at hrun
  exact ⟨_, _, hrun, recorded_nextIn (.refl b) (List.forall_mem_nil _) _ ty rfl⟩

theorem recorded_access {name : String} (hx : x.graph = g) (hleft : x.ty = left)
    (hresult : left.checkAccess name = .ok ty) :
    (x.access name).Returns b (Recorded g ty (.component x.handle name ty) b) := by
  subst hx hleft
  have hrun := run_access b x name
  rw [hresult] at hrun
  exact ⟨_, _, hrun, recorded_nextIn (.refl b) (List.forall_mem_nil _) _ ty rfl⟩

theorem recorded_construct {target : ValueType} {args : List (Operand n)} {sources : List Source}
    (hargs : ∀ y ∈ args, y.checkOwner g = .ok ()) (hshape : target.checkArguments (args.map Operand.type) = .ok ())
    (hsources : args.mapM (Operand.source? target.kind) = some sources) :
    (construct g target args).Returns b fun r b' => ∃ operands,
      List.Forall₂ (Source.RecordedAs b'.graph) sources operands ∧
        Recorded g target (.op (.construct target) target operands) b r b' := by
  have hcheck : checkConstruct g target args = .ok sources :=
    checkConstruct_eq_ok.2 ⟨Operand.checkOwners_eq_ok.2 hargs, hshape, hsources⟩
  have hrun := run_construct b g target args
  rw [hcheck] at hrun
  obtain ⟨vertices, hadds, hvertices⟩ := Source.adds_allRecordedIn sources b
  refine ⟨_, _, hrun, _, ?_, recorded_nextIn hadds hvertices g target rfl⟩
  exact (Source.recordedAs_handlesIn sources b).imp fun _ _ hs => hs.mono (Graph.grows_push _ _)

end Node

/-! ### Calls of composites -/

namespace Composite

variable {g : Fin n} {c : Composite}

/-- A composite is kept, with what is needed for it, and its node is the answer. -/
def Kept (c : Composite) (g : Fin n) (b : Builder) (x : Node n) (b' : Builder) : Prop :=
  b.Builds c.needs b' ∧ ∃ h, x = c.node g h ∧ b'.composites c = some h

/-- A part of a composite is built with it. -/
theorem Kept.below {part : Composite} {x : Node n} (hx : part.Kept g b x b') (hpart : part ∈ c.parts) :
    b.Builds c.below b' :=
  hx.1.mono (needs_subset_below hpart)

private theorem kept_of_draft {build : Draft Handle}
    (hbuild : b.composites c = none → b.Builds c.needs ((build.run b).2.shared c (build.run b).1)) :
    c.Kept g b (c.node g ((c.shared build).run b).1) ((c.shared build).run b).2 := by
  rw [run_shared]
  cases hc : b.composites c with
  | some h => exact ⟨.refl _ b, h, rfl, hc⟩
  | none => exact ⟨hbuild hc, _, rfl, Builder.composites_shared _ _ _⟩

/-- A composite is kept if building it makes its vertex. -/
private theorem returns_kept_of_formed {build : Build Handle}
    (hbuild : build.Returns b fun h b' => b.Builds c.below b' ∧ c.Formed b' h) :
    Build.Returns (c.shared build >>= fun h => pure (c.node g h)) b (c.Kept g b) := by
  have hshared : Build.Returns (c.shared build) b fun h b' => b.Builds c.needs b' ∧ b'.composites c = some h := by
    refine returns_shared c ?_ ?_
    · intro h hh
      exact ⟨.refl _ b, hh⟩
    · intro hnone
      refine hbuild.mono ?_
      rintro h b' ⟨hbuilds, hformed⟩
      have hnone' : b'.composites c = none := (hbuilds.only c.not_mem_below).trans hnone
      have hkept := Builder.Builds.shared (.refl b') (List.forall_mem_nil _) hnone' hformed (List.forall_mem_nil _)
      refine ⟨(hbuilds.mono (List.subset_cons_self _ _)).trans (hkept.mono ?_), b'.composites_shared c h⟩
      exact List.cons_subset_cons c (List.nil_subset _)
  exact hshared.bind fun h b' hkept => .pure ⟨hkept.1, h, rfl, hkept.2⟩

theorem kept_buildUv (g : Fin n) (b : Builder) : uv.Kept g b ((buildUv g).run b).1 ((buildUv g).run b).2 := by
  refine kept_of_draft fun hnone => ?_
  have hadds := (Builder.Adds.recorded b (.attr .vec2 b.config.names.uv)).noted
    (.attributeDeclared b.graph.next .vec2 b.config.names.uv)
  exact .shared hadds (List.forall_mem_singleton.2 rfl) hnone (.uv (b.graph.vertex?_next _)) (List.forall_mem_nil _)

private theorem builds_namedUniform {name : String} (hname : c.label? b.config.names = some name)
    (hbelow : c.below = []) (hnone : b.composites c = none)
    (hformed : ∀ b' : Builder, b'.graph.vertex? b.graph.next = some (.uniform c.ty (.initial c.ty)) →
      c.Formed b' b.graph.next) (g : Fin n) :
    b.Builds c.needs (((namedUniform g c.ty name).run b).2.shared c ((namedUniform g c.ty name).run b).1) := by
  have hadds := ((Builder.Adds.recorded b (.uniform c.ty (.initial c.ty))).noted
    (.uniformDeclared b.graph.next c.ty)).trans (.labelled _ b.graph.next name)
  unfold needs
  rw [hbelow]
  refine .shared hadds (List.forall_mem_singleton.2 rfl) hnone (hformed _ (b.graph.vertex?_next _)) ?_
  exact List.forall_mem_singleton.2 ⟨rfl, hname, Nat.le_refl _⟩

theorem kept_buildZIndex (g : Fin n) (b : Builder) :
    zIndex.Kept g b ((buildZIndex g).run b).1 ((buildZIndex g).run b).2 :=
  kept_of_draft fun hnone => builds_namedUniform rfl rfl hnone (fun _ hv => .zIndex hv rfl) g

theorem kept_buildViewMatrix (g : Fin n) (b : Builder) :
    viewMatrix.Kept g b ((buildViewMatrix g).run b).1 ((buildViewMatrix g).run b).2 :=
  kept_of_draft fun hnone => builds_namedUniform rfl rfl hnone (fun _ hv => .viewMatrix hv rfl) g

theorem kept_buildWorldMatrix (g : Fin n) (b : Builder) :
    worldMatrix.Kept g b ((buildWorldMatrix g).run b).1 ((buildWorldMatrix g).run b).2 :=
  kept_of_draft fun hnone => builds_namedUniform rfl rfl hnone (fun _ hv => .worldMatrix hv rfl) g

private theorem returns_of_kept {draft : Draft (Node n)} (h : c.Kept g b (draft.run b).1 (draft.run b).2) :
    Build.Returns (liftM draft) b (c.Kept g b) :=
  .lift h

theorem returns_kept_modelView (g : Fin n) (b : Builder) : (buildModelView g).Returns b (modelView.Kept g b) := by
  have hproduct : BinaryOp.mul.check viewMatrix.ty (.typed worldMatrix.ty) = .ok .mat4 := by decide
  refine returns_kept_of_formed ?_
  refine (returns_of_kept (kept_buildViewMatrix g b)).bind fun view b₁ hview => ?_
  refine (returns_of_kept (kept_buildWorldMatrix g b₁)).bind fun world b₂ hworld => ?_
  have hparts := (hview.below (c := modelView) (by decide)).trans (hworld.below (by decide))
  obtain ⟨_, view, rfl, hview⟩ := hview
  obtain ⟨hbuilds, world, rfl, hworld⟩ := hworld
  refine (Node.recorded_binary (g := g) rfl rfl rfl rfl hproduct).bind fun x b₃ hx => .pure ?_
  have hext := (hx.builds []).toExtends
  refine ⟨hparts.trans (hx.builds _), ?_⟩
  exact .modelView (hext.composites (hbuilds.composites hview)) (hext.composites hworld) hx.vertex

theorem returns_kept_legacyUv (g : Fin n) (b : Builder) : (buildLegacyUv g).Returns b (legacyUv.Kept g b) := by
  have hx : uv.ty.checkAccess "x" = .ok .float := by decide
  have hy : uv.ty.checkAccess "y" = .ok .float := by decide
  have hminus : ValueType.float.checkOneMinus = .ok .float := by decide
  have hshape : legacyUv.ty.checkArguments [.typed .float, .typed .float] = .ok () := by decide
  refine returns_kept_of_formed ?_
  refine (returns_of_kept (kept_buildUv g b)).bind fun coordinates b₁ hcoordinates => ?_
  have hparts := hcoordinates.below (c := legacyUv) (by decide)
  obtain ⟨_, coordinates, rfl, hkept⟩ := hcoordinates
  refine (Node.recorded_access (g := g) rfl rfl hx).bind fun u b₂ hu => ?_
  refine (Node.recorded_access (g := g) rfl rfl hy).bind fun v b₃ hv => ?_
  refine (Node.recorded_oneMinus hv.graph_eq hv.ty_eq hminus).bind fun flipped b₄ hflipped => ?_
  have hargs : ∀ y ∈ [Operand.node u, .node flipped], y.checkOwner g = .ok () := by
    simp only [List.forall_mem_cons]
    exact ⟨Operand.checkOwner_node_eq_ok.2 hu.graph_eq, Operand.checkOwner_node_eq_ok.2 hflipped.graph_eq,
      List.forall_mem_nil _⟩
  have hshape : legacyUv.ty.checkArguments ([Operand.node u, .node flipped].map Operand.type) = .ok () := by
    show ValueType.checkArguments _ [.typed u.ty, .typed flipped.ty] = _
    rw [hu.ty_eq, hflipped.ty_eq]
    exact hshape
  have hsources : [Operand.node u, .node flipped].mapM (Operand.source? legacyUv.ty.kind) =
      some [.vertex u.handle, .vertex flipped.handle] := rfl
  refine (Node.recorded_construct hargs hshape hsources).bind ?_
  rintro x b₅ ⟨_, _ | ⟨rfl, _ | ⟨rfl, _ | _⟩⟩, hx⟩
  -- what was recorded on the way is still there
  have hext₄ := (hx.builds []).toExtends
  have hext₃ := (hflipped.builds []).toExtends.trans hext₄
  have hext₂ := (hv.builds []).toExtends.trans hext₃
  have hext₁ := (hu.builds []).toExtends.trans hext₂
  refine .pure ⟨?_, ?_⟩
  · exact (((hparts.trans (hu.builds _)).trans (hv.builds _)).trans (hflipped.builds _)).trans (hx.builds _)
  · exact .legacyUv (hext₁.composites hkept) (hext₂.graph.stays hu.vertex rfl)
      (hext₃.graph.stays hv.vertex rfl) (hext₄.graph.stays hflipped.vertex rfl) hx.vertex

theorem returns_kept_normZ (g : Fin n) (b : Builder) : (buildNormZ g).Returns b (normZ.Kept g b) := by
  have hadd : BinaryOp.add.check zIndex.ty .literal = .ok .float := by decide
  have hdiv : BinaryOp.div.check zIndex.ty (.typed .float) = .ok .float := by decide
  have hone : (⟨1.0⟩ : Literal).unify? zIndex.ty.kind = some (.ofFloat 1.0) := by decide +kernel
  refine returns_kept_of_formed ?_
  refine (returns_of_kept (kept_buildZIndex g b)).bind fun z b₁ hz => ?_
  have hparts := hz.below (c := normZ) (by decide)
  obtain ⟨_, z, rfl, hkept⟩ := hz
  refine (Node.recorded_binary_literal (g := g) rfl rfl hadd hone).bind ?_
  rintro next b₂ ⟨one, hone, hnext⟩
  refine (Node.recorded_binary (g := g) rfl rfl hnext.graph_eq hnext.ty_eq hdiv).bind fun x b₃ hx => .pure ?_
  have hext₂ := (hx.builds []).toExtends
  have hext₁ := (hnext.builds []).toExtends.trans hext₂
  refine ⟨(hparts.trans (hnext.builds _)).trans (hx.builds _), ?_⟩
  exact .normZ (hext₁.composites hkept) (hext₂.graph.stays hone rfl)
    (hext₂.graph.stays hnext.vertex rfl) hx.vertex

private theorem index_ne {axis component : Axis} (h : axis ≠ component) : component.index ≠ axis.index := by
  cases axis <;> cases component <;> first | decide | exact absurd rfl h

/-- The operands of the depth bias vector: one vertex at the component that the configuration asks for, and zeros. -/
private theorem getElem?_zeros_set {graph : Graph} {zero : Value} {component : Axis} {bias : Handle}
    {operands : List Handle} (h : List.Forall₂ (Source.RecordedAs graph)
      ((List.replicate 3 (Source.constant zero)).set component.index (.vertex bias)) operands) :
    operands.length = 3 ∧ operands[component.index]? = some bias ∧ ∀ axis, axis ≠ component →
      ∃ k, operands[axis.index]? = some k ∧ graph.vertex? k = some (.constant zero) := by
  have hlength := h.length_eq
  rw [List.length_set, List.length_replicate] at hlength
  have hindex : ∀ axis : Axis, axis.index < 3 := by
    intro axis
    cases axis <;> decide
  have hget : ∀ (axis : Axis) (source : Source),
      ((List.replicate 3 (Source.constant zero)).set component.index (.vertex bias))[axis.index]? = some source →
        ∃ k, operands[axis.index]? = some k ∧ source.RecordedAs graph k := by
    intro axis source hsource
    obtain ⟨hlt, rfl⟩ := List.getElem?_eq_some_iff.1 hsource
    have hlt' : axis.index < operands.length := h.length_eq ▸ hlt
    exact ⟨_, List.getElem?_eq_getElem hlt', h.get hlt hlt'⟩
  refine ⟨hlength.symm, ?_, ?_⟩
  · have hlt : component.index < (List.replicate 3 (Source.constant zero)).length := hindex component
    obtain ⟨k, hk, rfl⟩ := hget component _ (List.getElem?_set_self hlt)
    exact hk
  · intro axis haxis
    refine hget axis (.constant zero) ?_
    rw [List.getElem?_set_ne (index_ne haxis)]
    exact List.getElem?_replicate_of_lt (hindex axis)

private theorem mapM_zeros_set {kind : Kind} {x : Literal} {zero : Value} (hzero : x.unify? kind = some zero)
    (component : Axis) (bias : Node n) :
    ((List.replicate 3 (Operand.literal x)).set component.index (.node bias)).mapM (Operand.source? kind) =
      some ((List.replicate 3 (.constant zero)).set component.index (.vertex bias.handle)) := by
  have hsource : (Operand.literal x : Operand n).source? kind = some (.constant zero) :=
    congrArg (Option.map Source.constant) hzero
  rw [mapM_eq_some]
  cases component with
  | x => exact .cons rfl (.cons hsource (.cons hsource .nil))
  | y => exact .cons hsource (.cons rfl (.cons hsource .nil))
  | z => exact .cons hsource (.cons hsource (.cons rfl .nil))

/-- The depth bias vector has a shape of its type whatever its component. -/
private theorem checkArguments_zeros_set (component : Axis) : depthBias.ty.checkArguments
    ((List.replicate 3 OperandType.literal).set component.index (.typed .float)) = .ok () := by
  cases component <;> decide

theorem returns_kept_depthBias (g : Fin n) (b : Builder) : (buildDepthBias g).Returns b (depthBias.Kept g b) := by
  have hdiv : BinaryOp.div.check normZ.ty .literal = .ok .float := by decide
  have hzero : (⟨0.0⟩ : Literal).unify? depthBias.ty.kind = some (.ofFloat 0.0) := by decide +kernel
  refine returns_kept_of_formed ?_
  refine .get_bind ?_
  have hdivisor := Literal.unify?_float_ofFloat32 b.config.depthBias.divisor
  refine (returns_kept_normZ g b).bind fun z b₁ hz => ?_
  have hparts := hz.below (c := depthBias) (by decide)
  obtain ⟨_, z, rfl, hkept⟩ := hz
  refine (Node.recorded_binary_literal (g := g) rfl rfl hdiv hdivisor).bind ?_
  rintro bias b₂ ⟨divisor, hdivisor, hbias⟩
  have hconfig : b₂.config = b.config := (hparts.trans (hbias.builds _)).config
  rw [← hconfig] at hdivisor ⊢
  have hargs : ∀ y ∈ (List.replicate 3 (Operand.literal ⟨0.0⟩)).set b₂.config.depthBias.component.index (.node bias),
      y.checkOwner g = .ok () := by
    intro y hy
    rcases List.mem_or_eq_of_mem_set hy with hy | rfl
    · rw [(List.mem_replicate.1 hy).2]
      rfl
    · exact Operand.checkOwner_node_eq_ok.2 hbias.graph_eq
  have hshape : depthBias.ty.checkArguments (((List.replicate 3 (Operand.literal ⟨0.0⟩)).set
      b₂.config.depthBias.component.index (.node bias)).map Operand.type) = .ok () := by
    have htype : (Operand.node bias).type = .typed .float := congrArg _ hbias.ty_eq
    rw [List.map_set, List.map_replicate, htype]
    exact checkArguments_zeros_set _
  refine (Node.recorded_construct hargs hshape (mapM_zeros_set hzero _ bias)).bind ?_
  rintro x b₃ ⟨operands, hoperands, hx⟩
  obtain ⟨hlength, hcomponent, hothers⟩ := getElem?_zeros_set hoperands
  have hext₂ := (hx.builds []).toExtends
  have hext₁ := (hbias.builds []).toExtends.trans hext₂
  rw [← hext₂.config] at hdivisor hcomponent hothers
  refine .pure ⟨(hparts.trans (hbias.builds _)).trans (hx.builds _), ?_⟩
  exact .depthBias (hext₁.composites hkept) (hext₂.graph.stays hdivisor rfl)
    (hext₂.graph.stays hbias.vertex rfl) hx.vertex hlength hcomponent hothers

/-- Building a composite is accepted in any builder, and keeps the composite with what is needed for it. -/
theorem returns_kept (c : Composite) (g : Fin n) (b : Builder) : (c.build g).Returns b (c.Kept g b) := by
  cases c with
  | uv => exact returns_of_kept (kept_buildUv g b)
  | zIndex => exact returns_of_kept (kept_buildZIndex g b)
  | viewMatrix => exact returns_of_kept (kept_buildViewMatrix g b)
  | worldMatrix => exact returns_of_kept (kept_buildWorldMatrix g b)
  | modelView => exact returns_kept_modelView g b
  | legacyUv => exact returns_kept_legacyUv g b
  | normZ => exact returns_kept_normZ g b
  | depthBias => exact returns_kept_depthBias g b

private theorem run_draft_of_kept {h : Handle} (hc : b.composites c = some h) (build : Draft Handle) (g : Fin n) :
    (liftM (c.shared build >>= fun h => pure (c.node g h)) : Build (Node n)).run b = (.ok (c.node g h), b) := by
  have hshared := run_shared b c build
  rw [hc] at hshared
  show (Except.ok (c.node g ((c.shared build).run b).1), ((c.shared build).run b).2) = _
  rw [hshared]

private theorem run_of_kept {h : Handle} (hc : b.composites c = some h) (build : Build Handle) (g : Fin n) :
    (c.shared build >>= fun h => pure (c.node g h)).run b = (.ok (c.node g h), b) := by
  have hshared : (c.shared build).Returns b fun k b' => k = h ∧ b' = b := by
    refine returns_shared c ?_ ?_
    · intro k hk
      exact ⟨Option.some.inj (hk.symm.trans hc), rfl⟩
    · intro hnone
      exact absurd (hnone.symm.trans hc) nofun
  obtain ⟨_, _, hrun, rfl, rfl⟩ := hshared
  rw [Build.run_bind, hrun]
  rfl

/-- A composite that is kept is found again, and nothing happens. -/
theorem run_build_of_kept {h : Handle} (hc : b.composites c = some h) (g : Fin n) :
    (c.build g).run b = (.ok (c.node g h), b) := by
  cases c with
  | uv | zIndex | viewMatrix | worldMatrix => exact run_draft_of_kept hc _ g
  | modelView | legacyUv | normZ | depthBias => exact run_of_kept hc _ g

end Composite

end ShaderExpr
