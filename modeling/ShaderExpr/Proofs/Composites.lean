import ShaderExpr.Proofs.Backing
import ShaderExpr.Proofs.Number.Machine

/-!
# Composites and textures

Building a composite is always accepted: the rules list all the operations that it is made of, and the divisor
of the depth bias is a literal that fits whatever float it is.  Afterwards the composite is kept, and so are
its parts: `Composite.returns_build`.
-/

namespace ShaderExpr

variable {n : Nat} {b : Builder} {graph graph' : Graph} {g : Fin n}

namespace Node

variable {x z : Node n} {left right ty : ValueType}

/-- A node of a graph that backs it, with its type. -/
structure Typed (g : Fin n) (ty : ValueType) (x : Node n) (graph : Graph) : Prop where
  graph_eq : x.graph = g
  ty_eq : x.ty = ty
  backed : x.Backed graph

/-- A node of a type is made in steps. -/
def Made (g : Fin n) (ty : ValueType) (b : Builder) (x : Node n) (b' : Builder) : Prop :=
  b.Steps b' ∧ x.Typed g ty b'.graph

theorem Typed.mono (hx : x.Typed g ty graph) (hg : graph.Grows graph') : x.Typed g ty graph' :=
  ⟨hx.graph_eq, hx.ty_eq, hx.backed.mono hg⟩

theorem Typed.operand (hx : x.Typed g ty graph) : (Operand.node x).Backed g graph := by
  intro z hz _
  cases hz
  exact hx.backed

theorem Typed.checkOwner (hx : x.Typed g ty graph) : (Operand.node x).checkOwner g = .ok () :=
  Operand.checkOwner_node_eq_ok.2 hx.graph_eq

private theorem made_of_meets {call : Build (Node n)} {b' : Builder} (hmeets : call.Meets b (BackedBy g))
    (hrun : call.run b = (.ok x, b')) : call.Returns b (Made g x.ty b) := by
  refine (hmeets.returns hrun).mono ?_
  rintro _ b'' ⟨rfl, hsteps, hgraph, hbacked⟩
  exact ⟨hsteps, hgraph, rfl, hbacked⟩

theorem made_binary {op : BinaryOp} (hx : x.Typed g left b.graph) (hz : z.Typed g right b.graph)
    (hresult : op.result? left (.typed right) = some ty) : (x.binary op (.node z)).Returns b (Made g ty b) := by
  obtain ⟨rfl, rfl, hbacked⟩ := hx
  have hcheck : checkBinary op x (.node z) = .ok (ty, .vertex z.handle) := by
    unfold checkBinary BinaryOp.check
    rw [hz.checkOwner, show (Operand.node z).type = .typed right from congrArg _ hz.ty_eq, hresult]
    rfl
  have hrun := run_binary b x (.node z) op
  rw [hcheck] at hrun
  exact made_of_meets (meets_binary op hbacked hz.operand) hrun

theorem made_binary_literal {op : BinaryOp} {y : Literal} {value : Value} (hx : x.Typed g left b.graph)
    (hresult : op.result? left .literal = some ty) (hunify : y.unify? left.kind = some value) :
    (x.binary op (.literal y)).Returns b (Made g ty b) := by
  obtain ⟨rfl, rfl, hbacked⟩ := hx
  have hsource : (Operand.literal y : Operand n).source? x.ty.kind = some (.constant value) :=
    congrArg (Option.map Source.constant) hunify
  have hcheck : checkBinary op x (.literal y) = .ok (ty, .constant value) := by
    unfold checkBinary BinaryOp.check
    rw [show (Operand.literal y : Operand n).type = .literal from rfl, hresult, hsource]
    rfl
  have hrun := run_binary b x (.literal y) op
  rw [hcheck] at hrun
  exact made_of_meets (meets_binary op hbacked (.literal y)) hrun

theorem made_oneMinus (hx : x.Typed g left b.graph) (hresult : oneMinusResult? left = some ty) :
    x.oneMinus.Returns b (Made g ty b) := by
  obtain ⟨rfl, rfl, hbacked⟩ := hx
  have hrun := run_oneMinus b x
  unfold ValueType.checkOneMinus at hrun
  rw [hresult] at hrun
  exact made_of_meets (meets_oneMinus hbacked) hrun

theorem made_access {name : String} (hx : x.Typed g left b.graph)
    (hresult : accessorResult? left name = some ty) :
    (x.access name).Returns b (Made g ty b) := by
  obtain ⟨rfl, rfl, hbacked⟩ := hx
  have hrun := run_access b x name
  unfold ValueType.checkAccess at hrun
  rw [hresult] at hrun
  exact made_of_meets (meets_access name hbacked) hrun

theorem made_construct {target : ValueType} {args : List (Operand n)} {sources : List Source}
    (hargs : ∀ y ∈ args, y.Backed g b.graph ∧ y.checkOwner g = .ok ())
    (hshape : target.constructs (args.map Operand.type) = true)
    (hsources : args.mapM (Operand.source? target.kind) = some sources) :
    (construct g target args).Returns b (Made g target b) := by
  have hcheck : checkConstruct g target args = .ok sources := by
    unfold checkConstruct
    rw [Operand.checkOwners_eq_ok.2 fun y hy => (hargs y hy).2, hsources]
    dsimp only
    rw [ValueType.checkArguments_eq_ok.2 hshape]
    rfl
  have hrun := run_construct b g target args
  rw [hcheck] at hrun
  exact made_of_meets (meets_construct target fun y hy => (hargs y hy).1) hrun

end Node

namespace Composite

/-- A composite is kept after steps, and its node is the answer. -/
def Given (c : Composite) (g : Fin n) (b : Builder) (x : Node n) (b' : Builder) : Prop :=
  b.Steps b' ∧ ∃ h, x = c.node g h ∧ b'.composites c = some h

variable {c : Composite} {x : Node n}

theorem Given.typed {b' : Builder} (hx : c.Given g b x b') (hb : b.Legal) : x.Typed g c.ty b'.graph := by
  obtain ⟨hsteps, h, rfl, hkept⟩ := hx
  exact ⟨rfl, rfl, (hb.steps hsteps).composite hkept, nofun⟩

theorem Given.isSome {b' : Builder} (hx : c.Given g b x b') : (b'.composites c).isSome := by
  obtain ⟨_, h, _, hkept⟩ := hx
  rw [hkept]
  rfl

/-- What is built of a composite before it is kept. -/
def Built (c : Composite) (b : Builder) (h : Handle) (b' : Builder) : Prop :=
  b.Steps b' ∧ b'.graph.HasType h c.ty ∧ ∀ part ∈ c.parts, (b'.composites part).isSome

theorem Built.steps_shared {h : Handle} {b' : Builder} (hbuilt : c.Built b h b') : b.Steps (b'.shared c h) :=
  hbuilt.1.tail (.share hbuilt.2.1 hbuilt.2.2)

/-- A composite that is built without a rejection is given. -/
theorem returns_given {build : Build Handle} (hbuild : build.Returns b (c.Built b)) :
    Build.Returns (c.shared build >>= fun h => pure (c.node g h)) b (c.Given g b) := by
  have hshared : Build.Returns (c.shared build) b fun h b' => b.Steps b' ∧ b'.composites c = some h := by
    refine returns_shared c ?_ ?_
    · intro h hh
      exact ⟨.refl b, hh⟩
    · intro _
      refine hbuild.mono ?_
      intro h b' hbuilt
      exact ⟨hbuilt.steps_shared, b'.composites_shared c h⟩
  exact hshared.bind fun h b' hkept => .pure ⟨hkept.1, h, rfl, hkept.2⟩

theorem given_of_draft {build : Draft Handle} (hbuild : c.Built b (build.run b).1 (build.run b).2) :
    c.Given g b (c.node g ((c.shared build).run b).1) ((c.shared build).run b).2 := by
  rw [run_shared]
  split
  · rename_i h hh
    exact ⟨.refl b, h, rfl, hh⟩
  · exact ⟨hbuild.steps_shared, _, rfl, Builder.composites_shared _ _ _⟩

theorem given_buildUv (g : Fin n) (b : Builder) : uv.Given g b ((buildUv g).run b).1 ((buildUv g).run b).2 := by
  refine given_of_draft ⟨?_, ?_, nofun⟩
  · exact (Builder.Steps.single (.record (.attr _ _))).tail (.note _)
  · exact .of_next b.graph rfl

private theorem built_namedUniform (hparts : c.parts = []) (g : Fin n) (b : Builder) (name : String) :
    c.Built b ((namedUniform g c.ty name).run b).1 ((namedUniform g c.ty name).run b).2 := by
  refine ⟨?_, ?_, ?_⟩
  · exact ((Builder.Steps.single (.record (.uniform (.initial c.ty)))).tail (.note _)).tail (.label _ _)
  · exact .of_next b.graph rfl
  · rw [hparts]
    exact nofun

theorem given_buildZIndex (g : Fin n) (b : Builder) :
    zIndex.Given g b ((buildZIndex g).run b).1 ((buildZIndex g).run b).2 :=
  given_of_draft (built_namedUniform rfl g b b.config.names.zIndex)

theorem given_buildViewMatrix (g : Fin n) (b : Builder) :
    viewMatrix.Given g b ((buildViewMatrix g).run b).1 ((buildViewMatrix g).run b).2 :=
  given_of_draft (built_namedUniform rfl g b b.config.names.viewMatrix)

theorem given_buildWorldMatrix (g : Fin n) (b : Builder) :
    worldMatrix.Given g b ((buildWorldMatrix g).run b).1 ((buildWorldMatrix g).run b).2 :=
  given_of_draft (built_namedUniform rfl g b b.config.names.worldMatrix)

private theorem returns_of_given {draft : Draft (Node n)} (h : c.Given g b (draft.run b).1 (draft.run b).2) :
    Build.Returns (liftM draft) b (c.Given g b) :=
  .lift h

private theorem built_of_made {b' b'' : Builder} (hsteps : b.Steps b') (hx : Node.Made g c.ty b' x b'')
    (hparts : ∀ part ∈ c.parts, (b'.composites part).isSome) : c.Built b x.handle b'' := by
  refine ⟨hsteps.trans hx.1, ?_, fun part hpart => hx.1.isSome_composites (hparts part hpart)⟩
  have hty := hx.2.backed.hasType
  rw [hx.2.ty_eq] at hty
  exact hty

theorem returns_buildModelView (g : Fin n) (hb : b.Legal) :
    (buildModelView g).Returns b (modelView.Given g b) := by
  have hproduct : BinaryOp.mul.result? viewMatrix.ty (.typed worldMatrix.ty) = some modelView.ty := by decide
  refine returns_given ?_
  refine (returns_of_given (given_buildViewMatrix g b)).bind fun view b₁ hview => ?_
  have hb₁ := hb.steps hview.1
  refine (returns_of_given (given_buildWorldMatrix g b₁)).bind fun world b₂ hworld => ?_
  have htyped := (hview.typed hb).mono hworld.1.grows
  refine (Node.made_binary htyped (hworld.typed hb₁) hproduct).bind fun x b₃ hx => .pure ?_
  refine built_of_made (hview.1.trans hworld.1) hx ?_
  intro part hpart
  rcases List.mem_pair.1 hpart with rfl | rfl
  · exact hworld.1.isSome_composites hview.isSome
  · exact hworld.isSome

theorem returns_buildLegacyUv (g : Fin n) (hb : b.Legal) :
    (buildLegacyUv g).Returns b (legacyUv.Given g b) := by
  have hu : accessorResult? uv.ty "x" = some .float := by decide
  have hv : accessorResult? uv.ty "y" = some .float := by decide
  have hminus : oneMinusResult? .float = some .float := by decide
  refine returns_given ?_
  refine (returns_of_given (given_buildUv g b)).bind fun coordinates b₁ huv => ?_
  have htyped := huv.typed hb
  refine (Node.made_access htyped hu).bind fun u b₂ hu => ?_
  refine (Node.made_access (htyped.mono hu.1.grows) hv).bind fun v b₃ hv => ?_
  refine (Node.made_oneMinus hv.2 hminus).bind fun flipped b₄ hflipped => ?_
  -- `u` was made two vertices ago
  have hu₄ := hu.2.mono (hv.1.trans hflipped.1).grows
  have hargs : ∀ y ∈ [Operand.node u, .node flipped], y.Backed g b₄.graph ∧ y.checkOwner g = .ok () := by
    simp only [List.forall_mem_cons]
    exact ⟨⟨hu₄.operand, hu₄.checkOwner⟩, ⟨hflipped.2.operand, hflipped.2.checkOwner⟩, nofun⟩
  have hshape : legacyUv.ty.constructs ([Operand.node u, .node flipped].map Operand.type) = true := by
    show ValueType.constructs _ [.typed u.ty, .typed flipped.ty] = true
    rw [hu₄.ty_eq, hflipped.2.ty_eq]
    decide
  have hsources : [Operand.node u, .node flipped].mapM (Operand.source? legacyUv.ty.kind) =
      some [.vertex u.handle, .vertex flipped.handle] := rfl
  refine (Node.made_construct hargs hshape hsources).bind fun x b₅ hx => .pure ?_
  refine built_of_made (((huv.1.trans hu.1).trans hv.1).trans hflipped.1) hx ?_
  intro part hpart
  rw [List.mem_singleton.1 hpart]
  exact ((hu.1.trans hv.1).trans hflipped.1).isSome_composites huv.isSome

theorem returns_buildNormZ (g : Fin n) (hb : b.Legal) :
    (buildNormZ g).Returns b (normZ.Given g b) := by
  have hadd : BinaryOp.add.result? zIndex.ty .literal = some .float := by decide
  have hdiv : BinaryOp.div.result? zIndex.ty (.typed .float) = some normZ.ty := by decide
  obtain ⟨one, hone⟩ : ∃ one, (⟨1.0⟩ : Literal).unify? zIndex.ty.kind = some one :=
    Option.isSome_iff_exists.1 (by decide +kernel)
  refine returns_given ?_
  refine (returns_of_given (given_buildZIndex g b)).bind fun z b₁ hz => ?_
  have htyped := hz.typed hb
  refine (Node.made_binary_literal htyped hadd hone).bind fun next b₂ hnext => ?_
  refine (Node.made_binary (htyped.mono hnext.1.grows) hnext.2 hdiv).bind fun x b₃ hx => .pure ?_
  refine built_of_made (hz.1.trans hnext.1) hx ?_
  intro part hpart
  rw [List.mem_singleton.1 hpart]
  exact hnext.1.isSome_composites hz.isSome

/-- The depth bias vector has a shape of its type whatever its component. -/
private theorem constructs_zeros_set (axis : Axis) :
    depthBias.ty.constructs ((List.replicate 3 OperandType.literal).set axis.index (.typed .float)) = true := by
  cases axis <;> decide

theorem returns_buildDepthBias (g : Fin n) (hb : b.Legal) :
    (buildDepthBias g).Returns b (depthBias.Given g b) := by
  have hdiv : BinaryOp.div.result? normZ.ty .literal = some .float := by decide
  obtain ⟨zero, hzero⟩ : ∃ zero, (⟨0.0⟩ : Literal).unify? depthBias.ty.kind = some zero :=
    Option.isSome_iff_exists.1 (by decide +kernel)
  refine returns_given ?_
  refine .get_bind ?_
  -- the divisor is a float of the configuration, so that the literal fits even if it is infinite or no number
  have hdivisor := Literal.unify?_float_ofFloat32 b.config.depthBias.divisor
  refine (returns_buildNormZ g hb).bind fun z b₁ hz => ?_
  refine (Node.made_binary_literal (hz.typed hb) hdiv hdivisor).bind fun bias b₂ hbias => ?_
  generalize b.config.depthBias.component = axis
  -- one argument is the bias, wherever it stands, and the others are zeros
  have hcases : ∀ y ∈ (List.replicate 3 (Operand.literal ⟨0.0⟩)).set axis.index (.node bias),
      y = .literal ⟨0.0⟩ ∨ y = .node bias := by
    intro y hy
    exact (List.mem_or_eq_of_mem_set hy).imp_left fun hy => (List.mem_replicate.1 hy).2
  have hargs : ∀ y ∈ (List.replicate 3 (Operand.literal ⟨0.0⟩)).set axis.index (.node bias),
      y.Backed g b₂.graph ∧ y.checkOwner g = .ok () := by
    intro y hy
    rcases hcases y hy with rfl | rfl
    · exact ⟨.literal _, rfl⟩
    · exact ⟨hbias.2.operand, hbias.2.checkOwner⟩
  have hshape : depthBias.ty.constructs
      (((List.replicate 3 (Operand.literal ⟨0.0⟩)).set axis.index (.node bias)).map Operand.type) = true := by
    have htype : (Operand.node bias).type = .typed .float := congrArg _ hbias.2.ty_eq
    rw [List.map_set, List.map_replicate, htype]
    exact constructs_zeros_set axis
  obtain ⟨sources, hsources, _⟩ : ∃ sources, ((List.replicate 3 (Operand.literal ⟨0.0⟩)).set axis.index
      (.node bias)).mapM (Operand.source? depthBias.ty.kind) = some sources ∧ _ := by
    refine exists_mapM_eq_some ?_
    intro y hy
    rcases hcases y hy with rfl | rfl
    · exact ⟨_, congrArg (Option.map Source.constant) hzero⟩
    · exact ⟨_, rfl⟩
  refine (Node.made_construct hargs hshape hsources).bind fun x b₃ hx => .pure ?_
  refine built_of_made (hz.1.trans hbias.1) hx ?_
  intro part hpart
  rw [List.mem_singleton.1 hpart]
  exact hbias.1.isSome_composites hz.isSome

/-- Building a composite is accepted whatever was done before, and whatever the configuration. -/
theorem returns_build (c : Composite) (g : Fin n) (hb : b.Legal) : (c.build g).Returns b (c.Given g b) := by
  cases c with
  | uv => exact returns_of_given (given_buildUv g b)
  | zIndex => exact returns_of_given (given_buildZIndex g b)
  | viewMatrix => exact returns_of_given (given_buildViewMatrix g b)
  | worldMatrix => exact returns_of_given (given_buildWorldMatrix g b)
  | modelView => exact returns_buildModelView g hb
  | legacyUv => exact returns_buildLegacyUv g hb
  | normZ => exact returns_buildNormZ g hb
  | depthBias => exact returns_buildDepthBias g hb

end Composite

namespace Texture

/-- A texture of a graph that backs it. -/
def BackedBy (g : Fin n) (t : Texture n) (graph : Graph) : Prop :=
  t.texel.graph = g ∧ t.Backed graph

variable {x : Node n} {t : Texture n} {info : TextureInfo} {resource : Handle}

/-- A recorded texture is read at texture coordinates of its graph. -/
theorem read_backed (hresource : b.graph.vertex? resource = some (.texture info.kind info))
    (hx : x.Typed g .vec2 b.graph) :
    b.Steps ((read g resource x info).run b).2 ∧
      BackedBy g ((read g resource x info).run b).1 ((read g resource x info).run b).2.graph := by
  have hlegal : Vertex.Legal b.graph (.op (if info.filtered then .sample else .fetch) info.texel
      [resource, x.handle]) := by
    have huv := hx.backed.hasType
    rw [hx.ty_eq] at huv
    unfold TextureInfo.kind at hresource
    split at hresource
    · rename_i hfiltered
      rw [if_pos hfiltered]
      exact .sample hresource hfiltered huv
    · rename_i hfiltered
      rw [if_neg hfiltered]
      exact .fetch hresource (Bool.not_eq_true _ ▸ hfiltered) huv
  have hgrows := b.graph.grows_push (.op (if info.filtered then .sample else .fetch) info.texel
    [resource, x.handle])
  refine ⟨.single (.record hlegal), rfl, .nextIn b g rfl rfl, hx.backed.mono hgrows, hx.graph_eq, hx.ty_eq, ?_⟩
  exact hgrows.vertex_eq hresource nofun

theorem declare_backed (g : Fin n) (info : TextureInfo) (hb : b.Legal) :
    b.Steps ((declare g info.kind info).run b).2 ∧
      BackedBy g ((declare g info.kind info).run b).1 ((declare g info.kind info).run b).2.graph := by
  let b₁ := (b.recorded (.texture info.kind info)).noted (.textureDeclared b.graph.next info.kind info)
  have hsteps : b.Steps b₁ := (Builder.Steps.single (.record (.texture info))).tail (.note _)
  have huv := Composite.given_buildUv g b₁
  have hresource := huv.1.grows.vertex_eq (b.graph.vertex?_next (.texture info.kind info)) nofun
  have hread := read_backed hresource (huv.typed (hb.steps hsteps))
  exact ⟨(hsteps.trans huv.1).trans hread.1, hread.2⟩

theorem meets_color (g : Fin n) (id : ResourceId) (label : String) (hb : b.Legal) :
    Build.Meets (liftM (color g id label)) b (BackedBy g) :=
  have h := declare_backed g ⟨id, label, none, true, .vec4⟩ hb
  .lift h.1 h.2

theorem meets_data (g : Fin n) (id : ResourceId) (format label : String) (hb : b.Legal) :
    Build.Meets (liftM (data g id format label)) b (BackedBy g) :=
  have h := declare_backed g ⟨id, label, some format, false, texelType format⟩ hb
  .lift h.1 h.2

theorem checkUv_ok (h : t.checkUv x = .ok ()) : x.graph = t.texel.graph ∧ x.ty = .vec2 := by
  obtain ⟨_, howner, h⟩ := exists_of_bind_ok h
  refine ⟨Operand.checkOwner_node_eq_ok.1 howner, ?_⟩
  split at h
  · assumption
  · exact absurd h nofun

theorem meets_withUv (ht : t.Backed b.graph) (hx : (Operand.node x).Backed t.texel.graph b.graph) :
    (t.withUv x).Meets b (BackedBy t.texel.graph) := by
  refine .checked (run_withUv b t x) fun _ hcheck => ?_
  obtain ⟨hgraph, hty⟩ := checkUv_ok hcheck
  exact read_backed ht.resource ⟨hgraph, hty, hx x rfl hgraph⟩

end Texture

end ShaderExpr
