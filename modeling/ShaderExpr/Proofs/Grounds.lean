import ShaderExpr.Proofs.Readings
import ShaderExpr.Proofs.Reuse

/-!
# Composites are grounded

The calls that build a composite are on nodes that they have made themselves, down to the inputs.  So the vertex of a
composite that is kept stands on earlier vertices, none of them a variable, whatever was requested before and in
between, also with wrong handles (`Builder.Grounds`, `Session.grounds_after`).

The proof follows the calls of a building: `Build.Ensures` is what a call ensures if it is accepted, and
`Node.Founded` what the calls on nodes ensure.
-/

namespace ShaderExpr

variable {n : Nat} {b b' : Builder}

/-- What a call ensures of its answer and the builder after it, if it is accepted. -/
def Build.Ensures {α : Type} (call : Build α) (b : Builder) (post : α → Builder → Prop) : Prop :=
  ∀ a b', call.run b = (.ok a, b') → post a b'

namespace Build.Ensures

variable {α β σ : Type} {call : Build α} {post : α → Builder → Prop}

theorem bind {f : α → Build β} {post' : β → Builder → Prop} (hcall : Ensures call b post)
    (hf : ∀ a b', post a b' → Ensures (f a) b' post') : Ensures (call >>= f) b post' := by
  intro x b'' hrun
  rw [run_bind] at hrun
  rcases hfirst : call.run b with ⟨e | a, b'⟩
  · rw [hfirst] at hrun
    exact absurd hrun nofun
  · rw [hfirst] at hrun
    exact hf a b' (hcall a b' hfirst) x b'' hrun

theorem pure {a : α} (h : post a b) : Ensures (Pure.pure a) b post := by
  rintro _ _ hrun
  cases hrun
  exact h

theorem lift {draft : Draft α} (h : post (draft.run b).1 (draft.run b).2) : Ensures (liftM draft) b post := by
  rintro _ _ hrun
  cases hrun
  exact h

theorem get_bind {f : Builder → Build α} (h : Ensures (f b) b post) : Ensures (get >>= f) b post :=
  h

theorem checked {check : Except Rejection σ} {accepted : σ → α × Builder}
    (hrun : call.run b = Build.checked b check accepted)
    (hok : ∀ x, check = .ok x → post (accepted x).1 (accepted x).2) : Ensures call b post := by
  intro a b' h
  obtain ⟨x, hx, haccepted⟩ := exists_of_checked (hrun.symm.trans h)
  have hpost := hok x hx
  rw [haccepted] at hpost
  exact hpost

end Build.Ensures

/-- Every composite that is kept is grounded. -/
def Builder.Grounds (b : Builder) : Prop :=
  ∀ (c : Composite) (h : Handle), b.composites c = some h → b.graph.Grounded h

theorem Builder.Grounds.mono (hb : b.Grounds) (hg : b.graph.Grows b'.graph)
    (hcomposites : b'.composites = b.composites) : b'.Grounds := by
  intro c h hc
  rw [hcomposites] at hc
  exact (hb c h hc).mono hg

/-- A grounded vertex was made, and the composites are still grounded. -/
structure Builder.Founds (b : Builder) (h : Handle) (b' : Builder) : Prop where
  grows : b.graph.Grows b'.graph
  grounds : b'.Grounds
  grounded : b'.graph.Grounded h

namespace Source

/-- Accepted operands are recorded as grounded vertices if they are grounded. -/
theorem grounded_handlesIn {sources : List Source} (hsources : ∀ h, .vertex h ∈ sources → b.graph.Grounded h) :
    ∀ h ∈ handlesIn b sources, (allRecordedIn b sources).graph.Grounded h := by
  obtain ⟨_, hadds, _⟩ := adds_allRecordedIn sources b
  have hrecorded := recordedAs_handlesIn sources b
  intro h hh
  obtain ⟨i, hi, rfl⟩ := List.mem_iff_getElem.1 hh
  have hlt : i < sources.length := hrecorded.length_eq ▸ hi
  have hsource := hrecorded.get hlt hi
  simp only [List.get_eq_getElem] at hsource
  cases hget : sources[i] with
  | vertex k =>
    rw [hget] at hsource
    have hk : b.graph.Grounded k := hsources k (hget ▸ List.getElem_mem hlt)
    rw [show (handlesIn b sources)[i] = k from hsource]
    exact hk.mono hadds.graph.grows_vertices
  | constant value =>
    rw [hget] at hsource
    exact .intro hsource rfl (List.forall_mem_nil _) (List.forall_mem_nil _)

end Source

namespace Node

variable {g : Fin n} {ty : ValueType} {x : Node n} {y : Operand n}

/-- A vertex over grounded operands, which are recorded before it. -/
theorem founds_recorded (g : Fin n) (ty : ValueType) (sources : List Source) (hb : b.Grounds) {v : Vertex}
    (hvar : v.isVariable = false) (hreads : v.reads = Source.handlesIn b sources)
    (hsources : ∀ h, .vertex h ∈ sources → b.graph.Grounded h) :
    b.Founds (nextIn (Source.allRecordedIn b sources) g ty).handle ((Source.allRecordedIn b sources).recorded v) := by
  obtain ⟨_, hadds, _⟩ := Source.adds_allRecordedIn sources b
  have hgrows := hadds.trans (.recorded _ v)
  have hgrounded := Source.grounded_handlesIn hsources
  refine ⟨hgrows.graph.grows_vertices, hb.mono hgrows.graph.grows_vertices hgrows.composites, .push hvar ?_⟩
  rw [hreads]
  exact hgrounded

theorem ensures_binary (op : BinaryOp) (hb : b.Grounds) (hx : b.graph.Grounded x.handle)
    (hy : ∀ z, y = .node z → b.graph.Grounded z.handle) :
    (x.binary op y).Ensures b fun z b' => b.Founds z.handle b' := by
  refine .checked (run_binary b x y op) ?_
  rintro ⟨ty, source⟩ hcheck
  have hsource := (checkBinary_eq_ok.1 hcheck).2.2
  refine founds_recorded x.graph ty [.vertex x.handle, source] hb rfl rfl ?_
  intro h hh
  rcases List.mem_pair.1 hh with hh | rfl
  · cases hh
    exact hx
  · cases y with
    | node z =>
      cases hsource
      exact hy z rfl
    | literal z =>
      obtain ⟨value, _, hvalue⟩ := Option.map_eq_some_iff.1 hsource
      exact absurd hvalue nofun

private theorem grounded_of_mem_singleton (hx : b.graph.Grounded x.handle) :
    ∀ h, Source.vertex h ∈ [Source.vertex x.handle] → b.graph.Grounded h := by
  intro h hh
  cases List.mem_singleton.1 hh
  exact hx

theorem ensures_oneMinus (hb : b.Grounds) (hx : b.graph.Grounded x.handle) :
    x.oneMinus.Ensures b fun z b' => b.Founds z.handle b' :=
  .checked (run_oneMinus b x) fun ty _ =>
    founds_recorded x.graph ty _ hb rfl rfl (grounded_of_mem_singleton hx)

theorem ensures_access (name : String) (hb : b.Grounds) (hx : b.graph.Grounded x.handle) :
    (x.access name).Ensures b fun z b' => b.Founds z.handle b' :=
  .checked (run_access b x name) fun ty _ =>
    founds_recorded x.graph ty _ hb rfl rfl (grounded_of_mem_singleton hx)

theorem ensures_construct (target : ValueType) {args : List (Operand n)} (hb : b.Grounds)
    (hargs : ∀ z, .node z ∈ args → b.graph.Grounded z.handle) :
    (construct g target args).Ensures b fun z b' => b.Founds z.handle b' := by
  refine .checked (run_construct b g target args) ?_
  intro sources hcheck
  have hsources := (checkConstruct_eq_ok.1 hcheck).2.2
  refine founds_recorded g target sources hb rfl rfl ?_
  intro h hh
  obtain ⟨y, hy, hsource⟩ := exists_of_mem_mapM hsources hh
  cases y with
  | node z =>
    cases hsource
    exact hargs z hy
  | literal z =>
    obtain ⟨value, _, hvalue⟩ := Option.map_eq_some_iff.1 hsource
    exact absurd hvalue nofun

end Node

namespace Builder

variable {c : Composite} {h : Handle}

theorem Founds.trans {b'' : Builder} {h' : Handle} (hfirst : b.Founds h b') (hsecond : b'.Founds h' b'') :
    b.Founds h' b'' :=
  ⟨hfirst.grows.trans hsecond.grows, hsecond.grounds, hsecond.grounded⟩

theorem Founds.shared (hfounds : b.Founds h b') : b.Founds h (b'.shared c h) := by
  refine ⟨hfounds.grows, ?_, hfounds.grounded⟩
  intro d k hd
  by_cases hdc : d = c
  · subst hdc
    cases (Builder.composites_shared b' d h).symm.trans hd
    exact hfounds.grounded
  · rw [Builder.composites_shared_ne h hdc] at hd
    exact hfounds.grounds d k hd

end Builder

namespace Composite

variable {g : Fin n} {c : Composite} {h : Handle}

/-- Inputs read nothing. -/
theorem Formed.grounded (hc : c.Formed b h) (hparts : c.parts = []) : b.graph.Grounded h := by
  cases hc with
  | uv hv | zIndex hv | viewMatrix hv | worldMatrix hv =>
    exact .intro hv rfl (List.forall_mem_nil _) (List.forall_mem_nil _)
  | modelView | legacyUv | normZ | depthBias => exact absurd hparts nofun

/-- Composites are still grounded after an input was built. -/
theorem grounds_of_builds (hb : b.Grounds) (hs : b.Shares) (hbuilds : b.Builds [c] b') (hparts : c.parts = []) :
    b'.Grounds := by
  intro d h hd
  by_cases hdc : d = c
  · subst hdc
    exact (hbuilds.shares hs d h hd).grounded hparts
  · rw [hbuilds.only fun hmem => hdc (List.mem_singleton.1 hmem)] at hd
    exact (hb d h hd).mono hbuilds.toExtends.graph

private theorem founds_of_kept {x : Node n} (hb : b.Grounds) (hs : b.Shares) (hparts : c.parts = [])
    (hx : c.Kept g b x b') : b.Founds x.handle b' := by
  obtain ⟨hbuilds, h, rfl, hkept⟩ := hx
  have hneeds : c.needs = [c] := by
    unfold needs below
    rw [hparts]
    rfl
  rw [hneeds] at hbuilds
  have hgrounds := grounds_of_builds hb hs hbuilds hparts
  exact ⟨hbuilds.toExtends.graph, hgrounds, hgrounds c h hkept⟩

theorem ensures_shared {build : Build Handle} (hb : b.Grounds)
    (hbuild : build.Ensures b fun h b' => b.Founds h b') :
    Build.Ensures (c.shared build >>= fun h => pure (c.node g h)) b fun x b' => b.Founds x.handle b' := by
  have hshared : Build.Ensures (c.shared build) b fun h b' => b.Founds h b' := by
    unfold shared
    refine .get_bind ?_
    cases hc : b.composites c with
    | some h => exact .pure ⟨.refl b.graph, hb, hb c h hc⟩
    | none =>
      refine hbuild.bind fun h b' hfounds => ?_
      rintro _ _ hrun
      cases hrun
      exact hfounds.shared
  exact hshared.bind fun h b' hfounds => .pure hfounds

private theorem ensures_input {draft : Draft (Node n)} (hb : b.Grounds) (hs : b.Shares) (hparts : c.parts = [])
    (hkept : c.Kept g b (draft.run b).1 (draft.run b).2) :
    Build.Ensures (liftM draft) b fun x b' => b.Founds x.handle b' ∧ c.Kept g b x b' :=
  .lift ⟨founds_of_kept hb hs hparts hkept, hkept⟩

theorem ensures_modelView (hb : b.Grounds) (hs : b.Shares) (g : Fin n) :
    (buildModelView g).Ensures b fun x b' => b.Founds x.handle b' := by
  refine ensures_shared hb ?_
  refine (ensures_input hb hs rfl (kept_buildViewMatrix g b)).bind fun view b₁ hview => ?_
  have hs₁ := hview.2.1.shares hs
  refine (ensures_input hview.1.grounds hs₁ rfl (kept_buildWorldMatrix g b₁)).bind fun world b₂ hworld => ?_
  refine (Node.ensures_binary .mul hworld.1.grounds (hview.1.grounded.mono hworld.1.grows) ?_).bind
    fun x b₃ hx => .pure ((hview.1.trans hworld.1).trans hx)
  rintro _ ⟨⟩
  exact hworld.1.grounded

theorem ensures_legacyUv (hb : b.Grounds) (hs : b.Shares) (g : Fin n) :
    (buildLegacyUv g).Ensures b fun x b' => b.Founds x.handle b' := by
  refine ensures_shared hb ?_
  refine (ensures_input hb hs rfl (kept_buildUv g b)).bind fun coordinates b₁ hcoordinates => ?_
  have hcoordinates := hcoordinates.1
  refine (Node.ensures_access "x" hcoordinates.grounds hcoordinates.grounded).bind fun u b₂ hu => ?_
  refine (Node.ensures_access "y" hu.grounds (hcoordinates.grounded.mono hu.grows)).bind fun v b₃ hv => ?_
  refine (Node.ensures_oneMinus hv.grounds hv.grounded).bind fun flipped b₄ hflipped => ?_
  refine (Node.ensures_construct legacyUv.ty hflipped.grounds ?_).bind
    fun x b₅ hx => .pure ((((hcoordinates.trans hu).trans hv).trans hflipped).trans hx)
  intro z hz
  rcases List.mem_pair.1 hz with hz | hz <;> cases hz
  · exact (hu.grounded.mono hv.grows).mono hflipped.grows
  · exact hflipped.grounded

theorem ensures_normZ (hb : b.Grounds) (hs : b.Shares) (g : Fin n) :
    (buildNormZ g).Ensures b fun x b' => b.Founds x.handle b' := by
  refine ensures_shared hb ?_
  refine (ensures_input hb hs rfl (kept_buildZIndex g b)).bind fun z b₁ hz => ?_
  have hz := hz.1
  have hone : ∀ y : Node n, Operand.literal ⟨1.0⟩ = .node y → b₁.graph.Grounded y.handle := nofun
  refine (Node.ensures_binary .add hz.grounds hz.grounded hone).bind fun next b₂ hnext => ?_
  refine (Node.ensures_binary .div hnext.grounds (hz.grounded.mono hnext.grows) ?_).bind
    fun x b₃ hx => .pure ((hz.trans hnext).trans hx)
  rintro _ ⟨⟩
  exact hnext.grounded

theorem ensures_depthBias (hb : b.Grounds) (hs : b.Shares) (g : Fin n) :
    (buildDepthBias g).Ensures b fun x b' => b.Founds x.handle b' := by
  refine ensures_shared hb ?_
  refine .get_bind ?_
  refine (ensures_normZ hb hs g).bind fun z b₁ hz => ?_
  have hdivisor : ∀ y : Node n, Operand.literal (.ofFloat32 b.config.depthBias.divisor) = .node y →
      b₁.graph.Grounded y.handle := nofun
  refine (Node.ensures_binary .div hz.grounds hz.grounded hdivisor).bind fun bias b₂ hbias => ?_
  refine (Node.ensures_construct depthBias.ty hbias.grounds ?_).bind
    fun x b₃ hx => .pure ((hz.trans hbias).trans hx)
  intro y hy
  rcases List.mem_or_eq_of_mem_set hy with hy | hy
  · exact absurd (List.mem_replicate.1 hy).2 nofun
  · cases hy
    exact hbias.grounded

/-- Building a composite keeps all composites grounded. -/
theorem ensures_build (c : Composite) (hb : b.Grounds) (hs : b.Shares) (g : Fin n) :
    (c.build g).Ensures b fun x b' => b.Founds x.handle b' := by
  cases c with
  | uv => exact .lift (founds_of_kept hb hs rfl (kept_buildUv g b))
  | zIndex => exact .lift (founds_of_kept hb hs rfl (kept_buildZIndex g b))
  | viewMatrix => exact .lift (founds_of_kept hb hs rfl (kept_buildViewMatrix g b))
  | worldMatrix => exact .lift (founds_of_kept hb hs rfl (kept_buildWorldMatrix g b))
  | modelView => exact ensures_modelView hb hs g
  | legacyUv => exact ensures_legacyUv hb hs g
  | normZ => exact ensures_normZ hb hs g
  | depthBias => exact ensures_depthBias hb hs g

end Composite

namespace Session

variable {s : Session n} {g : Fin n}

/-- Calls of composites aside, what a call does to the composites is known from its effect. -/
theorem grounds_perform (hb : (s.builder g).Grounds) (hs : (s.builder g).Shares) (call : Call n) :
    ((s.perform call).2.builder g).Grounds := by
  have hgrows := (effect_perform s call g).toExtends.graph
  cases effect_perform s call g with
  | adds hadds => exact hb.mono hgrows hadds.composites
  | sets _ _ composites _ => exact hb.mono hgrows composites
  | @builds c hc =>
    subst hc
    obtain ⟨x, b', hrun, _⟩ := c.returns_kept g (s.builder g)
    have hbuilder : (s.perform (.composite g c)).2.builder g = b' := by
      show (s.on g (c.build g >>= fun x => pure (Reply.node x))).2.builder g = b'
      rw [builder_on_self, Build.builder_run_map, hrun]
    rw [hbuilder]
    exact (c.ensures_build hb hs g x b' hrun).grounds
  | declares _ htexture huv hread =>
    have hb₁ := hb.mono htexture.toExtends.graph htexture.composites
    have hs₁ := hs.mono htexture.toExtends htexture.composites
    have hb₂ := Composite.grounds_of_builds hb₁ hs₁ huv rfl
    exact hb₂.mono hread.toExtends.graph hread.composites

theorem grounds_after (hb : (s.builder g).Grounds) (hs : (s.builder g).Shares) (calls : List (Call n)) :
    ((s.after calls).builder g).Grounds := by
  induction calls generalizing s with
  | nil => exact hb
  | cons call calls ih => exact ih (grounds_perform hb hs call) ((effect_perform s call g).shares hs)

end Session

end ShaderExpr
