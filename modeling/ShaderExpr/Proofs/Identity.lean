import ShaderExpr.Proofs.Traces

/-!
# Texture identity

A texture is handed out by the call that declares it, and by calls that read it again at other coordinates
(`Session.perform_texture`).  Any number of these leads to the same texture (`Texture.Rereads`), which is stored in
the graph as it is handed out.  A texture that is stored was declared by a call (`Session.Trace.exists_declared`), so
that no two of them have the same identity.

All of this is gathered in `Session.Trace.identities`.
-/

namespace ShaderExpr

variable {n : Nat}

/-- The texel vertex of a texture reads its resource at its coordinates. -/
def Texture.Reads (t : Texture n) (graph : Graph) : Prop :=
  graph.vertex? t.texel.handle =
    some (.op (if t.info.filtered then .sample else .fetch) t.info.texel [t.resource, t.uv.handle])

theorem Texture.Reads.mono {t : Texture n} {graph graph' : Graph} (ht : t.Reads graph) (hg : graph.Grows graph') :
    t.Reads graph' :=
  hg.stays ht rfl

/-- A texture is read again at other coordinates. -/
structure Texture.RereadOf (t' t : Texture n) : Prop where
  info : t'.info = t.info
  resource : t'.resource = t.resource
  graph : t'.texel.graph = t.texel.graph

theorem Texture.RereadOf.refl (t : Texture n) : t.RereadOf t :=
  ⟨rfl, rfl, rfl⟩

theorem Texture.RereadOf.trans {t t' t'' : Texture n} (h' : t''.RereadOf t') (h : t'.RereadOf t) : t''.RereadOf t :=
  ⟨h'.info.trans h.info, h'.resource.trans h.resource, h'.graph.trans h.graph⟩

/-- A texture that a call of a session hands out: it is declared, or read again. -/
structure Session.HandsOut (s : Session n) (c : Call n) (t : Texture n) : Prop where
  source : c.declares? ⟨s.nextResource⟩ = some (t.texel.graph, t.info) ∧
      t.resource = (s.builder t.texel.graph).graph.next ∨
    ∃ t', c = .withUv t' t.uv ∧ t.RereadOf t'
  texel_ty : t.texel.ty = t.info.texel
  reads : t.Reads ((s.perform c).2.builder t.texel.graph).graph

namespace Session

variable {s : Session n} {events : List (Event n)} {c : Call n} {e : Event n} {g : Fin n} {t : Texture n}

private theorem handsOut_withUv {t' : Texture n} {uv : Node n} (hr : (s.perform (.withUv t' uv)).1 = .ok (.texture t)) :
    s.HandsOut (.withUv t' uv) t := by
  obtain ⟨_, hrun, hreply⟩ := Build.exists_of_map (Prod.ext hr rfl)
  cases hreply
  obtain ⟨_, _, haccepted⟩ := Build.exists_of_checked ((Texture.run_withUv _ t' uv).symm.trans hrun)
  obtain ⟨rfl, hbuilder⟩ := Prod.mk.inj haccepted
  refine ⟨.inr ⟨t', rfl, rfl, rfl, rfl⟩, rfl, ?_⟩
  have hafter := (builder_on_self s _ _).trans hbuilder.symm
  show Texture.Reads _ ((s.on _ _).2.builder _).graph
  rw [hafter]
  exact Graph.vertex?_next _ _

theorem perform_texture (hr : (s.perform c).1 = .ok (.texture t)) : s.HandsOut c t := by
  cases c with
  | colorTexture g label =>
    cases hr
    refine ⟨.inl ⟨rfl, rfl⟩, rfl, ?_⟩
    show Texture.Reads _ ((s.allocate.2.on g _).2.builder g).graph
    rw [builder_on_self]
    exact Graph.vertex?_next _ _
  | dataTexture g format label =>
    cases hr
    refine ⟨.inl ⟨rfl, rfl⟩, rfl, ?_⟩
    show Texture.Reads _ ((s.allocate.2.on g _).2.builder g).graph
    rw [builder_on_self]
    exact Graph.vertex?_next _ _
  | withUv t' uv => exact handsOut_withUv hr
  | resourceId => exact absurd hr nofun
  | request g r =>
    cases r with
    | record | rebind | label => exact absurd hr nofun
    | setUniform h value =>
      obtain ⟨_, _, hreply⟩ := Build.exists_of_map (Prod.ext hr rfl)
      cases hreply
  | _ =>
    obtain ⟨_, _, hreply⟩ := Build.exists_of_map (Prod.ext hr rfl)
    cases hreply

/-- The textures that are stored in a graph after a typed call were stored before, or the call declares them. -/
theorem stored_of_effect {id : ResourceId} {b b' : Builder} {h : Handle} {kind : TextureKind} {info : TextureInfo}
    (heffect : c.Effect id g b b') (hc : c.isTyped = true) (hv : b'.graph.vertex? h = some (.texture kind info)) :
    b.graph.vertex? h = some (.texture kind info) ∨ c.declares? id = some (g, info) ∧ h = b.graph.next := by
  have hnew : ∀ {vertices : List Vertex}, (∀ v ∈ vertices, v.isTexture = false) → .texture kind info ∉ vertices :=
    fun hvertices hmem => absurd (hvertices _ hmem) nofun
  cases heffect with
  | adds hadds htextures => exact .inl ((hadds.graph.vertex?_cases hv).resolve_right fun h => hnew (htextures hc) h.2)
  | @sets k value _ _ _ graph =>
    obtain ⟨old, hold, hgraph⟩ := Graph.setUniform_ok graph
    rw [hgraph] at hv
    by_cases hk : k = h
    · subst hk
      rw [Graph.vertex?_setValue_self _ _ hold] at hv
      cases hv
    · exact .inl ((Graph.vertex?_setValue_ne _ _ hk).symm.trans hv)
  | builds _ hbuilds =>
    obtain ⟨vertices, labels, hadds, hvertices, _⟩ := hbuilds.graph
    exact .inl ((hadds.vertex?_cases hv).resolve_right fun h => hnew hvertices h.2)
  | @declares info' b₁ b₂ uv hdeclares htexture huv hread =>
    obtain ⟨vertices, labels, hadds, hvertices, _⟩ := huv.graph
    have hread' : ∀ v ∈ [Vertex.op (if info'.filtered then .sample else .fetch) info'.texel [b.graph.next, uv]],
        v.isTexture = false := List.forall_mem_singleton.2 rfl
    have hv₂ := (hread.graph.vertex?_cases hv).resolve_right fun h => hnew hread' h.2
    have hv₁ := (hadds.vertex?_cases hv₂).resolve_right fun h => hnew hvertices h.2
    refine (htexture.graph.vertex?_cases hv₁).imp_right ?_
    rintro ⟨hle, hmem⟩
    cases List.mem_singleton.1 hmem
    -- the texture is the one vertex that was recorded first
    have hlt := Graph.index_lt_size hv₁
    rw [htexture.graph.size_eq] at hlt
    exact ⟨hdeclares, congrArg Handle.mk (Nat.le_antisymm (Nat.le_of_lt_succ hlt) hle)⟩

theorem exists_handsOut_of_declares {info : TextureInfo} (hc : c.declares? ⟨s.nextResource⟩ = some (g, info)) :
    ∃ t, (s.perform c).1 = .ok (.texture t) ∧ t.texel.graph = g ∧ t.info = info ∧
      t.resource = (s.builder g).graph.next := by
  cases c with
  | colorTexture | dataTexture =>
    cases hc
    exact ⟨_, rfl, rfl, rfl, rfl⟩
  | _ => exact absurd hc nofun

end Session

/-- A texture is got from another by reading it again, any number of times. -/
inductive Texture.Rereads (events : List (Event n)) (t : Texture n) : Texture n → Prop where
  | refl : Rereads events t t
  | withUv {t' t'' : Texture n} {uv : Node n} (h : Rereads events t t')
    (he : ⟨.withUv t' uv, .ok (.texture t'')⟩ ∈ events) : Rereads events t t''

theorem Texture.Rereads.mono {events events' : List (Event n)} {t t' : Texture n} (h : t.Rereads events t')
    (hevents : events ⊆ events') : t.Rereads events' t' := by
  induction h with
  | refl => exact .refl
  | withUv _ he ih => exact .withUv ih (hevents he)

/-- A texture is stored as it is handed out, and read at texture coordinates of its graph. -/
structure Texture.Intact (t : Texture n) (graph : Graph) : Prop where
  resource : graph.vertex? t.resource = some (.texture t.info.kind t.info)
  reads : t.Reads graph
  texel_ty : t.texel.ty = t.info.texel
  uv_graph : t.uv.graph = t.texel.graph
  uv_ty : t.uv.ty = .vec2
  uv : graph.HasType t.uv.handle .vec2

namespace Session.Trace

variable {s : Session n} {events : List (Event n)} {c : Call n} {e : Event n} {g : Fin n} {t t' : Texture n}

/-- A call of a trace was made in some session. -/
theorem exists_session (hs : s.Trace events) (he : e ∈ events) :
    ∃ s' : Session n, e.outcome = (s'.perform e.call).1 := by
  induction hs with
  | start => exact absurd he List.not_mem_nil
  | @call s events _ c _ ih =>
    rcases List.mem_cons.1 he with rfl | he
    · exact ⟨s, rfl⟩
    · exact ih he

theorem rereadOf (hs : s.Trace events) (h : t.Rereads events t') : t'.RereadOf t := by
  induction h with
  | refl => exact .refl t
  | @withUv t' t'' uv _ he ih =>
    obtain ⟨s', hs'⟩ := hs.exists_session he
    rcases (perform_texture hs'.symm).source with ⟨hdeclares, _⟩ | ⟨_, hc, hreread⟩
    · exact absurd hdeclares nofun
    · cases hc
      exact hreread.trans ih

/-- A texture that is held is one that was declared, read again or not. -/
theorem exists_origin (hs : s.Trace events) (he : e ∈ events) (ht : e.outcome = .ok (.texture t)) :
    ∃ e₀ ∈ events, ∃ t₀, e₀.Declares t₀ ∧ t₀.Rereads events t := by
  induction hs generalizing e t with
  | start => exact absurd he List.not_mem_nil
  | @call s events _ c hc ih =>
    have hsub := List.subset_cons_self (⟨c, (s.perform c).1⟩ : Event n) events
    rcases List.mem_cons.1 he with rfl | he
    · rcases (perform_texture ht).source with ⟨hdeclares, _⟩ | ⟨t', rfl, _⟩
      · exact ⟨_, List.mem_cons_self, t, ⟨Call.id_of_declares hdeclares ▸ hdeclares, ht⟩, .refl⟩
      · obtain ⟨e', he', ht'⟩ := List.mem_filterMap.1 (hc.textures t' List.mem_cons_self)
        obtain ⟨e₀, he₀, t₀, hdeclares, hrereads⟩ := ih he' (Event.reply?_eq_some.1 ht')
        have hevent : (⟨.withUv t' t.uv, .ok (.texture t)⟩ : Event n) ∈ ⟨_, _⟩ :: events :=
          List.mem_cons.2 (.inl (congrArg (Event.mk (.withUv t' t.uv)) ht.symm))
        exact ⟨e₀, hsub he₀, t₀, hdeclares, .withUv (hrereads.mono hsub) hevent⟩
    · obtain ⟨e₀, he₀, t₀, hdeclares, hrereads⟩ := ih he ht
      exact ⟨e₀, hsub he₀, t₀, hdeclares, hrereads.mono hsub⟩

/-- A texture that is stored was declared by a call of the trace. -/
theorem exists_declared (hs : s.Trace events) {h : Handle} {kind : TextureKind} {info : TextureInfo}
    (hv : (s.builder g).graph.vertex? h = some (.texture kind info)) :
    ∃ e ∈ events, ∃ t, e.Declares t ∧ t.texel.graph = g ∧ t.resource = h ∧ t.info = info := by
  induction hs with
  | start configs =>
    rw [builder_ofConfigs] at hv
    exact absurd hv nofun
  | @call s events _ c hc ih =>
    rcases stored_of_effect (effect_perform s c g) hc.typed hv with hv | ⟨hdeclares, rfl⟩
    · obtain ⟨e, he, t, ht⟩ := ih hv
      exact ⟨e, List.mem_cons_of_mem _ he, t, ht⟩
    · obtain ⟨t, hr, rfl, rfl, hresource⟩ := exists_handsOut_of_declares hdeclares
      exact ⟨_, List.mem_cons_self, t, ⟨Call.id_of_declares hdeclares ▸ hdeclares, hr⟩, rfl, hresource, rfl⟩

theorem reads (hs : s.Trace events) (he : e ∈ events) (ht : e.outcome = .ok (.texture t)) :
    t.texel.ty = t.info.texel ∧ t.Reads (s.builder t.texel.graph).graph := by
  induction hs with
  | start => exact absurd he List.not_mem_nil
  | @call s events _ c _ ih =>
    rcases List.mem_cons.1 he with rfl | he
    · have hout := perform_texture ht
      exact ⟨hout.texel_ty, hout.reads⟩
    · obtain ⟨htype, hreads⟩ := ih he
      exact ⟨htype, hreads.mono (effect_perform s c t.texel.graph).toExtends.graph⟩

theorem intact (hs : s.Trace events) (he : e ∈ events) (ht : e.outcome = .ok (.texture t)) :
    t.Intact (s.builder t.texel.graph).graph := by
  have hbacked : t.Backed (s.builder t.texel.graph).graph :=
    hs.reachable.invariant.backed _ (List.mem_filterMap.2 ⟨e, he, Event.reply?_eq_some.2 ht⟩)
  obtain ⟨htype, hreads⟩ := hs.reads he ht
  have huv := hbacked.uv.hasType
  rw [hbacked.uv_ty] at huv
  exact ⟨hbacked.resource, hreads, htype, hbacked.uv_graph, hbacked.uv_ty, huv⟩

end Session.Trace

/-- Identities are issued once, in increasing order, and textures keep theirs. -/
structure Session.Identities (s : Session n) (events : List (Event n)) : Prop where
  /-- Every call that takes an identity is given one. -/
  issues : ∀ e ∈ events, e.call.allocates = true → ∃ id, e.issued? = some id
  increasing : (issued events).Pairwise fun later earlier => earlier.number < later.number
  /-- A counter of 64 bits does not overflow before as many identities are issued. -/
  bounded : ∀ id ∈ issued events, 0 < id.number ∧ id.number ≤ (issued events).length
  /-- No two textures that are stored have the same identity, also in different graphs. -/
  stored : ∀ {g g' : Fin n} {h h' : Handle} {kind kind' : TextureKind} {info info' : TextureInfo},
    (s.builder g).graph.vertex? h = some (.texture kind info) →
      (s.builder g').graph.vertex? h' = some (.texture kind' info') → info.id = info'.id → g = g' ∧ h = h'
  /-- An identity that was issued alone belongs to no texture. -/
  alone : ∀ {id : ResourceId} {g : Fin n} {h : Handle} {kind : TextureKind} {info : TextureInfo},
    ⟨.resourceId, .ok (.resource id)⟩ ∈ events → (s.builder g).graph.vertex? h = some (.texture kind info) →
      info.id ≠ id
  /-- Reading a texture again keeps its description, its resource and its graph. -/
  rereads : ∀ {t t' : Texture n}, t.Rereads events t' → t'.RereadOf t
  /-- Every texture that is handed out was declared, and perhaps read again. -/
  origin : ∀ {e : Event n} {t : Texture n}, e ∈ events → e.outcome = .ok (.texture t) →
    ∃ e₀ ∈ events, ∃ t₀, e₀.Declares t₀ ∧ t₀.Rereads events t
  /-- Every texture that is handed out is stored as it is. -/
  intact : ∀ {e : Event n} {t : Texture n}, e ∈ events → e.outcome = .ok (.texture t) →
    t.Intact (s.builder t.texel.graph).graph

namespace Session

variable {s : Session n} {events : List (Event n)}

theorem Trace.exists_issued (hs : s.Trace events) {e : Event n} (he : e ∈ events) (halloc : e.call.allocates = true) :
    ∃ id, e.issued? = some id := by
  obtain ⟨s', hs'⟩ := hs.exists_session he
  refine ⟨⟨s'.nextResource⟩, ?_⟩
  have hissued := s'.issued?_perform e.call
  rw [← hs', if_pos halloc] at hissued
  exact hissued

/-- Whatever typed calls are made on the graphs of a session, textures and other resources have identities of their
own, and textures keep theirs. -/
theorem Trace.identities (hs : s.Trace events) : s.Identities events where
  issues _ he halloc := hs.exists_issued he halloc
  increasing := hs.counts.increasing
  bounded := hs.counts.bounded
  stored := by
    intro g g' h h' kind kind' info info' hv hv' hid
    obtain ⟨e, he, t, hdeclares, rfl, rfl, rfl⟩ := hs.exists_declared hv
    obtain ⟨e', he', t', hdeclares', rfl, rfl, rfl⟩ := hs.exists_declared hv'
    have hevent := hs.event_unique he he' hdeclares.issued?_eq (hid ▸ hdeclares'.issued?_eq)
    subst hevent
    cases hdeclares.2.symm.trans hdeclares'.2
    exact ⟨rfl, rfl⟩
  alone := by
    rintro id g h kind info hresource hv rfl
    obtain ⟨e, he, t, hdeclares, rfl, rfl, rfl⟩ := hs.exists_declared hv
    cases hs.event_unique he hresource hdeclares.issued?_eq rfl
    exact absurd hdeclares.1 nofun
  rereads := hs.rereadOf
  origin := hs.exists_origin
  intact := hs.intact

/-- A session with a call that was made on it, and its outcome. -/
def logged (log : Session n × List (Event n)) (c : Call n) : Session n × List (Event n) :=
  ((log.1.perform c).2, ⟨c, (log.1.perform c).1⟩ :: log.2)

/-- The color texture of the first of two graphs. -/
def albedo : Texture 2 :=
  let first : Fin 2 := ⟨0, Nat.two_pos⟩
  ⟨⟨first, ⟨2⟩, .vec4, false⟩, ⟨0⟩, ⟨first, ⟨1⟩, .vec2, false⟩, ⟨⟨1⟩, "albedo", none, true, .vec4⟩⟩

/-- The texture is read again at its coordinates, but not at its texel; then an identity is taken alone. -/
def resampled : Session 2 × List (Event 2) :=
  [.colorTexture albedo.texel.graph "albedo", .withUv albedo albedo.uv, .withUv albedo albedo.texel,
    .resourceId].foldl logged (ofConfigs (Vector.replicate 2 .standard), [])

theorem trace_resampled : resampled.1.Trace resampled.2 := by
  have hstart : (ofConfigs (Vector.replicate 2 .standard)).Trace [] := .start _
  have hdeclared := hstart.call (.colorTexture albedo.texel.graph "albedo") (by decide)
  have hreread := hdeclared.call (.withUv albedo albedo.uv) (by decide +kernel)
  have hrejected := hreread.call (.withUv albedo albedo.texel) (by decide +kernel)
  exact hrejected.call .resourceId (by decide +kernel)

theorem identities_resampled :
    resampled.1.Trace resampled.2 ∧ resampled.1.Identities resampled.2 ∧ issued resampled.2 = [⟨2⟩, ⟨1⟩] :=
  ⟨trace_resampled, trace_resampled.identities, rfl⟩

end Session

end ShaderExpr
