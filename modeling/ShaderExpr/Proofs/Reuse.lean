import ShaderExpr.Proofs.Effects

/-!
# Composites are built once

Any calls may be made on a session, typed ones and requests, with operands from anywhere.  A composite that was built by
one of them, for itself, for another composite or for a texture, is found by all later calls, which leave the session as
it is; and it has the vertices of its definition.  This is `Session.composites_after`.
-/

namespace ShaderExpr

variable {n : Nat}

/-- The composites that a call builds, or finds. -/
def Call.keeps : Call n → List (Fin n × Composite)
  | composite g c => c.needs.map fun d => (g, d)
  | colorTexture g _ | dataTexture g _ _ => [(g, .uv)]
  | _ => []

namespace Session

variable {s : Session n} {g : Fin n} {c : Composite} {h : Handle}

/-- A session after calls, the first of which is the head of the list. -/
def after (s : Session n) (calls : List (Call n)) : Session n :=
  calls.foldl (fun s call => (s.perform call).2) s

/-- A call of a composite finds its vertex, and leaves the session as it is. -/
def Finds (s : Session n) (g : Fin n) (c : Composite) (h : Handle) : Prop :=
  s.perform (.composite g c) = (.ok (.node (c.node g h)), s)

theorem finds_of_kept (hc : (s.builder g).composites c = some h) : s.Finds g c h := by
  have hrun : (c.build g >>= fun x => pure (Reply.node x)).run (s.builder g) =
      (.ok (.node (c.node g h)), s.builder g) := by
    rw [Build.run_bind, Composite.run_build_of_kept hc g]
    rfl
  exact on_eq_ok.2 ⟨_, hrun, s.put_builder g⟩

/-- A composite is kept after a call that asks for it. -/
theorem exists_kept_of_composite (s : Session n) (g : Fin n) (c : Composite) :
    ∃ h, (s.perform (.composite g c)).1 = .ok (.node (c.node g h)) ∧
      ((s.perform (.composite g c)).2.builder g).composites c = some h := by
  obtain ⟨_, b, hrun, _, h, rfl, hkept⟩ := c.returns_kept g (s.builder g)
  have hrun' : (c.build g >>= fun x => pure (Reply.node x)).run (s.builder g) = (.ok (.node (c.node g h)), b) := by
    rw [Build.run_bind, hrun]
    rfl
  have hperform : s.perform (.composite g c) = (.ok (.node (c.node g h)), s.put g b) := on_eq_ok.2 ⟨b, hrun', rfl⟩
  rw [hperform]
  refine ⟨h, rfl, ?_⟩
  rw [builder_put]
  exact hkept

theorem finds_iff : s.Finds g c h ↔ (s.builder g).composites c = some h := by
  constructor
  · intro hfinds
    obtain ⟨k, hreply, hkept⟩ := s.exists_kept_of_composite g c
    rw [hfinds] at hreply hkept
    -- the node that is found has the handle that is kept
    cases hreply
    exact hkept
  · exact finds_of_kept

private theorem exists_kept_of_declare (s : Session n) (g : Fin n) (kind : TextureKind) (info : TextureInfo) :
    ∃ h, ((s.on g do return Reply.texture (← Texture.declare g kind info)).2.builder g).composites .uv = some h := by
  obtain ⟨_, h, _, hkept⟩ := Composite.kept_buildUv g
    (((s.builder g).recorded (.texture kind info)).noted (.textureDeclared (s.builder g).graph.next kind info))
  rw [builder_on_self]
  exact ⟨h, hkept⟩

theorem exists_kept_perform (hs : (s.builder g).Shares) {call : Call n} (hc : (g, c) ∈ call.keeps) :
    ∃ h, ((s.perform call).2.builder g).composites c = some h := by
  have hs' := (effect_perform s call g).shares hs
  cases call with
  | composite g' d =>
    obtain ⟨d', hd', heq⟩ := List.mem_map.1 hc
    cases heq
    obtain ⟨h, _, hkept⟩ := s.exists_kept_of_composite g d
    exact hs'.needs hkept c hd'
  | colorTexture g' label =>
    cases List.mem_singleton.1 hc
    exact exists_kept_of_declare s.allocate.2 g .sampled ⟨⟨s.nextResource⟩, label, none, true, .vec4⟩
  | dataTexture g' format label =>
    cases List.mem_singleton.1 hc
    exact exists_kept_of_declare s.allocate.2 g .data ⟨⟨s.nextResource⟩, label, some format, false, texelType format⟩
  | _ => exact absurd hc List.not_mem_nil

theorem extends_after (s : Session n) (calls : List (Call n)) (g : Fin n) :
    (s.builder g).Extends ((s.after calls).builder g) := by
  induction calls generalizing s with
  | nil => exact .refl _
  | cons call calls ih => exact (effect_perform s call g).toExtends.trans (ih (s.perform call).2)

theorem shares_after (hs : (s.builder g).Shares) (calls : List (Call n)) : ((s.after calls).builder g).Shares := by
  induction calls generalizing s with
  | nil => exact hs
  | cons call calls ih => exact ih ((effect_perform s call g).shares hs)

theorem exists_kept_after (hs : (s.builder g).Shares) {calls : List (Call n)} {call : Call n} (hcall : call ∈ calls)
    (hc : (g, c) ∈ call.keeps) : ∃ h, ((s.after calls).builder g).composites c = some h := by
  induction calls generalizing s with
  | nil => exact absurd hcall List.not_mem_nil
  | cons first calls ih =>
    rcases List.mem_cons.1 hcall with rfl | hcall
    · -- the calls after this one keep what it has built
      obtain ⟨h, hkept⟩ := exists_kept_perform hs hc
      exact ⟨h, (extends_after (s.perform call).2 calls g).composites hkept⟩
    · exact ih ((effect_perform s first g).shares hs) hcall

/-- After any calls, a composite is built by its next call at the latest, and found from then on, as well as the
composites that were built before.  What is found is what is kept, and has the vertices of its definition. -/
theorem composites_after (configs : Vector Config n) (calls : List (Call n)) (g : Fin n) :
    let s := (ofConfigs configs).after calls
    (∀ c, ∃ h, (s.perform (.composite g c)).1 = .ok (.node (c.node g h)) ∧
        ∀ later, ((s.perform (.composite g c)).2.after later).Finds g c h) ∧
      (∀ call ∈ calls, ∀ c, (g, c) ∈ call.keeps → ∃ h, s.Finds g c h) ∧
      (∀ c h, s.Finds g c h ↔ (s.builder g).composites c = some h) ∧
      ∀ c h, (s.builder g).composites c = some h → c.Formed (s.builder g) h := by
  intro s
  have hconfigs : ((ofConfigs configs).builder g).Shares := by
    rw [builder_ofConfigs]
    exact .ofConfig _
  have hs : (s.builder g).Shares := shares_after hconfigs calls
  refine ⟨?_, ?_, fun _ _ => finds_iff, hs⟩
  · intro c
    obtain ⟨h, hreply, hkept⟩ := s.exists_kept_of_composite g c
    refine ⟨h, hreply, ?_⟩
    intro later
    exact finds_of_kept ((extends_after _ later g).composites hkept)
  · intro call hcall c hc
    obtain ⟨h, hkept⟩ := exists_kept_after hconfigs hcall hc
    exact ⟨h, finds_of_kept hkept⟩

end Session

end ShaderExpr
