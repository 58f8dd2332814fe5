import ShaderExpr.Proofs.Runs

/-!
# Rejected calls

A call that is rejected leaves all graphs as they are, with their composites: checks come before everything
that is recorded (`Session.Reachable.atomic`).  The calls that record several vertices with checks between
them, which are those that build composites, are never rejected.
-/

namespace ShaderExpr

variable {n : Nat} {b : Builder}

namespace Build

variable {α β σ : Type}

/-- A rejected call leaves the graph and the composites alone. -/
def Atomic (call : Build α) (b : Builder) : Prop :=
  ∀ e b', call.run b = (.error e, b') → b'.graph = b.graph ∧ b'.composites = b.composites

namespace Atomic

theorem checked {call : Build α} {check : Except Rejection σ} {after : σ → α × Builder}
    (hrun : call.run b = Build.checked b check after) : call.Atomic b := by
  intro e b' herror
  rw [hrun] at herror
  cases check with
  | ok s => exact absurd herror nofun
  | error reason =>
    cases herror
    exact ⟨rfl, rfl⟩

theorem accept_bind {check : Except Rejection σ} {f : σ → Build α} (hf : ∀ s, (f s).Atomic b) :
    Atomic (accept check >>= f) b := by
  intro e b' herror
  rw [run_bind, run_accept] at herror
  cases check with
  | ok s => exact hf s e b' herror
  | error reason =>
    cases herror
    exact ⟨rfl, rfl⟩

theorem of_returns {call : Build α} {post : α → Builder → Prop} (h : call.Returns b post) : call.Atomic b := by
  intro e b' herror
  obtain ⟨a, b'', hrun, _⟩ := h
  rw [hrun] at herror
  exact absurd herror nofun

theorem lift (draft : Draft α) : Atomic (liftM draft) b :=
  of_returns (.lift trivial : Returns (liftM draft) b fun _ _ => True)

theorem map {call : Build α} {f : α → β} (h : call.Atomic b) : Atomic (call >>= fun a => pure (f a)) b := by
  intro e b' herror
  rw [run_bind] at herror
  rcases hrun : call.run b with ⟨e' | a, b''⟩
  · rw [hrun] at herror
    cases herror
    exact h e b' hrun
  · rw [hrun] at herror
    exact absurd herror nofun

end Atomic

theorem atomic_setUniform (h : Handle) (value : Value) : (setUniform h value).Atomic b := by
  intro e b' herror
  rw [run_setUniform] at herror
  split at herror <;> cases herror <;> exact ⟨rfl, rfl⟩

theorem atomic_evaluate (h : Handle) (bindings : Bindings) : (evaluate h bindings).Atomic b := by
  intro e b' herror
  rw [run_evaluate] at herror
  cases congrArg Prod.snd herror
  exact ⟨rfl, rfl⟩

end Build

theorem Request.atomic_perform (r : Request) : (r.perform : Build (Reply n)).Atomic b := by
  cases r with
  | record v => exact .map (.lift (Draft.record v))
  | rebind var expr => exact .map (.lift (Draft.rebind var expr))
  | label h name => exact .map (.lift (Draft.label h name))
  | setUniform h value => exact .map (Build.atomic_setUniform h value)

namespace Session

variable {s : Session n} {held : List (Reply n)}

/-- A session is left alone, but for the journals and the identities of textures. -/
def SameGraphs (s s' : Session n) : Prop :=
  ∀ g, (s'.builder g).graph = (s.builder g).graph ∧ (s'.builder g).composites = (s.builder g).composites

theorem sameGraphs_on {g : Fin n} {call : Build (Reply n)} (hcall : call.Atomic (s.builder g)) {e : Error}
    (herror : (s.on g call).1 = .error e) : s.SameGraphs (s.on g call).2 := by
  intro g'
  by_cases hg : g = g'
  · subst hg
    rw [builder_on_self]
    exact hcall e _ (Prod.ext herror rfl)
  · rw [builder_on_ne hg]
    exact ⟨rfl, rfl⟩

/-- A rejected call leaves all graphs alone. -/
theorem sameGraphs_perform (hs : ∀ g, (s.builder g).Legal) {c : Call n} {e : Error}
    (herror : (s.perform c).1 = .error e) : s.SameGraphs (s.perform c).2 := by
  cases c with
  | uniform g value => exact sameGraphs_on (.map (.lift (Node.uniform g value))) herror
  | constant g value => exact sameGraphs_on (.map (.lift (Node.constant g value))) herror
  | attr g ty name => exact sameGraphs_on (.map (.lift (Node.attr g ty name))) herror
  -- the identity of a texture is used up first, which no graph sees
  | colorTexture g label =>
    exact sameGraphs_on (s := s.allocate.2) (.map (.lift (Texture.color g _ label))) herror
  | dataTexture g format label =>
    exact sameGraphs_on (s := s.allocate.2) (.map (.lift (Texture.data g _ format label))) herror
  | withUv t x => exact sameGraphs_on (.map (.checked (Texture.run_withUv _ t x))) herror
  | composite g c => exact sameGraphs_on (.map (.of_returns (c.returns_build g (hs g)))) herror
  | binary op x y => exact sameGraphs_on (.map (.checked (Node.run_binary _ x y op))) herror
  | oneMinus x => exact sameGraphs_on (.map (.checked (Node.run_oneMinus _ x))) herror
  | access x name => exact sameGraphs_on (.map (.checked (Node.run_access _ x name))) herror
  | cast x target => exact sameGraphs_on (.map (.checked (Node.run_cast _ x target))) herror
  | construct g target args => exact sameGraphs_on (.map (.checked (Node.run_construct _ g target args))) herror
  | toVariable x => exact sameGraphs_on (.map (.lift x.toVariable)) herror
  | assign x y => exact sameGraphs_on (.map (.checked (Node.run_assign _ x y))) herror
  | label x name => exact sameGraphs_on (.map (.lift (x.label name))) herror
  | labelVariable v name => exact sameGraphs_on (.map (.lift (v.label name))) herror
  | setUniform g x value =>
    exact sameGraphs_on (.map (.accept_bind fun _ => Build.atomic_setUniform x.handle value)) herror
  | evaluate g x bindings =>
    exact sameGraphs_on (.map (.accept_bind fun _ => Build.atomic_evaluate x.handle bindings)) herror
  | request g r => exact sameGraphs_on r.atomic_perform herror
  | resourceId => exact absurd herror nofun

/-- A composite is built whatever was done before, and then kept. -/
theorem perform_composite (hs : ∀ g, (s.builder g).Legal) (g : Fin n) (c : Composite) :
    ∃ h, (s.perform (.composite g c)).1 = .ok (.node (c.node g h)) ∧
      ((s.perform (.composite g c)).2.builder g).composites c = some h := by
  obtain ⟨x, b', hrun, _, h, rfl, hkept⟩ := c.returns_build g (hs g)
  have hcall : (do return .node (← c.build g) : Build (Reply n)).run (s.builder g) =
      (.ok (.node (c.node g h)), b') := by
    rw [Build.run_bind, hrun]
    rfl
  refine ⟨h, congrArg Prod.fst hcall, ?_⟩
  show ((s.on g _).2.builder g).composites c = _
  rw [builder_on_self, hcall]
  exact hkept

/-- In every run, a rejected call leaves all graphs and their composites alone, whatever its operands.
Building a composite is never rejected, and what is kept of composites is whole: each has its type, and its
parts are kept too. -/
theorem Reachable.atomic (hs : s.Reachable held) :
    (∀ c e, (s.perform c).1 = .error e → s.SameGraphs (s.perform c).2) ∧
    (∀ g c, ∃ h, (s.perform (.composite g c)).1 = .ok (.node (c.node g h)) ∧
      ((s.perform (.composite g c)).2.builder g).composites c = some h) ∧
    ∀ g c h, (s.builder g).composites c = some h →
      (s.builder g).graph.HasType h c.ty ∧ ∀ part ∈ c.parts, ((s.builder g).composites part).isSome := by
  have hlegal := hs.invariant.legal
  refine ⟨?_, ?_, ?_⟩
  · intro c e herror
    exact sameGraphs_perform hlegal herror
  · intro g c
    exact perform_composite hlegal g c
  · intro g c h hkept
    have hsome : ((s.builder g).composites c).isSome := Option.isSome_iff_exists.2 ⟨h, hkept⟩
    exact ⟨(hlegal g).composite hkept, (hlegal g).parts hsome⟩

theorem atomic_tinted :
    (tinted.perform (.assign ⟨0, ⟨2⟩, .vec4, false⟩ (.literal ⟨1.0⟩))).1 = .error (.notVariable .vec4) ∧
      tinted.SameGraphs (tinted.perform (.assign ⟨0, ⟨2⟩, .vec4, false⟩ (.literal ⟨1.0⟩))).2 := by
  obtain ⟨held, hreachable, _⟩ := reachable_tinted
  generalize tinted = s at hreachable ⊢
  have herror : (s.perform (.assign ⟨0, ⟨2⟩, .vec4, false⟩ (.literal ⟨1.0⟩))).1 =
      .error (.notVariable .vec4) := rfl
  exact ⟨herror, (Reachable.atomic hreachable).1 _ _ herror⟩

end Session

end ShaderExpr
