import ShaderExpr.Proofs.Operations
import ShaderExpr.Proofs.Runs

/-!
# Soundness of evaluation

In a legal graph, what a vertex is evaluated to has its type, or something outside the rules is to blame for the
failure (`Graph.Blames`): a texture, an attribute that is not bound or bound to another type, or a division of
integers.  So evaluation succeeds where none of these is found (`Session.Reachable.evaluate_sound`).
-/

namespace ShaderExpr

namespace Graph

/-- What a failed evaluation of a legal graph comes from. -/
inductive Blames (g : Graph) (b : Bindings) : EvalFailure → Prop where
  | texture {h : Handle} {kind : TextureKind} {info : TextureInfo} (hv : g.vertex? h = some (.texture kind info)) :
    Blames g b (.textureValue info.label)
  | unbound {h : Handle} {ty : ValueType} {name : String} (hv : g.vertex? h = some (.attr ty name))
    (hname : b.get? name = none) : Blames g b (.attributeUnbound name)
  | mistyped {h : Handle} {ty : ValueType} {name : String} {v : Value} (hv : g.vertex? h = some (.attr ty name))
    (hname : b.get? name = some v) (hty : v.ty ≠ ty) : Blames g b (.attributeType name v.ty ty)
  | divisionByZero {h : Handle} {ty : ValueType} {operands : List Handle}
    (hv : g.vertex? h = some (.op (.binary .div) ty operands)) (hkind : ty.kind = .int ∨ ty.kind = .uint) :
    Blames g b .divisionByZero

/-- An evaluation to a value of a type, or a failure that something is to blame for. -/
def Sound (g : Graph) (b : Bindings) (ty : ValueType) (outcome : Except EvalFailure Value) : Prop :=
  (∃ v, outcome = .ok v ∧ v.ty = ty) ∨ ∃ failure, outcome = .error failure ∧ g.Blames b failure

variable {g : Graph} {b : Bindings} {h : Handle} {ty : ValueType}

namespace Sound

theorem bind {operand : ValueType} {outcome : Except EvalFailure Value} {f : Value → Except EvalFailure Value}
    (houtcome : g.Sound b operand outcome) (hf : ∀ v, v.ty = operand → g.Sound b ty (f v)) :
    g.Sound b ty (outcome >>= f) := by
  rcases houtcome with ⟨v, rfl, hv⟩ | ⟨failure, rfl, hblames⟩
  · exact hf v hv
  · exact .inr ⟨failure, rfl, hblames⟩

/-- Operands are evaluated from the first to the last, until one fails. -/
theorem mapM_bind {operands : List Handle} {types : List ValueType} {read : Handle → Except EvalFailure Value}
    {f : List Value → Except EvalFailure Value}
    (hread : List.Forall₂ (fun o operand => g.Sound b operand (read o)) operands types)
    (hf : ∀ args : List Value, args.map Value.ty = types → g.Sound b ty (f args)) :
    g.Sound b ty (operands.mapM read >>= f) := by
  induction hread generalizing f with
  | nil => exact hf [] rfl
  | @cons o operand operands types ho _ ih =>
    rw [List.mapM_cons]
    rcases ho with ⟨v, hv, hty⟩ | ⟨failure, hv, hblames⟩
    · have hrest := ih (f := fun args => f (v :: args)) fun args hargs =>
        hf _ (by rw [List.map_cons, hty, hargs])
      rw [hv]
      cases hmapM : operands.mapM read with
      | ok args =>
        rw [hmapM] at hrest
        exact hrest
      | error failure =>
        rw [hmapM] at hrest
        exact hrest
    · rw [hv]
      exact .inr ⟨failure, rfl, hblames⟩

variable {read : Handle → Except EvalFailure Value} {f : List Value → Except EvalFailure Value}

theorem mapM_single {o : Handle} {operand : ValueType} (ho : g.Sound b operand (read o))
    (hf : ∀ v, v.ty = operand → g.Sound b ty (f [v])) : g.Sound b ty ([o].mapM read >>= f) := by
  refine mapM_bind (.cons ho .nil) ?_
  intro args hargs
  obtain ⟨v, args, rfl, hv, hargs⟩ := List.map_eq_cons_iff.1 hargs
  cases List.map_eq_nil_iff.1 hargs
  exact hf v hv

theorem mapM_pair {l r : Handle} {left right : ValueType} (hl : g.Sound b left (read l))
    (hr : g.Sound b right (read r)) (hf : ∀ x y, x.ty = left → y.ty = right → g.Sound b ty (f [x, y])) :
    g.Sound b ty ([l, r].mapM read >>= f) := by
  refine mapM_bind (.cons hl (.cons hr .nil)) ?_
  intro args hargs
  obtain ⟨x, args, rfl, hx, hargs⟩ := List.map_eq_cons_iff.1 hargs
  obtain ⟨y, args, rfl, hy, hargs⟩ := List.map_eq_cons_iff.1 hargs
  cases List.map_eq_nil_iff.1 hargs
  exact hf x y hx hy

end Sound

theorem sound_attr {name : String} (hv : g.vertex? h = some (.attr ty name)) :
    g.Sound b ty (b.value ty name) := by
  unfold Bindings.value
  split
  · rename_i v hname
    split
    · rename_i hty
      exact .inl ⟨v, rfl, hty⟩
    · rename_i hty
      exact .inr ⟨_, rfl, .mistyped hv hname hty⟩
  · rename_i hname
    exact .inr ⟨_, rfl, .unbound hv hname⟩

theorem sound_binary {op : BinaryOp} {operands : List Handle} {left right : Value}
    (hv : g.vertex? h = some (.op (.binary op) ty operands)) (rule : ⟨left.ty, .typed right.ty, ty⟩ ∈ op.rules) :
    g.Sound b ty (Value.binary op ty left right) := by
  rcases Value.binary_gives rule with hvalue | ⟨herror, rfl, hkind⟩
  · exact .inl hvalue
  · exact .inr ⟨_, herror, .divisionByZero hv hkind⟩

/-- A vertex that reads a texture has no value, since the texture has none. -/
theorem sound_read_texture {op : Op} {t uv : Handle} {kind : TextureKind} {info : TextureInfo}
    (ht : g.vertex? t = some (.texture kind info)) (hlt : t.index < h.index) :
    g.Sound b ty ([t, uv].mapM (g.readAt b h) >>= op.apply ty) := by
  have hread : g.readAt b h t = .error (.textureValue info.label) := by
    unfold readAt
    rw [if_pos hlt, valueAt_texture (visibleFrom_mono (Nat.le_of_lt hlt)) ht]
  rw [List.mapM_cons, hread]
  exact .inr ⟨_, rfl, .texture ht⟩

/-- One level of an evaluation: a legal vertex is sound if what it reads is. -/
theorem Legal.sound_step (hg : g.Legal) {visible : Nat} (hsees : g.visibleFrom h ≤ visible) {v : Vertex}
    (hv : g.vertex? h = some v) (htexture : v.isTexture = false)
    (hread : ∀ o ∈ v.reads, ∀ operand, g.HasType o operand → g.Sound b operand (g.readAt b h o))
    (hbound : ∀ i r operand, g.latestRebind? h visible = some (i, r) → g.HasType r.expr operand →
      g.Sound b operand (g.boundAt b i r)) :
    g.Sound b v.ty (g.valueAt b h visible) := by
  have hlt := hg.reads_lt hv
  cases hg.vertex hv with
  | constant value =>
    rw [valueAt_op hsees hv]
    exact .inl ⟨value, rfl, rfl⟩
  | @binary op l r left right ty hl hr rule =>
    rw [valueAt_op hsees hv]
    refine .mapM_pair (hread l List.mem_cons_self left hl)
      (hread r (List.mem_cons_of_mem _ List.mem_cons_self) right hr) ?_
    rintro x y rfl rfl
    exact sound_binary hv rule
  | @oneMinus x operand ty hx rule =>
    rw [valueAt_op hsees hv]
    refine .mapM_single (hread x List.mem_cons_self operand hx) ?_
    rintro v rfl
    exact .inl (Value.oneMinus_ok rule)
  | @construct target operands types hs shape =>
    have hsound : List.Forall₂ (fun o operand => g.Sound b operand (g.readAt b h o)) operands types := by
      rw [List.forall₂_iff_zip] at hs ⊢
      exact ⟨hs.1, fun hmem => hread _ (List.of_mem_zip hmem).1 _ (hs.2 hmem)⟩
    rw [valueAt_op hsees hv]
    refine .mapM_bind hsound ?_
    rintro args rfl
    rw [List.map_map] at shape
    exact .inl (Value.construct_ok shape)
  | @cast x operand target hx conversion =>
    rw [valueAt_op hsees hv]
    refine .mapM_single (hread x List.mem_cons_self operand hx) ?_
    rintro v rfl
    exact .inl (Value.cast_ok conversion)
  | sample ht =>
    rw [valueAt_op hsees hv]
    exact sound_read_texture ht (hlt _ List.mem_cons_self)
  | fetch ht =>
    rw [valueAt_op hsees hv]
    exact sound_read_texture ht (hlt _ List.mem_cons_self)
  | @component source name operand picked hs accessor =>
    rw [valueAt_component hsees hv]
    refine (hread source List.mem_cons_self operand hs).bind ?_
    rintro v rfl
    exact .inl (Value.access_ok source accessor)
  | uniform value =>
    rw [valueAt_uniform hsees hv]
    exact .inl ⟨value, rfl, rfl⟩
  | attr ty name =>
    rw [valueAt_attr hsees hv]
    exact sound_attr hv
  | texture info => exact absurd htexture nofun
  | @var init ty hinit =>
    rw [valueAt_var hsees hv]
    split
    · -- what is bound has the type of the variable
      rename_i i r hr
      obtain ⟨_, hget, rfl⟩ := latestRebind?_some hr
      obtain ⟨_, ty', _, hvar, hexpr⟩ := hg.rebind hget
      cases Option.some.inj (hv.symm.trans hvar)
      exact hbound i r ty hr hexpr
    · exact hread init List.mem_cons_self ty hinit

/-- What a vertex of a legal graph is evaluated to has its type, unless something is to blame for a failure. -/
theorem Legal.sound_valueAt (hg : g.Legal) (b : Bindings) {h : Handle} {ty : ValueType} {visible : Nat}
    (hsees : g.visibleFrom h ≤ visible) (ht : g.HasType h ty) : g.Sound b ty (g.valueAt b h visible) := by
  induction hrank : visible * g.size + h.index using Nat.strongRecOn generalizing h ty visible with
  | ind rank ih =>
    obtain ⟨v, hv, rfl, htexture⟩ := ht
    -- operands have a smaller index and see no more rebinds; from what is bound, fewer are visible
    refine hg.sound_step hsees hv htexture ?_ ?_
    · intro o ho operand hoperand
      have hlt := hg.reads_lt hv o ho
      have hmul := Nat.mul_le_mul_right g.size hsees
      unfold readAt
      rw [if_pos hlt]
      exact ih _ (by omega) (visibleFrom_mono (Nat.le_of_lt hlt)) hoperand rfl
    · intro i r operand hr hoperand
      obtain ⟨hi, hget, _⟩ := latestRebind?_some hr
      have hlt := (hg.rebind hget).1
      have hsize := hoperand.index_lt
      have hmul := Nat.mul_le_mul_right g.size (Nat.succ_le_of_lt hi)
      rw [Nat.succ_mul] at hmul
      unfold boundAt
      rw [if_pos hlt]
      exact ih _ (by omega) (visibleFrom_le_of_lt_point hget hlt) hoperand rfl

end Graph

namespace Graph

variable {g : Graph} {b : Bindings} {failure : EvalFailure}

theorem Blames.error_eq (hblames : g.Blames b failure) : failure.error = .unevaluable failure.reason := by
  cases hblames <;> rfl

/-- Nothing is to blame in a graph without textures and divisions of integers, if all its attributes are bound
to values of their types. -/
theorem not_blames (htexture : ∀ h kind info, g.vertex? h ≠ some (.texture kind info))
    (hdiv : ∀ h ty operands, g.vertex? h = some (.op (.binary .div) ty operands) → ty.kind ≠ .int ∧ ty.kind ≠ .uint)
    (hattr : ∀ h ty name, g.vertex? h = some (.attr ty name) → ∃ v, b.get? name = some v ∧ v.ty = ty) :
    ¬ g.Blames b failure := by
  intro hblames
  cases hblames with
  | texture hv => exact htexture _ _ _ hv
  | unbound hv hname =>
    obtain ⟨v, hget, _⟩ := hattr _ _ _ hv
    exact absurd (hname.symm.trans hget) nofun
  | mistyped hv hname hty =>
    obtain ⟨v, hget, hv⟩ := hattr _ _ _ hv
    cases Option.some.inj (hname.symm.trans hget)
    exact hty hv
  | divisionByZero hv hkind =>
    obtain ⟨hint, huint⟩ := hdiv _ _ _ hv
    exact hkind.elim hint huint

end Graph

namespace Session

variable {n : Nat} {s : Session n} {held : List (Reply n)} {x : Node n}

/-- A node is evaluated on its own graph. -/
theorem perform_evaluate (s : Session n) (x : Node n) (b : Bindings) :
    (s.perform (.evaluate x.graph x b)).1 = ((s.builder x.graph).graph.evaluate b x.handle).map .value := by
  show ((x.evaluate x.graph b >>= fun v => pure (.value v) : Build (Reply n)).run (s.builder x.graph)).1 = _
  have howner := Operand.checkOwner_node_eq_ok.2 (rfl : x.graph = x.graph)
  rw [Build.run_bind, Node.run_evaluate, howner]
  dsimp only
  cases (s.builder x.graph).graph.evaluate b x.handle <;> rfl

/-- In every run, evaluating what is held gives a value of its type, unless a texture, an attribute or a
division of integers is to blame for a failure; and it gives one if the graph has none of those that could be.
-/
theorem Reachable.evaluate_sound (hs : s.Reachable held) (hx : ∃ r ∈ held, x ∈ r.nodes) (b : Bindings) :
    ((∃ v, (s.perform (.evaluate x.graph x b)).1 = .ok (.value v) ∧ v.ty = x.ty) ∨
      ∃ failure, (s.perform (.evaluate x.graph x b)).1 = .error (.unevaluable failure.reason) ∧
        (s.builder x.graph).graph.Blames b failure) ∧
    ((∀ h kind info, (s.builder x.graph).graph.vertex? h ≠ some (.texture kind info)) →
      (∀ h ty operands, (s.builder x.graph).graph.vertex? h = some (.op (.binary .div) ty operands) →
        ty.kind ≠ .int ∧ ty.kind ≠ .uint) →
      (∀ h ty name, (s.builder x.graph).graph.vertex? h = some (.attr ty name) →
        ∃ v, b.get? name = some v ∧ v.ty = ty) →
      ∃ v, (s.perform (.evaluate x.graph x b)).1 = .ok (.value v) ∧ v.ty = x.ty) := by
  have hinvariant := hs.invariant
  have hlegal := (hinvariant.legal x.graph).graph
  have hbacked := hinvariant.node hx
  rw [perform_evaluate]
  generalize (s.builder x.graph).graph = g at *
  have hsound := hlegal.sound_valueAt b (g.visibleFrom_le x.handle) hbacked.hasType
  unfold Graph.evaluate
  rw [g.eval_eq_valueAt b x.handle]
  rcases hsound with ⟨v, hv, hty⟩ | ⟨failure, hfailure, hblames⟩
  · rw [hv]
    exact ⟨.inl ⟨v, rfl, hty⟩, fun _ _ _ => ⟨v, rfl, hty⟩⟩
  · rw [hfailure]
    refine ⟨.inr ⟨failure, congrArg Except.error hblames.error_eq, hblames⟩, ?_⟩
    intro htexture hdiv hattr
    exact absurd hblames (Graph.not_blames htexture hdiv hattr)

/-- A coordinate and one are kept in a variable, which is doubled and then read again. -/
def doubling (g : Fin n) : List (Call n) :=
  [.attr g .vec2 "uv", .access ⟨g, ⟨0⟩, .vec2, false⟩ "y", .binary .add ⟨g, ⟨1⟩, .float, false⟩ (.literal ⟨1.0⟩),
    .toVariable ⟨g, ⟨3⟩, .float, false⟩, .binary .mul ⟨g, ⟨4⟩, .float, false⟩ (.literal ⟨2.0⟩),
    .assign ⟨g, ⟨4⟩, .float, true⟩ (.node ⟨g, ⟨6⟩, .float, false⟩),
    .binary .sub ⟨g, ⟨4⟩, .float, false⟩ (.literal ⟨0.5⟩)]

def doublingVertices : Array Vertex :=
  #[.attr .vec2 "uv", .component ⟨0⟩ "y" .float, .constant (.ofFloat 1.0), .op (.binary .add) .float [⟨1⟩, ⟨2⟩],
    .var .float ⟨3⟩, .constant (.ofFloat 2.0), .op (.binary .mul) .float [⟨4⟩, ⟨5⟩], .constant (.ofFloat 0.5),
    .op (.binary .sub) .float [⟨4⟩, ⟨7⟩]]

/-- The difference reads the variable, and its double reads what it was before. -/
theorem evaluate_sound_doubling :
    ∃ s held, (ofConfigs (Vector.replicate 1 .standard)).run [] (doubling 0) = some (s, held) ∧
      ∃ v, (s.perform (.evaluate 0 ⟨0, ⟨8⟩, .float, false⟩ (Bindings.empty.set "uv" (.initial .vec2)))).1 =
        .ok (.value v) ∧ v.ty = .float := by
  obtain ⟨⟨s, held⟩, hrun⟩ : ∃ p, (ofConfigs (Vector.replicate 1 .standard)).run [] (doubling 0) = some p :=
    Option.isSome_iff_exists.1 (by decide +kernel)
  have hfacts : ∀ p ∈ (ofConfigs (Vector.replicate 1 .standard)).run [] (doubling 0),
      (∃ r ∈ p.2, ⟨0, ⟨8⟩, .float, false⟩ ∈ r.nodes) ∧ (p.1.builder 0).graph.vertices = doublingVertices := by
    decide +kernel
  obtain ⟨hx, hvertices⟩ := hfacts _ hrun
  have hvertex : ∀ {h v}, (s.builder 0).graph.vertex? h = some v → v ∈ doublingVertices :=
    fun hv => hvertices ▸ Array.mem_of_getElem? hv
  refine ⟨s, held, hrun, (Reachable.evaluate_sound ((Reachable.start _).run hrun) hx _).2 ?_ ?_ ?_⟩
  · intro h kind info hv
    simpa [doublingVertices, Vertex.constant] using hvertex hv
  · intro h ty operands hv
    simpa [doublingVertices, Vertex.constant] using hvertex hv
  · intro h ty name hv
    obtain ⟨rfl, rfl⟩ : ty = .vec2 ∧ name = "uv" := by
      simpa [doublingVertices, Vertex.constant] using hvertex hv
    exact ⟨.initial .vec2, rfl, rfl⟩

end Session

end ShaderExpr
