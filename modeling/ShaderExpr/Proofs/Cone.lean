import ShaderExpr.Proofs.Requests
import ShaderExpr.Proofs.Valuation

/-!
# What a value depends on

The cone of a vertex (`Graph.Cone`) holds the vertices that its value can depend on: what they read, and what is
bound to the variables among them.

* A graph that grows keeps the value of a vertex, however many rebinds are visible to it, as long as the uniforms of
  its cone are not set (`Graph.Grows.valueAt_eq`).
* So requests that are made later do not change the evaluation of a vertex, if they set no uniform of its cone and
  do not rebind the vertex itself.  Rebinds of the variables of its cone are not seen
  (`Builder.evaluate_after_later`).
-/

namespace ShaderExpr

/-- The vertices that the value of a vertex depends on, at most. -/
inductive Graph.Cone (g : Graph) (h : Handle) : Handle → Prop where
  | self : Cone g h h
  | reads {k o : Handle} {v : Vertex} (hk : Cone g h k) (hv : g.vertex? k = some v) (ho : o ∈ v.reads) : Cone g h o
  | bound {k : Handle} {ty : ValueType} {init : Handle} {i : Nat} {r : Rebind} (hk : Cone g h k)
    (hv : g.vertex? k = some (.var ty init)) (hr : g.rebinds[i]? = some r) (hvar : r.var = k) : Cone g h r.expr

namespace Graph

variable {g g' : Graph} {h k : Handle} {b b' : Bindings} {visible : Nat}

/-- What the evaluation of a vertex of the cone asks for is in the cone. -/
theorem Cone.asks {e : Handle} {seen : Nat} (hk : g.Cone h k) (hasks : g.Asks k visible e seen) : g.Cone h e := by
  cases hasks with
  | operand hv ho hlt => exact hk.reads hv ho
  | bound hv hr hlt =>
    obtain ⟨_, hget, hvar⟩ := latestRebind?_some hr
    exact hk.bound hv hget hvar

/-- The first rebinds of a graph that grows stay. -/
theorem Grows.latestRebind?_eq (hg : g.Grows g') (hvisible : visible ≤ g.rebinds.size) :
    g'.latestRebind? h visible = g.latestRebind? h visible := by
  induction visible with
  | zero => rfl
  | succ i ih =>
    have hr := Array.getElem?_eq_getElem (Nat.lt_of_succ_le hvisible)
    rw [latestRebind?_succ hr, latestRebind?_succ (hg.rebind hr), ih (Nat.le_of_succ_le hvisible)]

/-- Two evaluations agree on a cone: the vertices of the cone are the same in both graphs, and its attributes are
bound to the same values. -/
structure AgreesOn (g g' : Graph) (b b' : Bindings) (h : Handle) : Prop where
  vertex : ∀ {k : Handle} {v : Vertex}, g.Cone h k → g.vertex? k = some v → g'.vertex? k = some v
  attr : ∀ {k : Handle} {ty : ValueType} {name : String}, g.Cone h k → g.vertex? k = some (.attr ty name) →
    b'.get? name = b.get? name

/-- A graph that grows keeps the values of a cone on which nothing is changed. -/
theorem Grows.valueAt_eq (hg : g.Grows g') (hagrees : g.AgreesOn g' b b' h) (hk : g.Cone h k) (hsize : k.index < g.size)
    (hsees : g.visibleFrom k ≤ visible) (hvisible : visible ≤ g.rebinds.size) :
    g'.valueAt b' k visible = g.valueAt b k visible := by
  refine asks_induction (motive := fun k visible => g.Cone h k → k.index < g.size → visible ≤ g.rebinds.size →
    g'.valueAt b' k visible = g.valueAt b k visible) ?_ hsees hk hsize hvisible
  intro k visible hsees ih hk hsize hvisible
  have hfrom := hg.visibleFrom_eq hsize
  have hsees' : g'.visibleFrom k ≤ visible := hfrom ▸ hsees
  obtain ⟨v, hv⟩ := exists_vertex? hsize
  have hv' := hagrees.vertex hk hv
  have hread : ∀ o ∈ v.reads, g'.readAt b' k o = g.readAt b k o := by
    intro o ho
    unfold readAt
    split
    · rename_i hlt
      rw [hfrom]
      exact ih o _ (.operand hv ho hlt) (hk.reads hv ho) (by omega) (g.visibleFrom_le k)
    · rfl
  cases v with
  | op op ty operands =>
    have hargs : operands.mapM (g'.readAt b' k) = operands.mapM (g.readAt b k) := mapM_congr_mem hread
    rw [valueAt_op hsees hv, valueAt_op hsees' hv', hargs]
  | component source name ty =>
    rw [valueAt_component hsees hv, valueAt_component hsees' hv', hread source List.mem_cons_self]
  | uniform ty value => rw [valueAt_uniform hsees hv, valueAt_uniform hsees' hv']
  | attr ty name =>
    rw [valueAt_attr hsees hv, valueAt_attr hsees' hv']
    unfold Bindings.value
    rw [hagrees.attr hk hv]
  | texture kind info => rw [valueAt_texture hsees hv, valueAt_texture hsees' hv']
  | var ty init =>
    rw [valueAt_var hsees hv, valueAt_var hsees' hv', hg.latestRebind?_eq hvisible]
    cases hr : g.latestRebind? k visible with
    | none => exact hread init List.mem_cons_self
    | some found =>
      obtain ⟨i, r⟩ := found
      obtain ⟨hi, hget, hvar⟩ := latestRebind?_some hr
      have hpoint := g.point_le i r hget
      dsimp only
      unfold boundAt
      split
      · -- the expression was recorded before the rebind
        rename_i hlt
        exact ih _ _ (.bound hv hr hlt) (hk.bound hv hget hvar) (Nat.lt_of_lt_of_le hlt hpoint) (by omega)
      · rfl

end Graph

namespace Graph

variable {g : Graph} {h : Handle} {r : Request} {later : List Request}

private theorem vertex?_apply (hsize : h.index < g.size) (hset : ∀ value, r ≠ .setUniform h value) :
    (r.apply g).vertex? h = g.vertex? h := by
  cases r with
  | record v => exact vertex?_push_of_lt v hsize
  | rebind var expr => rfl
  | label k name => rfl
  | setUniform k value =>
    have hk : k ≠ h := by
      rintro rfl
      exact hset value rfl
    unfold Request.apply
    dsimp only
    split
    · rename_i g' hok
      obtain ⟨old, _, rfl⟩ := setUniform_ok hok
      exact vertex?_setValue_ne _ _ hk
    · rfl

/-- A vertex stays if it is not set. -/
theorem vertex?_after (hsize : h.index < g.size) (hset : ∀ value, .setUniform h value ∉ later) :
    (g.after later).vertex? h = g.vertex? h := by
  induction later generalizing g with
  | nil => rfl
  | cons r later ih =>
    have hr : ∀ value, r ≠ .setUniform h value := by
      rintro value rfl
      exact hset value List.mem_cons_self
    have hlater : ∀ value, .setUniform h value ∉ later := fun value hmem => hset value (List.mem_cons_of_mem r hmem)
    have hsize' := Nat.lt_of_lt_of_le hsize (r.grows_apply g).size_le
    show ((r.apply g).after later).vertex? h = g.vertex? h
    rw [ih hsize' hlater, vertex?_apply hsize hr]

private theorem latestRebind?_apply (hrebind : ∀ expr, r ≠ .rebind h expr) :
    (r.apply g).latestRebind? h (r.apply g).rebinds.size = g.latestRebind? h g.rebinds.size := by
  cases r with
  | record v => exact (grows_push g v).latestRebind?_eq (Nat.le_refl _)
  | label k name => exact (grows_label g k name).latestRebind?_eq (Nat.le_refl _)
  | rebind var expr =>
    have hvar : var ≠ h := by
      rintro rfl
      exact hrebind expr rfl
    have hlast : (g.rebind var expr).rebinds[g.rebinds.size]? = some ⟨var, expr, g.size⟩ := Array.getElem?_push_size
    show (g.rebind var expr).latestRebind? h (g.rebind var expr).rebinds.size = _
    rw [rebinds_rebind, Array.size_push, latestRebind?_succ hlast, if_neg hvar]
    exact (grows_rebind g var expr).latestRebind?_eq (Nat.le_refl _)
  | setUniform k value =>
    unfold Request.apply
    dsimp only
    split
    · rename_i g' hok
      have hgrows := grows_setUniform hok
      obtain ⟨old, _, rfl⟩ := setUniform_ok hok
      exact hgrows.latestRebind?_eq (Nat.le_refl _)
    · rfl

/-- The latest binding of a variable stays if it is not bound again. -/
theorem latestRebind?_after (hrebind : ∀ expr, .rebind h expr ∉ later) :
    (g.after later).latestRebind? h (g.after later).rebinds.size = g.latestRebind? h g.rebinds.size := by
  induction later generalizing g with
  | nil => rfl
  | cons r later ih =>
    have hr : ∀ expr, r ≠ .rebind h expr := by
      rintro expr rfl
      exact hrebind expr List.mem_cons_self
    have hlater : ∀ expr, .rebind h expr ∉ later := fun expr hmem => hrebind expr (List.mem_cons_of_mem r hmem)
    show ((r.apply g).after later).latestRebind? h ((r.apply g).after later).rebinds.size = _
    rw [ih hlater, latestRebind?_apply hr]

/-- Later requests spare the value of a vertex if they set no uniform of its cone, and do not bind the vertex
itself if it is a variable. -/
structure Spares (g : Graph) (h : Handle) (later : List Request) : Prop where
  uniform : ∀ {k : Handle} {ty : ValueType} {old : Value} (value : Value), g.Cone h k →
    g.vertex? k = some (.uniform ty old) → .setUniform k value ∉ later
  self : ∀ {ty : ValueType} {init : Handle} (expr : Handle), g.vertex? h = some (.var ty init) →
    .rebind h expr ∉ later

theorem Spares.vertex? {k : Handle} {v : Vertex} (hspares : g.Spares h later) (hk : g.Cone h k)
    (hv : g.vertex? k = some v) : (g.after later).vertex? k = some v := by
  by_cases hu : ∃ ty old, v = .uniform ty old
  · obtain ⟨ty, old, rfl⟩ := hu
    rw [vertex?_after (index_lt_size hv) fun value => hspares.uniform value hk hv, hv]
  · exact (g.grows_after later).vertex_eq hv fun ty old hvu => hu ⟨ty, old, hvu⟩

end Graph

/-- The value of a recorded vertex stays, whatever is requested later of a graph and whatever is bound then to
attributes outside the cone of the vertex, as long as the later requests spare it.  Errors stay as well. -/
theorem Builder.evaluate_after_later (s : Builder) {h : Handle} {later : List Request} {b b' : Bindings}
    (hrecorded : h.index < s.graph.size) (hspares : s.graph.Spares h later)
    (hattrs : ∀ k ty name, s.graph.Cone h k → s.graph.vertex? k = some (.attr ty name) →
      b'.get? name = b.get? name) :
    (s.after later).graph.evaluate b' h = s.graph.evaluate b h := by
  rw [s.graph_after]
  generalize s.graph = g at *
  have hgrows := g.grows_after later
  have hagrees : g.AgreesOn (g.after later) b b' h := ⟨hspares.vertex?, hattrs _ _ _⟩
  have hsees := g.visibleFrom_le h
  have hsees' : (g.after later).visibleFrom h ≤ g.rebinds.size := hgrows.visibleFrom_eq hrecorded ▸ hsees
  have hvalue := hgrows.valueAt_eq hagrees .self hrecorded hsees (Nat.le_refl _)
  unfold Graph.evaluate
  rw [Graph.eval_eq_valueAt, Graph.eval_eq_valueAt, ← hvalue]
  -- of the later rebinds, only those of the vertex itself would be seen
  refine congrArg _ (Graph.valueAt_congr ((g.after later).visibleFrom_le h) hsees' ?_)
  intro ty init hv
  obtain ⟨v, hold⟩ := Graph.exists_vertex? hrecorded
  cases Option.some.inj (hv.symm.trans (hspares.vertex? .self hold))
  rw [Graph.latestRebind?_after fun expr => hspares.self expr hold, hgrows.latestRebind?_eq (Nat.le_refl _)]

/-- A variable that starts with the first of two uniforms, and a reader of it. -/
def inverted : List Request :=
  [.record (.uniform .float (.ofFloat 1.0)), .record (.uniform .float (.ofFloat 2.0)), .record (.var .float ⟨0⟩),
    .record (.op .oneMinus .float [⟨2⟩])]

private theorem cone_inverted {k : Handle} (hk : ((Builder.ofConfig .standard).after inverted).graph.Cone ⟨3⟩ k) :
    k = ⟨3⟩ ∨ k = ⟨2⟩ ∨ k = ⟨0⟩ := by
  induction hk with
  | self => exact .inl rfl
  | reads hk hv ho ih =>
    rcases ih with rfl | rfl | rfl
    all_goals cases Option.some.inj hv
    · exact .inr (.inl (List.mem_singleton.1 ho))
    · exact .inr (.inr (List.mem_singleton.1 ho))
    · exact absurd ho List.not_mem_nil
  | bound hk hv hr => exact absurd hr nofun

/-- The second uniform is bound to the variable later, and then set. -/
theorem Builder.evaluate_after_later_inverted :
    ∃ s : Builder, s = (Builder.ofConfig .standard).after inverted ∧ s.graph.Cone ⟨3⟩ ⟨2⟩ ∧
      (s.after [.rebind ⟨2⟩ ⟨1⟩, .setUniform ⟨1⟩ (.ofFloat 5.0)]).graph.evaluate .empty ⟨3⟩ =
        s.graph.evaluate .empty ⟨3⟩ := by
  refine ⟨_, rfl, .reads .self (v := .op .oneMinus .float [⟨2⟩]) rfl List.mem_cons_self, ?_⟩
  refine evaluate_after_later _ (by decide) ⟨?_, ?_⟩ fun _ _ _ _ _ => rfl
  · -- the uniform that is set is outside the cone
    intro k ty old value hk hv hset
    obtain ⟨rfl, _⟩ : k = ⟨1⟩ ∧ value = .ofFloat 5.0 := by simpa using hset
    exact absurd (cone_inverted hk) (by decide)
  · intro ty init expr hv
    cases Option.some.inj hv

end ShaderExpr
