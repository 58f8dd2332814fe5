import ShaderExpr.Graph

/-!
# How graphs grow

A graph that is worked on keeps what it has recorded.  `Graph.Grows g g'` says that `g'` comes later than `g`:
every vertex of `g` is found in `g'` where it was, except that a uniform may have another value of its type;
the rebinds of `g` are the first of `g'`; and a rebind made since then has a point after all vertices of `g`.  So
the vertices of `g` see the same rebinds in `g'` (`Graph.Grows.visibleFrom_eq`).

Each request on a graph makes it grow, and growing is transitive.  A value that is accepted for a uniform replaces that
one vertex (`Graph.setUniform_eq_ok`).
-/

namespace ShaderExpr

/-- What may be found later in the place of a vertex: itself, or the same uniform with another value of its
type. -/
inductive Vertex.Becomes : Vertex → Vertex → Prop where
  | same (v : Vertex) : Becomes v v
  | reset {ty : ValueType} (old : Value) {new : Value} (hty : new.ty = ty) :
    Becomes (.uniform ty old) (.uniform ty new)

namespace Vertex.Becomes

variable {u v w : Vertex}

theorem trans (huv : u.Becomes v) (hvw : v.Becomes w) : u.Becomes w := by
  cases huv with
  | same => exact hvw
  | reset old hty =>
    cases hvw with
    | same => exact .reset old hty
    | reset _ hty' => exact .reset old hty'

theorem ty_eq (h : v.Becomes w) : w.ty = v.ty := by
  cases h <;> rfl

/-- A vertex that is not a uniform stays as it is. -/
theorem eq_of_not_uniform (h : v.Becomes w) (hv : ∀ ty value, v ≠ .uniform ty value) : w = v := by
  cases h with
  | same => rfl
  | reset old => exact absurd rfl (hv _ old)

end Vertex.Becomes

namespace Graph

variable {g g' : Graph} {h : Handle} {v : Vertex}

theorem exists_vertex? (hh : h.index < g.size) : ∃ v, g.vertex? h = some v :=
  ⟨_, Array.getElem?_eq_getElem hh⟩

@[simp]
theorem size_push (g : Graph) (v : Vertex) : (g.push v).size = g.size + 1 :=
  Array.size_push v

theorem vertex?_next (g : Graph) (v : Vertex) : (g.push v).vertex? g.next = some v :=
  Array.getElem?_push_size

theorem vertex?_push_of_lt (v : Vertex) (hh : h.index < g.size) : (g.push v).vertex? h = g.vertex? h :=
  (Array.getElem?_push_lt hh).trans (Array.getElem?_eq_getElem hh).symm

/-- A vertex of a graph that one was appended to is an old one or the new one. -/
theorem vertex?_push_cases {w : Vertex} (hw : (g.push v).vertex? h = some w) :
    g.vertex? h = some w ∨ h = g.next ∧ w = v := by
  unfold vertex? push at hw
  rw [Array.getElem?_push] at hw
  split at hw
  · rename_i hh
    refine .inr ⟨?_, (Option.some.inj hw).symm⟩
    cases h
    exact congrArg Handle.mk hh
  · exact .inl hw

theorem rebinds_rebind (g : Graph) (var expr : Handle) :
    (g.rebind var expr).rebinds = g.rebinds.push ⟨var, expr, g.size⟩ := rfl

@[simp]
theorem size_setValue (g : Graph) (k : Handle) (ty : ValueType) (value : Value) :
    (g.setValue k ty value).size = g.size :=
  Array.size_setIfInBounds

theorem vertex?_setValue_ne (ty : ValueType) (value : Value) {k : Handle} (hk : k ≠ h) :
    (g.setValue k ty value).vertex? h = g.vertex? h := by
  refine Array.getElem?_setIfInBounds_ne fun hi => hk ?_
  cases k
  cases h
  exact congrArg Handle.mk hi

theorem vertex?_setValue_self (ty : ValueType) (value : Value) (hv : g.vertex? h = some v) :
    (g.setValue h ty value).vertex? h = some (.uniform ty value) :=
  Array.getElem?_setIfInBounds_self_of_lt (Array.getElem?_eq_some_iff.1 hv).1

/-- A uniform is changed only where there is one, to a value of its type. -/
theorem setUniform_ok {value : Value} (hset : g.setUniform h value = .ok g') :
    ∃ old, g.vertex? h = some (.uniform value.ty old) ∧ g' = g.setValue h value.ty value := by
  unfold setUniform at hset
  split at hset
  · rename_i ty old hv
    split at hset
    · rename_i hty
      subst hty
      exact ⟨old, hv, (Except.ok.inj hset).symm⟩
    · exact absurd hset nofun
  · exact absurd hset nofun

/-- `g'` is `g` with another value of the input `h`, of its type. -/
structure Replaces (g : Graph) (h : Handle) (value : Value) (g' : Graph) : Prop where
  before : ∃ old, g.vertex? h = some (.uniform value.ty old)
  after : g'.vertex? h = some (.uniform value.ty value)
  others : ∀ k, k ≠ h → g'.vertex? k = g.vertex? k
  size : g'.size = g.size
  rebinds : g'.rebinds = g.rebinds
  labels : g'.labels = g.labels

theorem replaces_setValue {value old : Value} (hold : g.vertex? h = some (.uniform value.ty old)) :
    g.Replaces h value (g.setValue h value.ty value) where
  before := ⟨old, hold⟩
  after := vertex?_setValue_self _ _ hold
  others _ hk := vertex?_setValue_ne _ _ hk.symm
  size := size_setValue g h _ _
  rebinds := rfl
  labels := rfl

/-- The later graph is determined by that. -/
theorem Replaces.eq_setValue {value : Value} (hreplaces : g.Replaces h value g') :
    g' = g.setValue h value.ty value := by
  obtain ⟨old, hold⟩ := hreplaces.before
  have hset := replaces_setValue hold
  have hvertices : g'.vertices = (g.setValue h value.ty value).vertices := by
    refine Array.ext_getElem? fun i => ?_
    by_cases hi : (⟨i⟩ : Handle) = h
    · cases hi
      exact hreplaces.after.trans hset.after.symm
    · exact (hreplaces.others ⟨i⟩ hi).trans (hset.others ⟨i⟩ hi).symm
  have hrebinds := hreplaces.rebinds
  have hlabels := hreplaces.labels
  cases g'
  cases hvertices
  cases hrebinds
  cases hlabels
  rfl

/-- A value is accepted exactly for an input of its type, and replaces the one that it has. -/
theorem setUniform_eq_ok {value : Value} : g.setUniform h value = .ok g' ↔ g.Replaces h value g' := by
  constructor
  · intro hset
    obtain ⟨old, hold, rfl⟩ := setUniform_ok hset
    exact replaces_setValue hold
  · intro hreplaces
    obtain ⟨old, hold⟩ := hreplaces.before
    unfold setUniform
    rw [hold, hreplaces.eq_setValue]
    exact if_pos rfl

/-- `g'` comes later than `g`. -/
structure Grows (g g' : Graph) : Prop where
  vertex : ∀ {h : Handle} {v : Vertex}, g.vertex? h = some v → ∃ w, g'.vertex? h = some w ∧ v.Becomes w
  rebind : ∀ {i : Nat} {r : Rebind}, g.rebinds[i]? = some r → g'.rebinds[i]? = some r
  point_ge : ∀ {i : Nat} {r : Rebind}, g.rebinds.size ≤ i → g'.rebinds[i]? = some r → g.size ≤ r.point

namespace Grows

theorem refl (g : Graph) : g.Grows g where
  vertex hv := ⟨_, hv, .same _⟩
  rebind hr := hr
  point_ge hi hr := by
    have := (Array.getElem?_eq_some_iff.1 hr).1
    omega

theorem size_le (hg : g.Grows g') : g.size ≤ g'.size := by
  rcases Nat.eq_zero_or_pos g.size with h0 | hpos
  · omega
  · -- the last vertex is still there
    have hlast : g.size - 1 < g.vertices.size := Nat.sub_one_lt_of_lt hpos
    obtain ⟨w, hw, _⟩ := hg.vertex (h := ⟨g.size - 1⟩) (Array.getElem?_eq_getElem hlast)
    have : g.size - 1 < g'.size := (Array.getElem?_eq_some_iff.1 hw).1
    omega

theorem trans {g'' : Graph} (hg : g.Grows g') (hg' : g'.Grows g'') : g.Grows g'' where
  vertex hv := by
    obtain ⟨w, hw, hvw⟩ := hg.vertex hv
    obtain ⟨x, hx, hwx⟩ := hg'.vertex hw
    exact ⟨x, hx, hvw.trans hwx⟩
  rebind hr := hg'.rebind (hg.rebind hr)
  point_ge := by
    intro i r hi hr
    rcases Nat.lt_or_ge i g'.rebinds.size with hlt | hge
    · have hr' := Array.getElem?_eq_getElem hlt
      rw [hg'.rebind hr'] at hr
      exact hg.point_ge hi (hr' ▸ hr)
    · exact Nat.le_trans hg.size_le (hg'.point_ge hge hr)

/-- A vertex sees the rebinds that were made before it was recorded, and no later ones. -/
theorem visibleFrom_eq (hg : g.Grows g') (hh : h.index < g.size) : g'.visibleFrom h = g.visibleFrom h := by
  have hiff : ∀ i, i < g'.visibleFrom h ↔ i < g.visibleFrom h := by
    intro i
    constructor
    · intro hi
      have hr := Array.getElem?_eq_getElem (Nat.lt_of_lt_of_le hi (g'.visibleFrom_le h))
      have hpoint := (lt_visibleFrom_iff hr).1 hi
      -- a rebind made since then has a point after all vertices
      have hold : i < g.rebinds.size := by
        rcases Nat.lt_or_ge i g.rebinds.size with hlt | hnew
        · exact hlt
        · have := hg.point_ge hnew hr
          omega
      have hr' := Array.getElem?_eq_getElem hold
      rw [Option.some.inj (hr.symm.trans (hg.rebind hr'))] at hpoint
      exact (lt_visibleFrom_iff hr').2 hpoint
    · intro hi
      have hr := Array.getElem?_eq_getElem (Nat.lt_of_lt_of_le hi (g.visibleFrom_le h))
      exact (lt_visibleFrom_iff (hg.rebind hr)).2 ((lt_visibleFrom_iff hr).1 hi)
  have hle := hiff (g.visibleFrom h)
  have hge := hiff (g'.visibleFrom h)
  omega

theorem visibleFrom_le (hg : g.Grows g') (hh : h.index < g.size) : g'.visibleFrom h ≤ g.rebinds.size := by
  rw [hg.visibleFrom_eq hh]
  exact g.visibleFrom_le h

/-- A vertex sees all the rebinds that were made before it was recorded. -/
theorem visibleFrom_next (hg : (g.push v).Grows g') : g'.visibleFrom g.next = g.rebinds.size := by
  refine Nat.le_antisymm (hg.visibleFrom_le ?_) ?_
  · rw [size_push]
    exact Nat.lt_succ_self _
  · rcases Nat.eq_zero_or_pos g.rebinds.size with h0 | hpos
    · omega
    · -- the last rebind of `g` is visible, and so are those before it
      have hr := Array.getElem?_eq_getElem (Nat.sub_one_lt_of_lt hpos)
      have hlt := (lt_visibleFrom_iff (h := g.next) (hg.rebind hr)).2 (g.point_le _ _ hr)
      omega

/-- A vertex that is not a uniform stays. -/
theorem vertex_eq (hg : g.Grows g') (hv : g.vertex? h = some v) (hu : ∀ ty value, v ≠ .uniform ty value) :
    g'.vertex? h = some v := by
  obtain ⟨w, hw, hvw⟩ := hg.vertex hv
  rw [hw, hvw.eq_of_not_uniform hu]

end Grows

theorem grows_push (g : Graph) (v : Vertex) : g.Grows (g.push v) where
  vertex {h w} hw := by
    refine ⟨w, ?_, .same w⟩
    rw [vertex?_push_of_lt v (Array.getElem?_eq_some_iff.1 hw).1]
    exact hw
  rebind hr := hr
  point_ge := (Grows.refl g).point_ge

theorem grows_rebind (g : Graph) (var expr : Handle) : g.Grows (g.rebind var expr) where
  vertex hv := ⟨_, hv, .same _⟩
  rebind := by
    intro i r hr
    have hi := (Array.getElem?_eq_some_iff.1 hr).1
    rw [rebinds_rebind, Array.getElem?_push_lt hi, ← Array.getElem?_eq_getElem hi]
    exact hr
  point_ge := by
    intro i r hi hr
    rw [rebinds_rebind, Array.getElem?_push] at hr
    split at hr
    · cases Option.some.inj hr
      exact Nat.le_refl _
    · have := (Array.getElem?_eq_some_iff.1 hr).1
      omega

theorem grows_label (g : Graph) (k : Handle) (name : String) : g.Grows (g.label k name) where
  vertex hv := ⟨_, hv, .same _⟩
  rebind hr := hr
  point_ge := (Grows.refl g).point_ge

theorem grows_setUniform {value : Value} (hset : g.setUniform h value = .ok g') : g.Grows g' := by
  obtain ⟨old, hold, rfl⟩ := setUniform_ok hset
  refine ⟨?_, fun hr => hr, ?_⟩
  · intro k v hv
    by_cases hk : h = k
    · subst hk
      cases Option.some.inj (hold.symm.trans hv)
      exact ⟨_, vertex?_setValue_self _ _ hold, .reset old rfl⟩
    · exact ⟨v, (vertex?_setValue_ne _ _ hk).trans hv, .same v⟩
  · intro i r hi hr
    exact (Grows.refl g).point_ge hi hr

end Graph

end ShaderExpr
