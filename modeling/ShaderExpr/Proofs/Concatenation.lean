import ShaderExpr.Proofs.Soundness

/-!
# Graphs one after another

`low.append g` is the graph that records what is in `low` and then what is in `g`.  The handles and points of `g`
are shifted by the number of vertices in `low`, and its rebinds come after those of `low`.

* To record in `low.append g` is to record in `g`: `Graph.append_push`, `Graph.append_rebind`,
  `Graph.append_label`, `Graph.setUniform_append`.
* A vertex of `g` sees all rebinds of `low`, and those that it sees in `g` (`Graph.visibleFrom_append`).  If the
  rebinds of `low` bind variables of `low`, none of them is found for a variable of `g`
  (`Graph.latestRebind?_append`).
* So the vertices of a legal graph keep their values after a graph whose rebinds bind variables of its own, as
  those of a legal graph do (`Graph.Legal.evaluate_append`).
-/

namespace ShaderExpr

/-- The handle of a vertex that is recorded after `count` others. -/
def Handle.shift (count : Nat) (h : Handle) : Handle :=
  ⟨count + h.index⟩

theorem Handle.shift_inj {count : Nat} {h k : Handle} : h.shift count = k.shift count ↔ h = k := by
  constructor
  · intro heq
    have hindex : count + h.index = count + k.index := congrArg Handle.index heq
    cases h
    cases k
    exact congrArg Handle.mk (Nat.add_left_cancel hindex)
  · rintro rfl
    rfl

def Vertex.shift (count : Nat) : Vertex → Vertex
  | .op operation ty operands => .op operation ty (operands.map (Handle.shift count))
  | .component source name ty => .component (source.shift count) name ty
  | .uniform ty value => .uniform ty value
  | .attr ty name => .attr ty name
  | .texture kind info => .texture kind info
  | .var ty init => .var ty (init.shift count)

def Rebind.shift (count : Nat) (r : Rebind) : Rebind :=
  ⟨r.var.shift count, r.expr.shift count, count + r.point⟩

namespace Graph

variable {low g : Graph}

private theorem rebinds_append_cases {i : Nat} {r : Rebind}
    (hr : (low.rebinds ++ g.rebinds.map (Rebind.shift low.size))[i]? = some r) :
    i < low.rebinds.size ∧ low.rebinds[i]? = some r ∨
      low.rebinds.size ≤ i ∧ ∃ s, g.rebinds[i - low.rebinds.size]? = some s ∧ s.shift low.size = r := by
  rcases Nat.lt_or_ge i low.rebinds.size with hlt | hge
  · rw [Array.getElem?_append_left hlt] at hr
    exact .inl ⟨hlt, hr⟩
  · rw [Array.getElem?_append_right hge, Array.getElem?_map] at hr
    exact .inr ⟨hge, Option.map_eq_some_iff.1 hr⟩

/-- What two graphs record, one after the other. -/
def append (low g : Graph) : Graph where
  vertices := low.vertices ++ g.vertices.map (Vertex.shift low.size)
  rebinds := low.rebinds ++ g.rebinds.map (Rebind.shift low.size)
  labels := g.labels.map (fun entry => (entry.1.shift low.size, entry.2)) ++ low.labels
  point_le := by
    intro i r hr
    rw [Array.size_append, Array.size_map]
    rcases rebinds_append_cases hr with ⟨_, hr⟩ | ⟨_, s, hs, rfl⟩
    · have := low.point_le i r hr
      omega
    · have := g.point_le _ s hs
      exact Nat.add_le_add_left this low.size
  point_mono := by
    intro i j r s hij hi hj
    rcases rebinds_append_cases hi with ⟨_, hlow⟩ | ⟨hge, r₀, hr₀, rfl⟩
    · have hr := low.point_le i r hlow
      rcases rebinds_append_cases hj with ⟨_, hlow'⟩ | ⟨_, s₀, _, rfl⟩
      · exact low.point_mono i j r s hij hlow hlow'
      · exact Nat.le_trans hr (Nat.le_add_right low.size s₀.point)
    · rcases rebinds_append_cases hj with ⟨hlt, _⟩ | ⟨_, s₀, hs₀, rfl⟩
      · omega
      · have := g.point_mono _ _ r₀ s₀ (Nat.sub_le_sub_right hij _) hr₀ hs₀
        exact Nat.add_le_add_left this low.size

theorem ext {g g' : Graph} (hvertices : g.vertices = g'.vertices) (hrebinds : g.rebinds = g'.rebinds)
    (hlabels : g.labels = g'.labels) : g = g' := by
  cases g
  cases g'
  cases hvertices
  cases hrebinds
  cases hlabels
  rfl

@[simp]
theorem size_append (low g : Graph) : (low.append g).size = low.size + g.size := by
  unfold size append
  rw [Array.size_append, Array.size_map]

@[simp]
theorem size_rebinds_append (low g : Graph) :
    (low.append g).rebinds.size = low.rebinds.size + g.rebinds.size := by
  unfold append
  rw [Array.size_append, Array.size_map]

theorem next_append (low g : Graph) : (low.append g).next = g.next.shift low.size :=
  congrArg Handle.mk (size_append low g)

theorem vertex?_append (low g : Graph) (h : Handle) :
    (low.append g).vertex? (h.shift low.size) = (g.vertex? h).map (Vertex.shift low.size) := by
  have hge : low.vertices.size ≤ (h.shift low.size).index := Nat.le_add_right _ _
  have hindex : (h.shift low.size).index - low.vertices.size = h.index := Nat.add_sub_cancel_left _ _
  unfold vertex? append
  rw [Array.getElem?_append_right hge, hindex, Array.getElem?_map]

theorem rebinds_append_low {i : Nat} (hi : i < low.rebinds.size) :
    (low.append g).rebinds[i]? = low.rebinds[i]? :=
  Array.getElem?_append_left hi

theorem rebinds_append_high (low g : Graph) (i : Nat) :
    (low.append g).rebinds[low.rebinds.size + i]? = (g.rebinds[i]?).map (Rebind.shift low.size) := by
  unfold append
  rw [Array.getElem?_append_right (Nat.le_add_right _ _), Nat.add_sub_cancel_left, Array.getElem?_map]

theorem append_empty (low : Graph) : low.append .empty = low := by
  refine ext ?_ ?_ rfl
  · simp [append, empty]
  · simp [append, empty]

theorem append_push (low g : Graph) (v : Vertex) :
    low.append (g.push v) = (low.append g).push (v.shift low.size) := by
  refine ext ?_ rfl rfl
  show low.vertices ++ (g.vertices.push v).map _ = (low.vertices ++ g.vertices.map _).push _
  rw [Array.map_push, Array.append_push]

theorem append_rebind (low g : Graph) (var expr : Handle) :
    low.append (g.rebind var expr) = (low.append g).rebind (var.shift low.size) (expr.shift low.size) := by
  refine ext rfl ?_ rfl
  show low.rebinds ++ (g.rebinds.push _).map _ = (low.rebinds ++ g.rebinds.map _).push _
  rw [Array.map_push, Array.append_push, size_append]
  rfl

theorem append_label (low g : Graph) (h : Handle) (name : String) :
    low.append (g.label h name) = (low.append g).label (h.shift low.size) name := rfl

theorem append_setValue (low g : Graph) (h : Handle) (ty : ValueType) (value : Value) :
    low.append (g.setValue h ty value) = (low.append g).setValue (h.shift low.size) ty value := by
  refine ext ?_ rfl rfl
  have hge : low.vertices.size ≤ (h.shift low.size).index := Nat.le_add_right _ _
  have hindex : (h.shift low.size).index - low.vertices.size = h.index := Nat.add_sub_cancel_left _ _
  show low.vertices ++ (g.vertices.setIfInBounds _ _).map _ = (low.vertices ++ g.vertices.map _).setIfInBounds _ _
  rw [Array.map_setIfInBounds, Array.setIfInBounds_append_right hge, hindex]
  rfl

end Graph

/-- An error about a handle that is no vertex or no uniform, with the handle shifted. -/
def Error.shift (count : Nat) : Error → Error
  | wrongHandle h expected => .wrongHandle (h.shift count) expected
  | e => e

namespace Graph

variable {low g : Graph} {b : Bindings} {h : Handle} {visible : Nat}

/-- A uniform is set in the same way after another graph. -/
theorem setUniform_append (low g : Graph) (h : Handle) (value : Value) :
    (low.append g).setUniform (h.shift low.size) value =
      ((g.setUniform h value).map low.append).mapError (Error.shift low.size) := by
  unfold setUniform
  rw [vertex?_append]
  cases g.vertex? h with
  | none => rfl
  | some v =>
    cases v with
    | uniform ty old =>
      dsimp only [Option.map_some, Vertex.shift]
      split
      · exact congrArg Except.ok (append_setValue low g h ty value).symm
      · rfl
    | _ => rfl

/-- A vertex sees all rebinds that were made before its graph was started. -/
theorem visibleFrom_append (low g : Graph) (h : Handle) :
    (low.append g).visibleFrom (h.shift low.size) = low.rebinds.size + g.visibleFrom h := by
  have hiff : ∀ i, i < low.rebinds.size + g.rebinds.size →
      (i < (low.append g).visibleFrom (h.shift low.size) ↔ i < low.rebinds.size + g.visibleFrom h) := by
    intro i hi
    rcases Nat.lt_or_ge i low.rebinds.size with hlt | hge
    · have hr := (rebinds_append_low (g := g) hlt).trans (Array.getElem?_eq_getElem hlt)
      have hpoint := low.point_le i _ (Array.getElem?_eq_getElem hlt)
      rw [lt_visibleFrom_iff hr]
      refine iff_of_true ?_ (by omega)
      exact Nat.le_trans hpoint (Nat.le_add_right low.size h.index)
    · obtain ⟨j, rfl⟩ : ∃ j, i = low.rebinds.size + j := ⟨i - low.rebinds.size, by omega⟩
      have hs := Array.getElem?_eq_getElem (show j < g.rebinds.size by omega)
      have hr := rebinds_append_high low g j
      rw [hs] at hr
      rw [lt_visibleFrom_iff hr, Nat.add_lt_add_iff_left, lt_visibleFrom_iff hs]
      exact Nat.add_le_add_iff_left
  have hleft := (low.append g).visibleFrom_le (h.shift low.size)
  have hright := g.visibleFrom_le h
  rw [size_rebinds_append] at hleft
  have hle := hiff (low.rebinds.size + g.visibleFrom h)
  have hge := hiff ((low.append g).visibleFrom (h.shift low.size))
  omega

/-- The rebinds of a graph bind variables of its own. -/
def BindsOwn (low : Graph) : Prop :=
  ∀ {i : Nat} {r : Rebind}, low.rebinds[i]? = some r → r.var.index < low.size

private theorem latestRebind?_append_low (hlow : low.BindsOwn) (g : Graph) (h : Handle) {visible : Nat}
    (hvisible : visible ≤ low.rebinds.size) :
    (low.append g).latestRebind? (h.shift low.size) visible = none := by
  induction visible with
  | zero => rfl
  | succ i ih =>
    have hget := Array.getElem?_eq_getElem (Nat.lt_of_succ_le hvisible)
    have hr := (rebinds_append_low (g := g) (Nat.lt_of_succ_le hvisible)).trans hget
    have hvar := hlow hget
    have hne : low.rebinds[i].var ≠ h.shift low.size := by
      intro heq
      have hindex : low.rebinds[i].var.index = low.size + h.index := congrArg Handle.index heq
      omega
    rw [latestRebind?_succ hr, if_neg hne]
    exact ih (Nat.le_of_succ_le hvisible)

/-- The latest rebind of a variable is one of its own graph. -/
theorem latestRebind?_append (hlow : low.BindsOwn) (g : Graph) (h : Handle) (visible : Nat) :
    (low.append g).latestRebind? (h.shift low.size) (low.rebinds.size + visible) =
      (g.latestRebind? h visible).map fun found => (low.rebinds.size + found.1, found.2.shift low.size) := by
  induction visible with
  | zero => exact latestRebind?_append_low hlow g h (Nat.le_refl _)
  | succ i ih =>
    have hr := rebinds_append_high low g i
    cases hs : g.rebinds[i]? with
    | none =>
      rw [hs] at hr
      show (low.append g).latestRebind? _ (low.rebinds.size + i + 1) = _
      unfold latestRebind?
      rw [hr, hs]
      exact ih
    | some r =>
      rw [hs] at hr
      have hvar : (r.shift low.size).var = h.shift low.size ↔ r.var = h := Handle.shift_inj
      show (low.append g).latestRebind? _ (low.rebinds.size + i + 1) = _
      rw [latestRebind?_succ hr, latestRebind?_succ hs, ih]
      by_cases hrh : r.var = h
      · rw [if_pos hrh, if_pos (hvar.2 hrh)]
        rfl
      · rw [if_neg hrh, if_neg fun h => hrh (hvar.1 h)]

theorem Legal.bindsOwn (hg : g.Legal) : g.BindsOwn := by
  intro i r hr
  obtain ⟨_, ty, init, hvar, _⟩ := hg.rebind hr
  exact index_lt_size hvar

/-- The handle of its source is only used to say that an accessor fails, which it does not in a legal graph. -/
private theorem Legal.access_eq (hg : g.Legal) {source : Handle} {name : String} {ty : ValueType}
    (hv : g.vertex? h = some (.component source name ty)) (source' : Handle) :
    (g.readAt b h source >>= fun v => v.access source' name ty) =
      g.readAt b h source >>= fun v => v.access source name ty := by
  have hlt := hg.reads_lt hv source List.mem_cons_self
  cases hg.vertex hv with
  | @component _ _ operand _ hs accessor =>
    have hsound : g.Sound b operand (g.readAt b h source) := by
      unfold readAt
      rw [if_pos hlt]
      exact hg.sound_valueAt b (visibleFrom_mono (Nat.le_of_lt hlt)) hs
    rcases hsound with ⟨v, hvalue, rfl⟩ | ⟨failure, hfailure, _⟩
    · obtain ⟨w, hw, _⟩ := Value.access_ok source accessor
      rw [hvalue]
      show v.access source' name ty = v.access source name ty
      unfold Value.access at hw ⊢
      split at hw
      · rfl
      · exact absurd hw nofun
    · rw [hfailure]
      rfl

/-- The vertices of a legal graph keep their values after a graph whose rebinds bind variables of its own. -/
theorem Legal.valueAt_append (hg : g.Legal) (hlow : low.BindsOwn) (b : Bindings) (hsize : h.index < g.size)
    (hsees : g.visibleFrom h ≤ visible) :
    (low.append g).valueAt b (h.shift low.size) (low.rebinds.size + visible) = g.valueAt b h visible := by
  refine asks_induction (motive := fun h visible => h.index < g.size →
    (low.append g).valueAt b (h.shift low.size) (low.rebinds.size + visible) = g.valueAt b h visible) ?_ hsees hsize
  intro h visible hsees ih hsize
  have hfrom := visibleFrom_append low g h
  have hsees' : (low.append g).visibleFrom (h.shift low.size) ≤ low.rebinds.size + visible := by omega
  obtain ⟨v, hv⟩ := exists_vertex? hsize
  have hv' : (low.append g).vertex? (h.shift low.size) = some (v.shift low.size) := by
    rw [vertex?_append, hv]
    rfl
  -- operands come before their readers on both sides
  have hread : ∀ o ∈ v.reads,
      (low.append g).readAt b (h.shift low.size) (o.shift low.size) = g.readAt b h o := by
    intro o ho
    have hlt := hg.reads_lt hv o ho
    have hlt' : (o.shift low.size).index < (h.shift low.size).index := Nat.add_lt_add_left hlt low.size
    unfold readAt
    rw [if_pos hlt, if_pos hlt', hfrom]
    exact ih o _ (.operand hv ho hlt) (Nat.lt_trans hlt hsize)
  cases v with
  | op op ty operands =>
    have hargs : (operands.map (Handle.shift low.size)).mapM ((low.append g).readAt b (h.shift low.size)) =
        operands.mapM (g.readAt b h) := by
      rw [List.mapM_map]
      exact mapM_congr_mem hread
    rw [valueAt_op hsees hv, valueAt_op hsees' hv', hargs]
  | component source name ty =>
    rw [valueAt_component hsees hv, valueAt_component hsees' hv', hread source List.mem_cons_self]
    exact hg.access_eq hv _
  | uniform ty value => rw [valueAt_uniform hsees hv, valueAt_uniform hsees' hv']
  | attr ty name => rw [valueAt_attr hsees hv, valueAt_attr hsees' hv']
  | texture kind info => rw [valueAt_texture hsees hv, valueAt_texture hsees' hv']
  | var ty init =>
    rw [valueAt_var hsees hv, valueAt_var hsees' hv', latestRebind?_append hlow]
    cases hr : g.latestRebind? h visible with
    | none => exact hread init List.mem_cons_self
    | some found =>
      obtain ⟨i, r⟩ := found
      obtain ⟨_, hget, _⟩ := latestRebind?_some hr
      obtain ⟨hlt, _, _, _, hexpr⟩ := hg.rebind hget
      have hlt' : (r.shift low.size).expr.index < (r.shift low.size).point := Nat.add_lt_add_left hlt low.size
      dsimp only [Option.map_some]
      unfold boundAt
      rw [if_pos hlt, if_pos hlt']
      exact ih _ _ (.bound hv hr hlt) hexpr.index_lt

/-- The vertices of a legal graph are evaluated in the same way after a graph whose rebinds bind variables of its
own. -/
theorem Legal.evaluate_append (hg : g.Legal) (hlow : low.BindsOwn) (b : Bindings) (hsize : h.index < g.size) :
    (low.append g).evaluate b (h.shift low.size) = g.evaluate b h := by
  unfold evaluate
  rw [eval_eq_valueAt, eval_eq_valueAt, size_rebinds_append,
    hg.valueAt_append hlow b hsize (g.visibleFrom_le h)]

end Graph

end ShaderExpr
