import ShaderExpr.Proofs.Requests

/-!
# Which rebinds a vertex sees

After a history of requests, with any handles, the log of a graph holds the rebinds that were requested, in order and
each with the number of vertices before it.  A vertex sees those that were requested before it was recorded, although
bisection finds their number from the points alone (`Graph.visibleFrom_after`); so what it sees is independent of what
came later.

`Builder.logsRebinds_after` puts this together, for every history.
-/

namespace ShaderExpr

namespace Request

def isRebind : Request → Bool
  | rebind .. => true
  | _ => false

end Request

namespace Graph

variable {g : Graph} {history : List Request} {h : Handle}

theorem after_append (g : Graph) (before later : List Request) :
    g.after (before ++ later) = (g.after before).after later :=
  List.foldl_append

theorem size_rebinds_apply (g : Graph) (r : Request) :
    (r.apply g).rebinds.size = g.rebinds.size + if r.isRebind then 1 else 0 := by
  cases r with
  | record v => rfl
  | rebind var expr => exact Array.size_push _
  | label h name => rfl
  | setUniform h value =>
    unfold Request.apply
    dsimp only
    split
    · rename_i g' hset
      obtain ⟨_, _, rfl⟩ := setUniform_ok hset
      rfl
    · rfl

theorem size_rebinds_after (g : Graph) (history : List Request) :
    (g.after history).rebinds.size = g.rebinds.size + history.countP Request.isRebind := by
  induction history generalizing g with
  | nil => rfl
  | cons r history ih =>
    rw [List.countP_cons]
    show ((r.apply g).after history).rebinds.size = _
    rw [ih, size_rebinds_apply]
    omega

/-- Only a vertex that is recorded makes a graph larger. -/
theorem lt_size_apply {r : Request} (hh : h.index < (r.apply g).size) :
    h.index < g.size ∨ h = g.next ∧ ∃ v, r = .record v := by
  cases r with
  | record v =>
    change h.index < (g.push v).size at hh
    rw [size_push] at hh
    refine (Nat.lt_succ_iff_lt_or_eq.1 hh).imp_right fun heq => ⟨?_, v, rfl⟩
    cases h
    exact congrArg Handle.mk heq
  | rebind var expr => exact .inl hh
  | label k name => exact .inl hh
  | setUniform k value =>
    unfold Request.apply at hh
    dsimp only at hh
    split at hh
    · rename_i g' hset
      obtain ⟨_, _, rfl⟩ := setUniform_ok hset
      rw [size_setValue] at hh
      exact .inl hh
    · exact .inl hh

/-- A new vertex of a graph was recorded by one of the requests. -/
theorem exists_record_of_lt_size (hold : g.size ≤ h.index) (hh : h.index < (g.after history).size) :
    ∃ before v later, history = before ++ .record v :: later ∧ (g.after before).next = h := by
  induction history generalizing g with
  | nil => exact absurd hh (Nat.not_lt.2 hold)
  | cons r history ih =>
    rcases Nat.lt_or_ge h.index (r.apply g).size with hlt | hge
    · obtain hlt | ⟨rfl, v, rfl⟩ := lt_size_apply hlt
      · exact absurd hlt (Nat.not_lt.2 hold)
      · exact ⟨[], v, history, rfl, rfl⟩
    · obtain ⟨before, v, later, rfl, hnext⟩ := ih hge hh
      exact ⟨r :: before, v, later, rfl, hnext⟩

/-- A vertex sees the rebinds that were requested before it was recorded. -/
theorem visibleFrom_after (before : List Request) (v : Vertex) (later : List Request) :
    (empty.after (before ++ .record v :: later)).visibleFrom (empty.after before).next =
      before.countP Request.isRebind := by
  rw [after_append]
  show (((empty.after before).push v).after later).visibleFrom _ = _
  rw [(grows_after _ later).visibleFrom_next, size_rebinds_after]
  exact Nat.zero_add _

/-- A rebind is logged with the number of vertices that were recorded before it was requested. -/
theorem rebinds_after (before : List Request) (var expr : Handle) (later : List Request) :
    (empty.after (before ++ .rebind var expr :: later)).rebinds[before.countP Request.isRebind]? =
      some ⟨var, expr, (empty.after before).size⟩ := by
  have hplace := size_rebinds_after empty before
  rw [show empty.rebinds.size = 0 from rfl, Nat.zero_add] at hplace
  rw [after_append, ← hplace]
  refine (((empty.after before).rebind var expr).grows_after later).rebind ?_
  rw [rebinds_rebind]
  exact Array.getElem?_push_size

/-- What the log of a graph says after a history of requests, and what its vertices see of it. -/
structure LogsRebinds (g : Graph) (history : List Request) : Prop where
  size_rebinds : g.rebinds.size = history.countP Request.isRebind
  /-- The rebinds are those that were requested, in order, with the number of vertices at that time. -/
  logged : ∀ before var expr later, history = before ++ .rebind var expr :: later →
    g.rebinds[before.countP Request.isRebind]? = some ⟨var, expr, (empty.after before).size⟩
  point_le_point : ∀ (i j : Nat) (r s : Rebind), i ≤ j → g.rebinds[i]? = some r → g.rebinds[j]? = some s →
    r.point ≤ s.point
  point_le_size : ∀ r ∈ g.rebinds, r.point ≤ g.size
  /-- Each vertex was recorded by a request, and sees the rebinds that were requested before. -/
  seen : ∀ h : Handle, h.index < g.size → ∃ before v later, history = before ++ .record v :: later ∧
    (empty.after before).next = h ∧ g.visibleFrom h = before.countP Request.isRebind
  mono : ∀ a b : Handle, a.index ≤ b.index → g.visibleFrom a ≤ g.visibleFrom b
  /-- A rebind is not seen by what was recorded before it. -/
  unseen : ∀ (i : Nat) (r : Rebind) (e : Handle), g.rebinds[i]? = some r → e.index < r.point → g.visibleFrom e ≤ i

end Graph

/-- After any requests, the log of rebinds is in order, and bisection finds for each vertex the rebinds that were
requested before it was recorded. -/
theorem Builder.logsRebinds_after (config : Config) (history : List Request) :
    ((Builder.ofConfig config).after history).graph.LogsRebinds history := by
  rw [Builder.graph_after]
  exact {
    size_rebinds := (Graph.size_rebinds_after .empty history).trans (Nat.zero_add _)
    logged := by
      rintro before var expr later rfl
      exact Graph.rebinds_after before var expr later
    point_le_point := (Graph.empty.after history).point_mono
    point_le_size := by
      intro r hr
      obtain ⟨i, hi, rfl⟩ := Array.mem_iff_getElem.1 hr
      exact (Graph.empty.after history).point_le i _ (Array.getElem?_eq_getElem hi)
    seen := by
      intro h hh
      obtain ⟨before, v, later, rfl, rfl⟩ := Graph.exists_record_of_lt_size (Nat.zero_le _) hh
      exact ⟨before, v, later, rfl, rfl, Graph.visibleFrom_after before v later⟩
    mono := fun _ _ hab => Graph.visibleFrom_mono hab
    unseen := fun _ _ _ hr he => Graph.visibleFrom_le_of_lt_point hr he }

end ShaderExpr
