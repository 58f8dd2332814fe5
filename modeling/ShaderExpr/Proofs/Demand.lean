import ShaderExpr.Evaluation

/-!
# What evaluations ask for

The evaluation of a vertex asks for the evaluations of what it depends on.  `Graph.Asks` says which evaluation
may ask for which: for operands as their reader sees them, and for the expression that is bound to a variable as
it was when it was bound.  Nothing else is looked at (`Graph.step_related`).

* What is asked for has a smaller rank (`Graph.Asks.rank_lt`), so that facts on values can be proved by induction
  on what is asked for (`Graph.asks_induction`).
* More depth does not change a finished evaluation (`Graph.evalWithin_below`).
-/

namespace ShaderExpr

/-- The vertices that a vertex reads. -/
def Vertex.reads : Vertex → List Handle
  | op _ _ operands => operands
  | component source _ _ => [source]
  | var _ init => [init]
  | uniform .. | attr .. | texture .. => []

namespace Attempt

/-- A relation between attempts that holds of finished ones and is kept by going on. -/
structure Congruence (R : ∀ {α : Type}, Attempt α → Attempt α → Prop) : Prop where
  done : ∀ {α : Type} (outcome : Except EvalFailure α), R (done outcome) (done outcome)
  bind : ∀ {α β : Type} {a a' : Attempt α} {f f' : α → Attempt β}, R a a' → (∀ x, R (f x) (f' x)) →
    R (a >>= f) (a' >>= f')

theorem Congruence.all {R : ∀ {α : Type}, Attempt α → Attempt α → Prop} (hR : Congruence R) {α β : Type}
    {f f' : α → Attempt β} {xs : List α} (hf : ∀ x ∈ xs, R (f x) (f' x)) : R (all f xs) (all f' xs) := by
  induction xs with
  | nil => exact hR.done _
  | cons x xs ih =>
    rw [List.forall_mem_cons] at hf
    exact hR.bind hf.1 fun y => hR.bind (ih hf.2) fun ys => hR.done _

theorem congruence_eq : Congruence fun a a' => a = a' where
  done _ := rfl
  bind := by
    rintro α β a _ f f' rfl hf
    rw [funext hf]

theorem congruence_finished : Congruence fun a _ => a.Finished where
  done := finished_done
  bind := finished_bind

/-- What is finished in the first attempt is finished in the second, with the same outcome. -/
def Below {α : Type} (a a' : Attempt α) : Prop :=
  ∀ outcome, a = done outcome → a' = done outcome

theorem congruence_below : Congruence Below where
  done _ _ h := h
  bind := by
    intro α β a a' f f' ha hf outcome hbind
    rcases a with _ | first
    · exact absurd hbind nofun
    · -- the first attempt gets to `f`, so the second gets there in the same way
      have ha' : a' = Attempt.done first := ha first rfl
      rw [ha']
      cases first with
      | error failure => exact hbind
      | ok x => exact hf x outcome hbind

end Attempt

namespace Graph

variable {g : Graph} {b : Bindings} {h : Handle} {visible : Nat}

/-- The evaluation of `h` after the first `visible` rebinds may ask for that of another vertex after some
rebinds. -/
inductive Asks (g : Graph) (h : Handle) (visible : Nat) : Handle → Nat → Prop where
  | operand {v : Vertex} {o : Handle} (hv : g.vertex? h = some v) (ho : o ∈ v.reads) (hlt : o.index < h.index) :
    Asks g h visible o (g.visibleFrom h)
  | bound {ty : ValueType} {init : Handle} {i : Nat} {r : Rebind} (hv : g.vertex? h = some (.var ty init))
    (hr : g.latestRebind? h visible = some (i, r)) (hlt : r.expr.index < r.point) : Asks g h visible r.expr i

/-- What is asked for sees no more than it may, and has a smaller rank. -/
theorem Asks.rank_lt {e : Handle} {seen : Nat} (hasks : g.Asks h visible e seen) (hsees : g.visibleFrom h ≤ visible) :
    g.visibleFrom e ≤ seen ∧ seen * g.size + e.index < visible * g.size + h.index := by
  cases hasks with
  | operand hv ho hlt =>
    have hmul := Nat.mul_le_mul_right g.size hsees
    exact ⟨visibleFrom_mono (Nat.le_of_lt hlt), by omega⟩
  | bound hv hr hlt =>
    obtain ⟨hi, hget, _⟩ := latestRebind?_some hr
    have hpoint := g.point_le _ _ hget
    unfold size at *
    -- one rebind fewer is visible, which outweighs the place of the expression
    have hmul := Nat.mul_le_mul_right g.vertices.size (Nat.succ_le_of_lt hi)
    rw [Nat.succ_mul] at hmul
    exact ⟨visibleFrom_le_of_lt_point hget hlt, by omega⟩

/-- A fact holds of all evaluations if it holds of each one whenever it holds of what that one asks for. -/
theorem asks_induction {motive : Handle → Nat → Prop}
    (hstep : ∀ h visible, g.visibleFrom h ≤ visible →
      (∀ e seen, g.Asks h visible e seen → motive e seen) → motive h visible)
    (hsees : g.visibleFrom h ≤ visible) : motive h visible := by
  induction hrank : visible * g.size + h.index using Nat.strongRecOn generalizing h visible with
  | ind rank ih =>
    refine hstep h visible hsees ?_
    intro e seen hasks
    obtain ⟨hseen, hlt⟩ := hasks.rank_lt hsees
    exact ih _ (hrank ▸ hlt) hseen rfl

/-- One level of an evaluation depends on nothing but what it asks for. -/
theorem step_related {R : ∀ {α : Type}, Attempt α → Attempt α → Prop} (hR : Attempt.Congruence R)
    (recur recur' : Handle → Nat → Attempt Value)
    (hrecur : ∀ e seen, g.Asks h visible e seen → R (recur e seen) (recur' e seen)) :
    R (g.step b recur h visible) (g.step b recur' h visible) := by
  have hread : ∀ {v : Vertex} {o : Handle}, g.vertex? h = some v → o ∈ v.reads →
      R (g.read recur h o) (g.read recur' h o) := by
    intro v o hv ho
    unfold read
    split
    · rename_i hlt
      exact hrecur o _ (.operand hv ho hlt)
    · exact hR.done _
  unfold step
  cases hv : g.vertex? h with
  | none => exact hR.done _
  | some v =>
    cases v with
    | op op ty operands => exact hR.bind (hR.all fun o ho => hread hv ho) fun args => hR.done _
    | component source name ty =>
      refine hR.bind (hread hv List.mem_cons_self) fun v => ?_
      split <;> exact hR.done _
    | uniform | attr | texture => exact hR.done _
    | var ty init =>
      dsimp only
      cases hr : g.latestRebind? h visible with
      | none => exact hread hv List.mem_cons_self
      | some found =>
        dsimp only
        split
        · rename_i hlt
          exact hrecur _ _ (.bound hv hr hlt)
        · exact hR.done _

/-- More depth does not change a finished evaluation. -/
theorem evalWithin_below {depth more : Nat} (hmore : depth ≤ more) :
    (g.evalWithin b depth h visible).Below (g.evalWithin b more h visible) := by
  induction depth generalizing more h visible with
  | zero =>
    intro outcome hnone
    exact absurd hnone nofun
  | succ depth ih =>
    obtain ⟨more, rfl⟩ : ∃ m, more = m + 1 := ⟨more - 1, by omega⟩
    exact step_related Attempt.congruence_below _ _ fun e seen _ => ih (by omega)

end Graph

end ShaderExpr
