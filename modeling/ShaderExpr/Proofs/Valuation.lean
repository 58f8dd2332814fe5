import ShaderExpr.Proofs.Demand

/-!
# Values without a depth

`Graph.valueAt` is the value of a vertex after the first `visible` rebinds, with no bound on the depth of the
evaluation.

* every depth above the rank of the vertex gives it (`Graph.evalWithin_eq_done`), in particular the evaluation
  of the graph as it is now (`Graph.eval_eq_valueAt`);
* it satisfies one equation for each kind of vertex (`Graph.valueAt_op` and the others), in which operands are
  read by `Graph.readAt`;
* only variables look at `visible` (`Graph.valueAt_congr`).
-/

namespace ShaderExpr

theorem mapM_congr_mem {m : Type → Type} [Monad m] [LawfulMonad m] {α β : Type} {f f' : α → m β}
    {xs : List α} (hf : ∀ x ∈ xs, f x = f' x) : xs.mapM f = xs.mapM f' := by
  induction xs with
  | nil => rfl
  | cons x xs ih =>
    rw [List.forall_mem_cons] at hf
    rw [List.mapM_cons, List.mapM_cons, hf.1, ih hf.2]

namespace Attempt

theorem done_inj {α : Type} {x y : Except EvalFailure α} (h : done x = done y) : x = y :=
  Option.some.inj h

theorem done_bind {α β : Type} (x : Except EvalFailure α) (f : α → Except EvalFailure β) :
    (done x >>= fun a => done (f a)) = done (x >>= f) := by
  cases x <;> rfl

theorem all_done {α β : Type} (f : α → Except EvalFailure β) (xs : List α) :
    all (fun x => done (f x)) xs = done (xs.mapM f) := by
  induction xs with
  | nil => rfl
  | cons x xs ih =>
    unfold all
    rw [ih, List.mapM_cons]
    cases f x with
    | error failure => rfl
    | ok y => exact done_bind (xs.mapM f) fun ys => .ok (y :: ys)

end Attempt

/-- The components that an accessor picks, as a value of its type. -/
def Value.access (v : Value) (source : Handle) (name : String) (ty : ValueType) : Except EvalFailure Value :=
  match v.pick? name with
  | some picked => rebuild ty picked
  | none => .error (.accessor name source)

namespace Graph

variable {g : Graph} {b : Bindings}

theorem latestRebind?_succ {r : Rebind} {i : Nat} (hr : g.rebinds[i]? = some r) (h : Handle) :
    g.latestRebind? h (i + 1) = if r.var = h then some (i, r) else g.latestRebind? h i := by
  conv => lhs; unfold latestRebind?
  rw [hr]

/-- The value of a vertex after the first `visible` rebinds. -/
def valueAt (g : Graph) (b : Bindings) (h : Handle) (visible : Nat) : Except EvalFailure Value :=
  (g.evalWithin b (visible * g.size + h.index + 1) h visible).run.getD (.error (.missing h))

/-- Every depth above the rank of a vertex gives its value. -/
theorem evalWithin_eq_done {depth : Nat} {h : Handle} {visible : Nat} (hsees : g.visibleFrom h ≤ visible)
    (hdepth : visible * g.size + h.index < depth) :
    g.evalWithin b depth h visible = .done (g.valueAt b h visible) := by
  obtain ⟨outcome, ho⟩ := evalWithin_finished (b := b) hsees (Nat.lt_succ_self _)
  unfold valueAt
  rw [evalWithin_below hdepth outcome ho, ho]
  rfl

private theorem valueAt_step {h : Handle} {visible : Nat} (hsees : g.visibleFrom h ≤ visible) :
    Attempt.done (g.valueAt b h visible) = g.step b (fun e seen => .done (g.valueAt b e seen)) h visible := by
  rw [← evalWithin_eq_done hsees (Nat.lt_succ_self _)]
  refine step_related Attempt.congruence_eq _ _ fun e seen hasks => ?_
  obtain ⟨hseen, hrank⟩ := hasks.rank_lt hsees
  exact evalWithin_eq_done hseen hrank

/-- The evaluation of a graph sees all its rebinds. -/
theorem eval_eq_valueAt (g : Graph) (b : Bindings) (h : Handle) : g.eval b h = g.valueAt b h g.rebinds.size := by
  have hdone : g.evalWithin b g.depthBound h g.rebinds.size = .done (g.valueAt b h g.rebinds.size) := by
    rcases Nat.lt_or_ge h.index g.size with hlt | hge
    · refine evalWithin_eq_done (g.visibleFrom_le h) ?_
      unfold depthBound
      rw [Nat.succ_mul]
      omega
    · -- a handle that names no vertex fails at any depth
      have hnone : g.vertex? h = none := Array.getElem?_eq_none hge
      obtain ⟨d, hd⟩ : ∃ d, g.depthBound = d + 1 := ⟨g.depthBound - 1, by unfold depthBound; omega⟩
      rw [valueAt_step (g.visibleFrom_le h), hd]
      unfold evalWithin step
      rw [hnone]
  unfold eval
  apply Option.some.inj
  rw [Option.some_get]
  exact hdone

/-- The value of an operand as its reader sees it. -/
def readAt (g : Graph) (b : Bindings) (reader operand : Handle) : Except EvalFailure Value :=
  if operand.index < reader.index then g.valueAt b operand (g.visibleFrom reader)
  else .error (.readsLater reader operand)

/-- The value that the rebind of an index binds, made when the rebinds before it were visible. -/
def boundAt (g : Graph) (b : Bindings) (i : Nat) (r : Rebind) : Except EvalFailure Value :=
  if r.expr.index < r.point then g.valueAt b r.expr i else .error (.boundLater r.var r.expr)

private theorem read_done (reader operand : Handle) :
    g.read (fun e seen => .done (g.valueAt b e seen)) reader operand = .done (g.readAt b reader operand) := by
  unfold read readAt
  split <;> rfl

variable {h : Handle} {visible : Nat}

theorem valueAt_none (hsees : g.visibleFrom h ≤ visible) (hv : g.vertex? h = none) :
    g.valueAt b h visible = .error (.missing h) := by
  apply Attempt.done_inj
  rw [valueAt_step hsees]
  unfold step
  rw [hv]

theorem valueAt_op {op : Op} {ty : ValueType} {operands : List Handle} (hsees : g.visibleFrom h ≤ visible)
    (hv : g.vertex? h = some (.op op ty operands)) :
    g.valueAt b h visible = operands.mapM (g.readAt b h) >>= op.apply ty := by
  apply Attempt.done_inj
  rw [valueAt_step hsees]
  unfold step
  rw [hv, funext (read_done h)]
  dsimp only
  rw [Attempt.all_done, Attempt.done_bind]

theorem valueAt_component {source : Handle} {name : String} {ty : ValueType}
    (hsees : g.visibleFrom h ≤ visible) (hv : g.vertex? h = some (.component source name ty)) :
    g.valueAt b h visible = g.readAt b h source >>= fun v => v.access source name ty := by
  apply Attempt.done_inj
  rw [valueAt_step hsees]
  unfold step
  rw [hv]
  dsimp only
  rw [read_done, ← Attempt.done_bind]
  congr 1
  funext v
  unfold Value.access
  cases v.pick? name <;> rfl

theorem valueAt_uniform {ty : ValueType} {value : Value} (hsees : g.visibleFrom h ≤ visible)
    (hv : g.vertex? h = some (.uniform ty value)) : g.valueAt b h visible = .ok value := by
  apply Attempt.done_inj
  rw [valueAt_step hsees]
  unfold step
  rw [hv]

theorem valueAt_attr {ty : ValueType} {name : String} (hsees : g.visibleFrom h ≤ visible)
    (hv : g.vertex? h = some (.attr ty name)) : g.valueAt b h visible = b.value ty name := by
  apply Attempt.done_inj
  rw [valueAt_step hsees]
  unfold step
  rw [hv]

theorem valueAt_texture {kind : TextureKind} {info : TextureInfo} (hsees : g.visibleFrom h ≤ visible)
    (hv : g.vertex? h = some (.texture kind info)) :
    g.valueAt b h visible = .error (.textureValue info.label) := by
  apply Attempt.done_inj
  rw [valueAt_step hsees]
  unfold step
  rw [hv]

/-- A variable has the value of the expression bound to it, as that expression saw the rebinds, or that of its
initial expression. -/
theorem valueAt_var {ty : ValueType} {init : Handle} (hsees : g.visibleFrom h ≤ visible)
    (hv : g.vertex? h = some (.var ty init)) :
    g.valueAt b h visible =
      match g.latestRebind? h visible with
      | some (i, r) => g.boundAt b i r
      | none => g.readAt b h init := by
  apply Attempt.done_inj
  rw [valueAt_step hsees]
  unfold step
  rw [hv]
  dsimp only
  cases hr : g.latestRebind? h visible with
  | none => exact read_done h init
  | some found =>
    obtain ⟨i, r⟩ := found
    dsimp only
    unfold boundAt
    rw [(latestRebind?_some hr).2.2]
    split <;> rfl

/-- Only variables look at the number of visible rebinds, and at the latest one of their own. -/
theorem valueAt_congr {seen : Nat} (hsees : g.visibleFrom h ≤ visible) (hseen : g.visibleFrom h ≤ seen)
    (hlatest : ∀ ty init, g.vertex? h = some (.var ty init) →
      g.latestRebind? h visible = g.latestRebind? h seen) :
    g.valueAt b h visible = g.valueAt b h seen := by
  cases hv : g.vertex? h with
  | none => rw [valueAt_none hsees hv, valueAt_none hseen hv]
  | some v =>
    cases v with
    | op op ty operands => rw [valueAt_op hsees hv, valueAt_op hseen hv]
    | component source name ty => rw [valueAt_component hsees hv, valueAt_component hseen hv]
    | uniform ty value => rw [valueAt_uniform hsees hv, valueAt_uniform hseen hv]
    | attr ty name => rw [valueAt_attr hsees hv, valueAt_attr hseen hv]
    | texture kind info => rw [valueAt_texture hsees hv, valueAt_texture hseen hv]
    | var ty init => rw [valueAt_var hsees hv, valueAt_var hseen hv, hlatest ty init hv]

end Graph

end ShaderExpr
