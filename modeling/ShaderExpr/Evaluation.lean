import ShaderExpr.Arithmetic
import ShaderExpr.Graph

/-!
# Evaluation

The value of a vertex is computed on demand from the values of what it reads.  Attributes take their
values from bindings and uniforms their current ones.  Variables are read in program order: a vertex
sees the rebinds made before it was recorded, and an expression bound to a variable sees those made
before its own vertex.  A variable that is evaluated directly has its latest binding.

`Graph.step` is one level of the evaluation, `Graph.evalWithin` the evaluation to a bounded depth.
The depth `Graph.depthBound` always suffices, whatever the handles in the graph:
`Graph.evalWithin_isSome`.  The reason is that a variable leads to an expression that sees fewer
rebinds, and anything else to an earlier vertex that sees no more.
-/

namespace ShaderExpr

/-- The values of attributes, newest first. -/
structure Bindings where
  entries : List (String × Value)

namespace Bindings

def empty : Bindings :=
  ⟨[]⟩

/-- Bind an attribute; an older value for it is replaced. -/
def set (b : Bindings) (name : String) (value : Value) : Bindings :=
  ⟨(name, value) :: b.entries⟩

def ofList (pairs : List (String × Value)) : Bindings :=
  pairs.foldl (fun b pair => b.set pair.1 pair.2) empty

def get? (b : Bindings) (name : String) : Option Value :=
  b.entries.lookup name

/-- The value of an attribute, which must have the type the attribute was declared with. -/
def value (b : Bindings) (ty : ValueType) (name : String) : Except EvalFailure Value :=
  match b.get? name with
  | some v => if v.ty = ty then .ok v else .error (.attributeType name v.ty ty)
  | none => .error (.attributeUnbound name)

end Bindings

/-- The outcome of an evaluation to a bounded depth: `none` when the depth is used up. -/
abbrev Attempt (α : Type) : Type :=
  ExceptT EvalFailure Option α

namespace Attempt

/-- An outcome that needs no more depth. -/
def done {α : Type} (outcome : Except EvalFailure α) : Attempt α :=
  ExceptT.mk (some outcome)

/-- Evaluate from the first to the last, stopping at the first failure. -/
def all {α β : Type} (f : α → Attempt β) : List α → Attempt (List β)
  | [] => done (.ok [])
  | x :: xs => do
    let y ← f x
    let ys ← all f xs
    done (.ok (y :: ys))

/-- Whether the depth sufficed. -/
def Finished {α : Type} (a : Attempt α) : Prop :=
  ∃ outcome, a = done outcome

theorem finished_done {α : Type} (outcome : Except EvalFailure α) : (done outcome).Finished :=
  ⟨outcome, rfl⟩

theorem finished_bind {α β : Type} {a : Attempt α} {f : α → Attempt β} (ha : a.Finished)
    (hf : ∀ x, (f x).Finished) : Finished (a >>= f) := by
  obtain ⟨outcome, rfl⟩ := ha
  cases outcome with
  | error failure => exact ⟨.error failure, rfl⟩
  | ok x => exact hf x

theorem finished_all {α β : Type} {f : α → Attempt β} {xs : List α} (hf : ∀ x ∈ xs, (f x).Finished) :
    (all f xs).Finished := by
  induction xs with
  | nil => exact finished_done _
  | cons x xs ih =>
    refine finished_bind (hf x List.mem_cons_self) fun y => ?_
    exact finished_bind (ih fun z hz => hf z (List.mem_cons_of_mem x hz)) fun ys => finished_done _

end Attempt

namespace Graph

/-- The latest of the first `visible` rebinds of a variable, with its index. -/
def latestRebind? (g : Graph) (var : Handle) : Nat → Option (Nat × Rebind)
  | 0 => none
  | i + 1 =>
    match g.rebinds[i]? with
    | some r => if r.var = var then some (i, r) else latestRebind? g var i
    | none => latestRebind? g var i

theorem latestRebind?_some {g : Graph} {var : Handle} {visible i : Nat} {r : Rebind}
    (h : g.latestRebind? var visible = some (i, r)) :
    i < visible ∧ g.rebinds[i]? = some r ∧ r.var = var := by
  induction visible with
  | zero => exact absurd h (by simp [latestRebind?])
  | succ n ih =>
    unfold latestRebind? at h
    split at h
    · rename_i s hs
      split at h
      · rename_i hvar
        simp only [Option.some.injEq, Prod.mk.injEq] at h
        obtain ⟨rfl, rfl⟩ := h
        exact ⟨Nat.lt_succ_self n, hs, hvar⟩
      · exact ⟨Nat.lt_succ_of_lt (ih h).1, (ih h).2⟩
    · exact ⟨Nat.lt_succ_of_lt (ih h).1, (ih h).2⟩

/-- An operand as its reader sees it: it must be the earlier of the two. -/
def read (g : Graph) (recur : Handle → Nat → Attempt Value) (reader operand : Handle) : Attempt Value :=
  if operand.index < reader.index then recur operand (g.visibleFrom reader)
  else .done (.error (.readsLater reader operand))

/-- The value of a vertex after the first `visible` rebinds, `recur` giving the values it depends
on. -/
def step (g : Graph) (b : Bindings) (recur : Handle → Nat → Attempt Value) (h : Handle) (visible : Nat) :
    Attempt Value :=
  match g.vertex? h with
  | none => .done (.error (.missing h))
  | some (.op op ty operands) => do
    let args ← Attempt.all (g.read recur h) operands
    .done (op.apply ty args)
  | some (.component source name ty) => do
    let v ← g.read recur h source
    match v.pick? name with
    | some picked => .done (Value.rebuild ty picked)
    | none => .done (.error (.accessor name source))
  | some (.uniform _ value) => .done (.ok value)
  | some (.attr ty name) => .done (b.value ty name)
  | some (.texture _ info) => .done (.error (.textureValue info.label))
  | some (.var _ init) =>
    match g.latestRebind? h visible with
    | some (i, r) =>
      if r.expr.index < r.point then recur r.expr i else .done (.error (.boundLater h r.expr))
    | none => g.read recur h init

/-- The value of a vertex after the first `visible` rebinds, if `depth` nested evaluations suffice. -/
def evalWithin (g : Graph) (b : Bindings) : Nat → Handle → Nat → Attempt Value
  | 0, _, _ => ExceptT.mk none
  | depth + 1, h, visible => g.step b (g.evalWithin b depth) h visible

def depthBound (g : Graph) : Nat :=
  max 1 ((g.rebinds.size + 1) * g.size)

theorem index_lt_size {g : Graph} {h : Handle} {v : Vertex} (hv : g.vertex? h = some v) : h.index < g.size :=
  (Array.getElem?_eq_some_iff.1 hv).1

private theorem step_finished {g : Graph} {b : Bindings} {recur : Handle → Nat → Attempt Value} {h : Handle}
    {visible : Nat} (hsees : g.visibleFrom h ≤ visible)
    (hrecur : ∀ e seen, e.index < g.size → g.visibleFrom e ≤ seen →
      seen * g.size + e.index < visible * g.size + h.index → (recur e seen).Finished) :
    (g.step b recur h visible).Finished := by
  have hread : h.index < g.size → ∀ o, (g.read recur h o).Finished := by
    intro hh o
    unfold read
    split
    · rename_i ho
      have := Nat.mul_le_mul_right g.size hsees
      exact hrecur o _ (by omega) (visibleFrom_mono (by omega)) (by omega)
    · exact Attempt.finished_done _
  unfold step
  split
  · exact Attempt.finished_done _
  · rename_i hv
    refine Attempt.finished_bind (Attempt.finished_all fun o _ => hread (index_lt_size hv) o) fun args => ?_
    exact Attempt.finished_done _
  · rename_i hv
    refine Attempt.finished_bind (hread (index_lt_size hv) _) fun v => ?_
    split <;> exact Attempt.finished_done _
  · exact Attempt.finished_done _
  · exact Attempt.finished_done _
  · exact Attempt.finished_done _
  · rename_i hv
    split
    · rename_i i r hr
      obtain ⟨hi, hget, _⟩ := latestRebind?_some hr
      split
      · rename_i he
        have hpoint := g.point_le i r hget
        have hmul := Nat.mul_le_mul_right g.size (Nat.succ_le_of_lt hi)
        rw [Nat.succ_mul] at hmul
        unfold size at *
        exact hrecur _ _ (by omega) (visibleFrom_le_of_lt_point hget he) (by omega)
      · exact Attempt.finished_done _
    · exact hread (index_lt_size hv) _

theorem evalWithin_finished {g : Graph} {b : Bindings} {depth : Nat} {h : Handle} {visible : Nat}
    (hsees : g.visibleFrom h ≤ visible) (hdepth : visible * g.size + h.index < depth) :
    (g.evalWithin b depth h visible).Finished := by
  induction depth generalizing h visible with
  | zero => omega
  | succ depth ih => exact step_finished hsees fun e seen _ hseen hrank => ih hseen (by omega)

/-- The depth bound suffices for every handle, and any larger depth does. -/
theorem evalWithin_isSome (g : Graph) (b : Bindings) (h : Handle) {depth : Nat}
    (hdepth : g.depthBound ≤ depth) :
    (g.evalWithin b depth h g.rebinds.size).isSome = true := by
  suffices hfin : (g.evalWithin b depth h g.rebinds.size).Finished by
    obtain ⟨outcome, he⟩ := hfin
    rw [he]
    rfl
  unfold depthBound at hdepth
  rcases Nat.lt_or_ge h.index g.size with hlt | hge
  · refine evalWithin_finished (g.visibleFrom_le h) ?_
    rw [Nat.succ_mul] at hdepth
    omega
  · obtain ⟨d, rfl⟩ : ∃ d, depth = d + 1 := ⟨depth - 1, by omega⟩
    have hnone : g.vertex? h = none := Array.getElem?_eq_none hge
    unfold evalWithin step
    rw [hnone]
    exact Attempt.finished_done _

def eval (g : Graph) (b : Bindings) (h : Handle) : Except EvalFailure Value :=
  Option.get (g.evalWithin b g.depthBound h g.rebinds.size) (g.evalWithin_isSome b h (Nat.le_refl _))

/-- The value of a vertex now, or the error that a caller gets. -/
def evaluate (g : Graph) (b : Bindings) (h : Handle) : Except Error Value :=
  (g.eval b h).mapError EvalFailure.error

end Graph

end ShaderExpr
