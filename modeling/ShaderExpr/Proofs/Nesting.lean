import ShaderExpr.Proofs.Requests
import ShaderExpr.Proofs.Valuation

/-!
# How deep evaluations nest

`Graph.Nests` counts evaluations of which each is asked for by the one before.

* A depth that no chain of nested evaluations exceeds is enough (`Graph.finished_of_nests_le`).
* After any history of requests, evaluations nest no deeper than the number of vertices times one more than the
  number of rebinds (`Graph.nesting_bounded`).
-/

namespace ShaderExpr

namespace Graph

variable {g : Graph} {b : Bindings} {h : Handle} {visible : Nat}

/-- The evaluation of a vertex after some rebinds leads to so many evaluations, each asked for by the one
before; it is the first of them. -/
inductive Nests (g : Graph) : Handle → Nat → Nat → Prop where
  | self (h : Handle) (visible : Nat) : Nests g h visible 1
  | asks {h e : Handle} {visible seen count : Nat} (hasks : g.Asks h visible e seen) (he : Nests g e seen count) :
    Nests g h visible (count + 1)

/-- A depth that no chain of nested evaluations exceeds is enough. -/
theorem finished_of_nests_le {depth : Nat} (hnests : ∀ count, g.Nests h visible count → count ≤ depth) :
    (g.evalWithin b depth h visible).Finished := by
  induction depth generalizing h visible with
  | zero => exact absurd (hnests 1 (.self h visible)) (by omega)
  | succ depth ih =>
    refine step_related Attempt.congruence_finished _ (g.evalWithin b depth) ?_
    intro e seen hasks
    refine ih fun count he => ?_
    have := hnests (count + 1) (.asks hasks he)
    omega

theorem Nests.le_rank {count : Nat} (hn : g.Nests h visible count) (hsees : g.visibleFrom h ≤ visible) :
    count ≤ visible * g.size + h.index + 1 := by
  induction hn with
  | self => omega
  | asks hasks he ih =>
    obtain ⟨hseen, hlt⟩ := hasks.rank_lt hsees
    have := ih hseen
    omega

/-- The evaluation of a handle that names no vertex asks for nothing. -/
theorem Nests.eq_one_of_none {count : Nat} (hn : g.Nests h visible count) (hv : g.vertex? h = none) : count = 1 := by
  cases hn with
  | self => rfl
  | asks hasks he =>
    cases hasks with
    | operand hv' | bound hv' => exact absurd (hv.symm.trans hv') nofun

/-- How deep evaluations nest that see all rebinds. -/
theorem Nests.le_bound {count : Nat} (hn : g.Nests h g.rebinds.size count) :
    count ≤ max 1 ((g.rebinds.size + 1) * g.size) := by
  rcases Nat.lt_or_ge h.index g.size with hlt | hge
  · have hrank := hn.le_rank (g.visibleFrom_le h)
    rw [Nat.succ_mul]
    omega
  · rw [hn.eq_one_of_none (Array.getElem?_eq_none hge)]
    omega

/-- Every depth at which an evaluation is finished gives the value of the vertex. -/
theorem eq_eval_of_finished {depth : Nat} {outcome : Except EvalFailure Value}
    (hfinished : g.evalWithin b depth h g.rebinds.size = .done outcome) : outcome = g.eval b h := by
  have hbound : g.evalWithin b g.depthBound h g.rebinds.size = .done (g.eval b h) := (Option.some_get _).symm
  -- compare both at a depth that is no less than either
  have hleft := evalWithin_below (Nat.le_max_left depth g.depthBound) _ hfinished
  have hright := evalWithin_below (Nat.le_max_right depth g.depthBound) _ hbound
  exact Attempt.done_inj (hleft.symm.trans hright)

/-- After any history of requests, with any handles, evaluations nest at most as deep as the number of vertices
times one more than the number of rebinds.  Every depth from there on is enough, and the outcome is the same at
every depth that is enough. -/
theorem nesting_bounded (config : Config) (history : List Request) (b : Bindings) (h : Handle) :
    let g := ((Builder.ofConfig config).after history).graph
    let bound := max 1 ((g.rebinds.size + 1) * g.size)
    (∀ count, g.Nests h g.rebinds.size count → count ≤ bound) ∧
    (∀ depth, bound ≤ depth → g.evalWithin b depth h g.rebinds.size = .done (g.eval b h)) ∧
    ∀ depth outcome, g.evalWithin b depth h g.rebinds.size = .done outcome → outcome = g.eval b h := by
  intro g bound
  have hnests : ∀ count, g.Nests h g.rebinds.size count → count ≤ bound := fun count hn => hn.le_bound
  refine ⟨hnests, ?_, fun depth outcome hfinished => eq_eval_of_finished hfinished⟩
  intro depth hdepth
  obtain ⟨outcome, ho⟩ : (g.evalWithin b depth h g.rebinds.size).Finished :=
    finished_of_nests_le fun count hn => Nat.le_trans (hnests count hn) hdepth
  rw [ho, eq_eval_of_finished ho]

/-- Two variables that are bound to each other, the second one first. -/
def swapped : List Request :=
  [.record (.constant (.ofFloat 1.0)), .record (.constant (.ofFloat 2.0)), .record (.var .float ⟨0⟩),
    .record (.var .float ⟨1⟩), .rebind ⟨3⟩ ⟨2⟩, .rebind ⟨2⟩ ⟨3⟩]

theorem nesting_bounded_swapped :
    ∃ g, g = ((Builder.ofConfig .standard).after swapped).graph ∧ g.Nests ⟨2⟩ g.rebinds.size 4 ∧ 4 ≤ 12 ∧
      g.evalWithin .empty 12 ⟨2⟩ g.rebinds.size = .done (g.eval .empty ⟨2⟩) := by
  have hbounded := nesting_bounded .standard swapped .empty ⟨2⟩
  let g := ((Builder.ofConfig .standard).after swapped).graph
  have hinit : g.Nests ⟨2⟩ 0 2 := .asks (.operand (v := .var .float ⟨0⟩) rfl List.mem_cons_self (by decide)) (.self _ _)
  have hsecond : g.Nests ⟨3⟩ 1 3 := .asks (.bound rfl rfl (by decide)) hinit
  have hfirst : g.Nests ⟨2⟩ g.rebinds.size 4 := .asks (.bound rfl rfl (by decide)) hsecond
  exact ⟨g, rfl, hfirst, hbounded.1 4 hfirst, hbounded.2.1 12 (Nat.le_refl _)⟩

end Graph

end ShaderExpr
