import ShaderExpr.Proofs.Replay

/-!
# Operands as they are now

A vertex sees its operands as they were when it was recorded, and an evaluation asks for what they are now.  The two
agree for an operand that is no variable, and for all operands of a vertex that was recorded after the last rebind
(`Graph.readAt_eq_eval`).  The value of a vertex that sees its operands as they are now is that of its operation on
their values (`Graph.eval_op`, `Graph.eval_component`).

A vertex is grounded if it and all that it is made of are no variables, and each reads earlier ones only
(`Graph.Grounded`); so it sees its operands as they are now, whatever else happens to the graph.
-/

namespace ShaderExpr

namespace Graph

variable {g g' : Graph} {b : Bindings} {h o l r : Handle} {op : Op} {ty : ValueType}

/-- A vertex sees an operand as it is now: the operand is earlier, and there was no rebind since then, or none that
could matter. -/
structure ReadsNow (g : Graph) (h o : Handle) : Prop where
  earlier : o.index < h.index
  now : g.visibleFrom h = g.rebinds.size ∨ ∀ ty init, g.vertex? o ≠ some (.var ty init)

theorem readAt_eq_eval (hnow : g.ReadsNow h o) (b : Bindings) : g.readAt b h o = g.eval b o := by
  rw [eval_eq_valueAt]
  unfold readAt
  rw [if_pos hnow.earlier]
  rcases hnow.now with hsees | hvar
  · rw [hsees]
  · refine valueAt_congr (visibleFrom_mono (Nat.le_of_lt hnow.earlier)) (g.visibleFrom_le o) ?_
    intro ty init hv
    exact absurd hv (hvar ty init)

theorem eval_op {operands : List Handle} (hv : g.vertex? h = some (.op op ty operands))
    (hnow : ∀ o ∈ operands, g.ReadsNow h o) (b : Bindings) :
    g.eval b h = operands.mapM (g.eval b) >>= op.apply ty := by
  rw [eval_eq_valueAt, valueAt_op (g.visibleFrom_le h) hv]
  congr 1
  exact mapM_congr_mem fun o ho => readAt_eq_eval (hnow o ho) b

theorem eval_unary (hv : g.vertex? h = some (.op op ty [o])) (hnow : g.ReadsNow h o) (b : Bindings) :
    g.eval b h = g.eval b o >>= fun x => op.apply ty [x] := by
  rw [eval_op hv (List.forall_mem_singleton.2 hnow)]
  simp only [List.mapM_cons, List.mapM_nil, pure_bind, bind_assoc]

theorem eval_binary (hv : g.vertex? h = some (.op op ty [l, r])) (hl : g.ReadsNow h l) (hr : g.ReadsNow h r)
    (b : Bindings) : g.eval b h = g.eval b l >>= fun x => g.eval b r >>= fun y => op.apply ty [x, y] := by
  rw [eval_op hv (List.forall_mem_cons.2 ⟨hl, List.forall_mem_singleton.2 hr⟩)]
  simp only [List.mapM_cons, List.mapM_nil, pure_bind, bind_assoc]

theorem eval_component {name : String} (hv : g.vertex? h = some (.component o name ty)) (hnow : g.ReadsNow h o)
    (b : Bindings) : g.eval b h = g.eval b o >>= fun v => v.access o name ty := by
  rw [eval_eq_valueAt, valueAt_component (g.visibleFrom_le h) hv, readAt_eq_eval hnow]

theorem eval_constant {value : Value} (hv : g.vertex? h = some (.constant value)) (b : Bindings) :
    g.eval b h = .ok value :=
  eval_op hv (List.forall_mem_nil _) b

theorem eval_uniform {value : Value} (hv : g.vertex? h = some (.uniform ty value)) (b : Bindings) :
    g.eval b h = .ok value := by
  rw [eval_eq_valueAt, valueAt_uniform (g.visibleFrom_le h) hv]

theorem eval_attr {name : String} (hv : g.vertex? h = some (.attr ty name)) (b : Bindings) :
    g.eval b h = b.value ty name := by
  rw [eval_eq_valueAt, valueAt_attr (g.visibleFrom_le h) hv]

/-- A vertex is no variable, and reads earlier vertices that are grounded too. -/
inductive Grounded (g : Graph) : Handle → Prop where
  | intro {h : Handle} {v : Vertex} (hv : g.vertex? h = some v) (hvar : v.isVariable = false)
    (hearlier : ∀ o ∈ v.reads, o.index < h.index) (hreads : ∀ o ∈ v.reads, Grounded g o) : Grounded g h

namespace Grounded

theorem index_lt (hg : g.Grounded h) : h.index < g.size := by
  cases hg with
  | intro hv => exact index_lt_size hv

theorem mono (h : g.Grounded o) (hg : g.Grows g') : g'.Grounded o := by
  induction h with
  | intro hv hvar hearlier _ ih =>
    obtain ⟨w, hw, hbecomes⟩ := hg.vertex hv
    -- another value of a uniform is as good
    cases hbecomes with
    | same => exact .intro hw hvar hearlier ih
    | reset => exact .intro hw rfl hearlier ih

variable {v : Vertex}

/-- A grounded vertex sees what it reads as it is now. -/
theorem readsNow (hg : g.Grounded h) (hv : g.vertex? h = some v) (ho : o ∈ v.reads) :
    g.ReadsNow h o ∧ g.Grounded o := by
  cases hg with
  | intro hv' _ hearlier hreads =>
    cases Option.some.inj (hv.symm.trans hv')
    refine ⟨⟨hearlier o ho, .inr ?_⟩, hreads o ho⟩
    intro ty init hvar
    cases hreads o ho with
    | intro hw hnot =>
      cases Option.some.inj (hvar.symm.trans hw)
      exact absurd hnot nofun

theorem push (hvar : v.isVariable = false) (hreads : ∀ o ∈ v.reads, g.Grounded o) : (g.push v).Grounded g.next :=
  .intro (g.vertex?_next v) hvar (fun o ho => (hreads o ho).index_lt)
    fun o ho => (hreads o ho).mono (g.grows_push v)

end Grounded

end Graph

end ShaderExpr
