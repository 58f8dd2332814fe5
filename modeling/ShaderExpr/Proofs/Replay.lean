import ShaderExpr.Proofs.Requests
import ShaderExpr.Proofs.Valuation

/-!
# Reading a history in program order

`Replay` is an eager reader of a history of requests.  It goes through the requests once, from the first to
the last, and computes one outcome for each vertex when it is recorded; a store keeps what is bound to a
handle.  An operand is read as it stands at that moment.  Uniforms count with the values that they have at the
end of the history (`Replay.uniformsAfter`), which can be read off the requests alone.

The evaluation of the recorded graph, which works backwards from a vertex and consults the log of rebinds,
agrees with the eager reader on every history, also when handles dangle, refer to later vertices or to
themselves (`Replay.evaluate_after_eq_current`).  The reason is an invariant of the prefixes of the history
(`Replay.Follows`): the store holds what the rebinds of the prefix bind.
-/

namespace ShaderExpr

def Vertex.isVariable : Vertex → Bool
  | var .. => true
  | _ => false

/-- The type and the current value of a uniform. -/
def Vertex.uniform? : Vertex → Option (ValueType × Value)
  | uniform ty value => some (ty, value)
  | _ => none

/-- What an eager reader keeps of a vertex. -/
structure Replay.Entry where
  isVariable : Bool
  /-- The outcome of the vertex when it was recorded; for a variable, that of its initial expression. -/
  outcome : Except EvalFailure Value

/-- What an eager reader of a history knows. -/
structure Replay where
  /-- One entry for each vertex, in order. -/
  entries : List Replay.Entry
  /-- What is bound to a handle. -/
  store : Handle → Option (Except EvalFailure Value)

namespace Replay

def empty : Replay :=
  ⟨[], fun _ => none⟩

/-- What a vertex stands for now: a variable for what is bound to it, or else for its initial value. -/
def current (s : Replay) (h : Handle) : Except EvalFailure Value :=
  match s.entries[h.index]? with
  | some e => if e.isVariable then (s.store h).getD e.outcome else e.outcome
  | none => .error (.missing h)

/-- An operand as a vertex that is recorded now reads it. -/
def read (s : Replay) (reader operand : Handle) : Except EvalFailure Value :=
  if operand.index < reader.index then s.current operand else .error (.readsLater reader operand)

/-- The outcome of a vertex that is recorded now. -/
def outcome (b : Bindings) (uniforms : List (Option (ValueType × Value))) (s : Replay) (h : Handle) :
    Vertex → Except EvalFailure Value
  | .op op ty operands => operands.mapM (s.read h) >>= op.apply ty
  | .component source name ty => s.read h source >>= fun v => v.access source name ty
  | .uniform _ value =>
    match uniforms[h.index]? with
    | some (some (_, last)) => .ok last
    | _ => .ok value
  | .attr ty name => b.value ty name
  | .texture _ info => .error (.textureValue info.label)
  | .var _ init => s.read h init

def next (b : Bindings) (uniforms : List (Option (ValueType × Value))) (s : Replay) : Request → Replay
  | .record v => { s with entries := s.entries ++ [⟨v.isVariable, s.outcome b uniforms ⟨s.entries.length⟩ v⟩] }
  | .rebind var expr =>
    let bound := if expr.index < s.entries.length then s.current expr else .error (.boundLater var expr)
    { s with store := fun h => if h = var then some bound else s.store h }
  | .label .. | .setUniform .. => s

/-- The uniforms among the vertices after one more request: a value is accepted if it has the type of the
uniform. -/
def nextUniforms (uniforms : List (Option (ValueType × Value))) : Request → List (Option (ValueType × Value))
  | .record v => uniforms ++ [v.uniform?]
  | .setUniform h value =>
    match uniforms[h.index]? with
    | some (some (ty, _)) => if ty = value.ty then uniforms.set h.index (some (ty, value)) else uniforms
    | _ => uniforms
  | .rebind .. | .label .. => uniforms

/-- The type and last value of each vertex that is a uniform, after a history. -/
def uniformsAfter (history : List Request) : List (Option (ValueType × Value)) :=
  history.foldl nextUniforms []

def ofHistory (b : Bindings) (history : List Request) : Replay :=
  history.foldl (next b (uniformsAfter history)) empty

/-- The uniforms of a graph, as they are now. -/
def uniformsOf (g : Graph) : List (Option (ValueType × Value)) :=
  g.vertices.toList.map Vertex.uniform?

private theorem getElem?_uniformsOf (g : Graph) (h : Handle) :
    (uniformsOf g)[h.index]? = (g.vertex? h).map Vertex.uniform? := by
  unfold uniformsOf Graph.vertex?
  rw [List.getElem?_map, Array.getElem?_toList]

private theorem uniformsOf_setValue (g : Graph) (h : Handle) (ty : ValueType) (value : Value) :
    uniformsOf (g.setValue h ty value) = (uniformsOf g).set h.index (some (ty, value)) := by
  unfold uniformsOf Graph.setValue
  rw [Array.toList_setIfInBounds, List.map_set]
  rfl

private theorem nextUniforms_uniformsOf (g : Graph) (r : Request) :
    nextUniforms (uniformsOf g) r = uniformsOf (r.apply g) := by
  cases r with
  | record v => simp [nextUniforms, uniformsOf, Request.apply, Graph.push]
  | rebind var expr => rfl
  | label h name => rfl
  | setUniform h value =>
    unfold nextUniforms Request.apply Graph.setUniform
    dsimp only
    rw [getElem?_uniformsOf]
    cases hv : g.vertex? h with
    | none => rfl
    | some v =>
      cases v with
      | uniform ty old =>
        dsimp only [Option.map_some, Vertex.uniform?]
        split
        · exact (uniformsOf_setValue g h ty value).symm
        · rfl
      | _ => rfl

private theorem foldl_nextUniforms (g : Graph) (history : List Request) :
    history.foldl nextUniforms (uniformsOf g) = uniformsOf (g.after history) := by
  induction history generalizing g with
  | nil => rfl
  | cons r history ih =>
    rw [List.foldl_cons, nextUniforms_uniformsOf, ih]
    rfl

/-- The last values of the uniforms can be read off the requests. -/
theorem uniformsAfter_eq (history : List Request) :
    uniformsAfter history = uniformsOf (Graph.empty.after history) :=
  foldl_nextUniforms .empty history

/-- What the final graph says of a vertex when it was recorded. -/
def recordedOutcome (g : Graph) (b : Bindings) (h : Handle) : Vertex → Except EvalFailure Value
  | .var _ init => g.readAt b h init
  | _ => g.valueAt b h (g.visibleFrom h)

/-- An eager reader that has read the requests that led to the graph `p` agrees with the final graph `g`. -/
structure Follows (g : Graph) (b : Bindings) (s : Replay) (p : Graph) : Prop where
  length : s.entries.length = p.size
  entry : ∀ {h : Handle} {v : Vertex}, h.index < p.size → g.vertex? h = some v →
    s.entries[h.index]? = some ⟨v.isVariable, recordedOutcome g b h v⟩
  store : ∀ h, s.store h = (g.latestRebind? h p.rebinds.size).map fun found => g.boundAt b found.1 found.2

section Prefix

variable {g p : Graph} {b : Bindings}

namespace Follows

variable {s : Replay}

private theorem current_eq (hs : Follows g b s p) (hg : p.Grows g) {h : Handle} (hh : h.index < p.size) :
    s.current h = g.valueAt b h p.rebinds.size := by
  have hsees := hg.visibleFrom_le hh
  obtain ⟨v, hv⟩ := Graph.exists_vertex? (Nat.lt_of_lt_of_le hh hg.size_le)
  unfold current
  rw [hs.entry hh hv]
  cases v with
  | var ty init =>
    -- the store holds what the latest rebind that is visible to the prefix binds
    simp only [Vertex.isVariable, ↓reduceIte, recordedOutcome]
    rw [Graph.valueAt_var hsees hv, hs.store h]
    cases g.latestRebind? h p.rebinds.size <;> rfl
  | _ => exact Graph.valueAt_congr (Nat.le_refl _) hsees (by rw [hv]; exact nofun)

private theorem read_eq {v : Vertex} (hs : Follows g b s p) (hg : (p.push v).Grows g) (o : Handle) :
    s.read p.next o = g.readAt b p.next o := by
  unfold read Graph.readAt
  split
  · rename_i ho
    rw [hg.visibleFrom_next]
    exact hs.current_eq ((p.grows_push v).trans hg) ho
  · rfl

/-- A uniform counts with the value that it has in the final graph. -/
private theorem outcome_uniform {h : Handle} {ty : ValueType} {last : Value}
    (hv : g.vertex? h = some (.uniform ty last)) (ty' : ValueType) (value : Value) :
    s.outcome b (uniformsOf g) h (.uniform ty' value) = .ok last := by
  unfold outcome
  dsimp only
  rw [getElem?_uniformsOf, hv]
  rfl

private theorem outcome_eq {v w : Vertex} (hs : Follows g b s p) (hg : (p.push v).Grows g)
    (hw : g.vertex? p.next = some w) :
    s.outcome b (uniformsOf g) p.next v = recordedOutcome g b p.next w := by
  have hsees := Nat.le_refl (g.visibleFrom p.next)
  have hread : s.read p.next = g.readAt b p.next := funext (hs.read_eq hg)
  obtain ⟨w', hw', hvw⟩ := hg.vertex (Graph.vertex?_next p v)
  cases Option.some.inj (hw.symm.trans hw')
  cases hvw with
  | same =>
    cases v with
    | op op ty operands =>
      unfold outcome recordedOutcome
      dsimp only
      rw [hread, Graph.valueAt_op hsees hw]
    | component source name ty =>
      unfold outcome recordedOutcome
      dsimp only
      rw [hread, Graph.valueAt_component hsees hw]
    | uniform ty value => exact (outcome_uniform hw ty value).trans (Graph.valueAt_uniform hsees hw).symm
    | attr ty name => exact (Graph.valueAt_attr hsees hw).symm
    | texture kind info => exact (Graph.valueAt_texture hsees hw).symm
    | var ty init => exact hs.read_eq hg init
  -- the uniform was set after it was recorded; both sides count with the last value
  | reset old => exact (outcome_uniform hw _ old).trans (Graph.valueAt_uniform hsees hw).symm

private theorem isVariable_eq {v w : Vertex} (hvw : v.Becomes w) : w.isVariable = v.isVariable := by
  cases hvw <;> rfl

private theorem record_step {v : Vertex} (hs : Follows g b s p) (hg : (p.push v).Grows g) :
    Follows g b (next b (uniformsOf g) s (.record v)) (p.push v) := by
  refine ⟨?_, ?_, hs.store⟩
  · show (s.entries ++ _).length = (p.push v).size
    rw [List.length_append, hs.length, Graph.size_push]
    rfl
  · intro h w hh hw
    show (s.entries ++ _)[h.index]? = _
    rcases Nat.lt_or_ge h.index p.size with hlt | hge
    · rw [List.getElem?_append_left (by rw [hs.length]; exact hlt)]
      exact hs.entry hlt hw
    · -- the vertex that is recorded now
      have hnext : h = p.next := by
        rw [Graph.size_push] at hh
        cases h
        exact congrArg Handle.mk (Nat.le_antisymm (Nat.le_of_lt_succ hh) hge)
      subst hnext
      obtain ⟨w', hw', hvw⟩ := hg.vertex (Graph.vertex?_next p v)
      cases Option.some.inj (hw.symm.trans hw')
      rw [List.getElem?_append_right (by rw [hs.length]; exact hge), hs.length, isVariable_eq hvw,
        ← hs.outcome_eq hg hw]
      show [_][p.size - p.size]? = _
      rw [Nat.sub_self]
      rfl

private theorem rebind_step {var expr : Handle} (hs : Follows g b s p) (hg : (p.rebind var expr).Grows g) :
    Follows g b (next b (uniformsOf g) s (.rebind var expr)) (p.rebind var expr) := by
  have hr : g.rebinds[p.rebinds.size]? = some ⟨var, expr, p.size⟩ :=
    hg.rebind (by rw [Graph.rebinds_rebind, Array.getElem?_push_size])
  have hbound : (if expr.index < s.entries.length then s.current expr else .error (.boundLater var expr)) =
      g.boundAt b p.rebinds.size ⟨var, expr, p.size⟩ := by
    unfold Graph.boundAt
    rw [hs.length]
    split
    · rename_i hexpr
      exact hs.current_eq ((p.grows_rebind var expr).trans hg) hexpr
    · rfl
  refine ⟨hs.length, hs.entry, ?_⟩
  intro h
  rw [Graph.rebinds_rebind, Array.size_push, Graph.latestRebind?_succ hr]
  show (if h = var then some _ else s.store h) = _
  rw [hbound, hs.store h]
  by_cases hvar : h = var
  · rw [if_pos hvar, if_pos hvar.symm]
    rfl
  · rw [if_neg hvar, if_neg (Ne.symm hvar)]

/-- Reading one more request keeps the agreement. -/
private theorem step (hs : Follows g b s p) (r : Request) (hg : (r.apply p).Grows g) :
    Follows g b (next b (uniformsOf g) s r) (r.apply p) := by
  cases r with
  | record v => exact hs.record_step hg
  | rebind var expr => exact hs.rebind_step hg
  | label h name => exact ⟨hs.length, hs.entry, hs.store⟩
  | setUniform h value =>
    unfold Request.apply
    dsimp only
    split
    · -- the reader has counted with the last value from the start
      rename_i p' hset
      obtain ⟨old, _, rfl⟩ := Graph.setUniform_ok hset
      refine ⟨?_, ?_, hs.store⟩ <;> rw [Graph.size_setValue]
      · exact hs.length
      · exact hs.entry
    · exact hs

private theorem foldl (hs : Follows g b s p) (history : List Request) (hg : p.after history = g) :
    Follows g b (history.foldl (next b (uniformsOf g)) s) g := by
  induction history generalizing s p with
  | nil => exact hg ▸ hs
  | cons r history ih =>
    refine ih (hs.step r ?_) hg
    rw [← hg]
    exact (r.apply p).grows_after history

end Follows

end Prefix

private theorem follows_ofHistory (b : Bindings) (history : List Request) :
    Follows (Graph.empty.after history) b (ofHistory b history) (Graph.empty.after history) := by
  unfold ofHistory
  rw [uniformsAfter_eq]
  have hempty : Follows (Graph.empty.after history) b empty .empty :=
    ⟨rfl, fun hh _ => absurd hh (Nat.not_lt_zero _), fun _ => rfl⟩
  exact hempty.foldl history rfl

private theorem eval_after_eq_current (b : Bindings) (history : List Request) (h : Handle) :
    (Graph.empty.after history).eval b h = (ofHistory b history).current h := by
  have hs := follows_ofHistory b history
  generalize Graph.empty.after history = g at *
  rw [Graph.eval_eq_valueAt]
  -- after the whole history, what is current is what all rebinds are visible to
  rcases Nat.lt_or_ge h.index g.size with hlt | hge
  · exact (hs.current_eq (.refl g) hlt).symm
  · rw [Graph.valueAt_none (g.visibleFrom_le h) (Array.getElem?_eq_none hge)]
    unfold current
    rw [List.getElem?_eq_none (by rw [hs.length]; exact hge)]

/-- The evaluation of a recorded graph agrees with the eager reader on every history of requests, for every
handle and all bindings. -/
theorem evaluate_after_eq_current (config : Config) (history : List Request) (b : Bindings) (h : Handle) :
    ((Builder.ofConfig config).after history).graph.evaluate b h =
      ((ofHistory b history).current h).mapError EvalFailure.error := by
  rw [Builder.graph_after]
  exact congrArg (Except.mapError EvalFailure.error) (eval_after_eq_current b history h)

end Replay

end ShaderExpr
