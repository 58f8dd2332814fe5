import ShaderExpr.Proofs.Steady

/-!
# Accessors of sums and products

An operator works on vectors component by component, so it makes no difference whether components are picked from its
result or from its operands (`Value.access_componentwise`).  The right operand is picked with the left one if it is a
vector, and stays if it is one number for all components (`Operand.Narrowed`).

In a session this holds for the nodes that the calls make (`Session.Steady.access_binary`).  An integer division may
fail at a component that is not picked, so there the result has to have a value.
-/

namespace ShaderExpr

variable {n : Nat}

namespace BinaryOp

variable {op : BinaryOp}

private theorem kind_onInts {x y : Int32} {z : Scalar} (hop : op ≠ lessThan) (h : op.onInts x y = .ok z) :
    z.kind = .int := by
  cases op with
  | lessThan => exact absurd rfl hop
  | div =>
    unfold onInts at h
    dsimp only at h
    split at h
    · exact absurd h nofun
    · cases h
      rfl
  | _ =>
    cases h
    rfl

private theorem kind_onUInts {x y : UInt32} {z : Scalar} (hop : op ≠ lessThan) (h : op.onUInts x y = .ok z) :
    z.kind = .uint := by
  cases op with
  | lessThan => exact absurd rfl hop
  | div =>
    unfold onUInts at h
    dsimp only at h
    split at h
    · exact absurd h nofun
    · cases h
      rfl
  | _ =>
    cases h
    rfl

/-- Numbers that are not compared have a result of their own kind. -/
theorem kind_onScalars {x y z : Scalar} (hop : op ≠ lessThan) (h : op.onScalars x y = .ok z) : z.kind = x.kind := by
  unfold onScalars at h
  split at h
  · cases h
    cases op with
    | lessThan => exact absurd rfl hop
    | _ => rfl
  · exact kind_onInts hop h
  · exact kind_onUInts hop h
  · exact absurd h nofun

theorem onPairs_cons_eq_ok {x y : Scalar} {xs ys zs : List Scalar} :
    op.onPairs (x :: xs) (y :: ys) = .ok zs ↔
      ∃ z rest, op.onScalars x y = .ok z ∧ op.onPairs xs ys = .ok rest ∧ zs = z :: rest := by
  rw [onPairs]
  cases op.onScalars x y with
  | error e => exact iff_of_false nofun nofun
  | ok z =>
    cases op.onPairs xs ys with
    | error e => exact iff_of_false nofun nofun
    | ok rest => simp [bind, Except.bind, pure, Except.pure, eq_comm]

theorem getElem?_onPairs {xs ys zs : List Scalar} (h : op.onPairs xs ys = .ok zs) {i : Nat} {x y : Scalar}
    (hx : xs[i]? = some x) (hy : ys[i]? = some y) : ∃ z, op.onScalars x y = .ok z ∧ zs[i]? = some z := by
  induction xs generalizing ys zs i with
  | nil => exact absurd hx nofun
  | cons x' xs ih =>
    cases ys with
    | nil => exact absurd hy nofun
    | cons y' ys =>
      obtain ⟨z, rest, hz, hrest, rfl⟩ := onPairs_cons_eq_ok.1 h
      cases i with
      | zero =>
        cases hx
        cases hy
        exact ⟨z, hz, rfl⟩
      | succ i => exact ih hrest hx hy

/-- Pairs that are picked combine as they do among all pairs. -/
theorem onPairs_map_getElem? {xs ys zs xs' ys' : List Scalar} (h : op.onPairs xs ys = .ok zs) {indices : List Nat}
    (hxs : indices.map (xs[·]?) = xs'.map some) (hys : indices.map (ys[·]?) = ys'.map some) :
    ∃ zs', indices.map (zs[·]?) = zs'.map some ∧ op.onPairs xs' ys' = .ok zs' := by
  induction indices generalizing xs' ys' with
  | nil =>
    cases List.map_eq_nil_iff.1 hxs.symm
    exact ⟨[], rfl, by unfold onPairs; rfl⟩
  | cons i indices ih =>
    obtain ⟨x, xs', rfl, hx, hxs⟩ := List.map_eq_cons_iff.1 hxs.symm
    obtain ⟨y, ys', rfl, hy, hys⟩ := List.map_eq_cons_iff.1 hys.symm
    obtain ⟨z, hz, hzi⟩ := getElem?_onPairs h hx.symm hy.symm
    obtain ⟨zs', hzs, hpairs⟩ := ih hxs.symm hys.symm
    refine ⟨z :: zs', ?_, onPairs_cons_eq_ok.2 ⟨z, zs', hz, hpairs, rfl⟩⟩
    simp only [List.map_cons, hzi, hzs]

theorem kind_of_mem_onPairs {kind : Kind} {xs ys zs : List Scalar} (hop : op ≠ lessThan)
    (hxs : ∀ x ∈ xs, x.kind = kind) (h : op.onPairs xs ys = .ok zs) : ∀ z ∈ zs, z.kind = kind := by
  induction xs generalizing ys zs with
  | nil =>
    unfold onPairs at h
    cases h
    exact List.forall_mem_nil _
  | cons x xs ih =>
    cases ys with
    | nil =>
      unfold onPairs at h
      cases h
      exact List.forall_mem_nil _
    | cons y ys =>
      rw [List.forall_mem_cons] at hxs
      obtain ⟨z, rest, hz, hrest, rfl⟩ := onPairs_cons_eq_ok.1 h
      exact List.forall_mem_cons.2 ⟨(kind_onScalars hop hz).trans hxs.1, ih hxs.2 hrest⟩

end BinaryOp

namespace Value

theorem broadcast_eq_self {count : Nat} {components : List Scalar} (h : components.length = count) :
    broadcast count components = components := by
  unfold broadcast
  split
  · rw [← h]
    rfl
  · rfl

theorem binary_of_not_matrix {op : BinaryOp} {ty : ValueType} {left : Value} (h : left.ty.isMatrix = false)
    (right : Value) : binary op ty left right = componentwise op ty left right := by
  unfold binary
  refine dif_neg fun hproduct => ?_
  have hmultiplies := hproduct.2
  unfold multiplies at hmultiplies
  rw [h] at hmultiplies
  exact absurd hmultiplies Bool.false_ne_true

/-- What an operator on components gives, before it is put together. -/
theorem componentwise_eq_ok {op : BinaryOp} {ty : ValueType} {left right z : Value} :
    componentwise op ty left right = .ok z ↔
      (broadcast left.components.length right.components).length = left.components.length ∧
        ∃ zs, op.onPairs left.components (broadcast left.components.length right.components) = .ok zs ∧
          rebuild ty zs = .ok z := by
  unfold componentwise
  dsimp only
  split
  · rename_i hlength
    cases op.onPairs left.components (broadcast left.components.length right.components) with
    | error e => exact iff_of_false nofun nofun
    | ok zs => exact ⟨fun h => ⟨hlength, zs, rfl, h⟩, fun ⟨_, _, hzs, h⟩ => by cases hzs; exact h⟩
  · rename_i hlength
    exact iff_of_false nofun fun h => hlength h.1

/-- A right operand for the components that an accessor picks: the same ones of a vector, or one number for any. -/
inductive Narrowed (name : String) (ty : ValueType) : Value → Value → Prop where
  | vector {v w : Value} (hty : v.ty = ty)
    (hpicked : (Selector.indices name).map (v.components[·]?) = w.components.map some) : Narrowed name ty v w
  | number {v : Value} (hty : v.ty = ty.scalarType) : Narrowed name ty v v

variable {op : BinaryOp} {name : String} {picked : ValueType} {left right left' right' z : Value}

theorem exists_components_eq {v : Value} (h : v.ty.componentCount = 1) : ∃ c, v.components = [c] :=
  List.length_eq_one_iff.1 (v.length_components.trans h)

/-- The components that a narrowed operand is used for are picked from those that the operand is used for. -/
private theorem Narrowed.map_broadcast (h : Narrowed name left.ty right right')
    (hindex : ∀ i ∈ Selector.indices name, i < left.ty.componentCount) :
    (Selector.indices name).map ((broadcast left.components.length right.components)[·]?) =
      (broadcast (Selector.indices name).length right'.components).map some := by
  cases h with
  | vector hty hpicked =>
    have hlength := length_of_map_eq_map_some hpicked
    have hsame : right.components.length = left.components.length := by
      rw [right.length_components, left.length_components, hty]
    rw [broadcast_eq_self hsame, broadcast_eq_self hlength, hpicked]
  | number hty =>
    obtain ⟨c, hc⟩ : ∃ c, right.components = [c] := by
      refine exists_components_eq ?_
      rw [hty]
      cases left.ty <;> rfl
    rw [hc, left.length_components]
    show _ = (List.replicate _ c).map some
    rw [List.map_replicate, ← List.map_const']
    refine List.map_congr_left fun i hi => ?_
    exact List.getElem?_replicate_of_lt (hindex i hi)

/-- Components are picked from a result, or from the operands before they are combined. -/
theorem access_componentwise (source : Handle) (hop : op ≠ .lessThan)
    (hchecked : left.ty.checkAccess name = .ok left'.ty)
    (hleft : (Selector.indices name).map (left.components[·]?) = left'.components.map some)
    (hright : Narrowed name left.ty right right') (hz : componentwise op left.ty left right = .ok z) :
    z.access source name left'.ty = componentwise op left'.ty left' right' := by
  obtain ⟨_, zs, hpairs, hrebuild⟩ := componentwise_eq_ok.1 hz
  obtain ⟨hty, hcomponents⟩ :=
    components_of_rebuild hrebuild (BinaryOp.kind_of_mem_onPairs hop left.kind_of_mem hpairs)
  have hlength := length_of_map_eq_map_some hleft
  have hothers := hright.map_broadcast (ValueType.indices_of_checkAccess hchecked).2
  rw [← hlength] at hothers
  obtain ⟨zs', hpicked, hpairs'⟩ := BinaryOp.onPairs_map_getElem? hpairs hleft hothers
  rw [← hcomponents] at hpicked
  rw [← hty] at hchecked
  obtain ⟨z', hz', hty', hcomponents'⟩ := exists_access source hchecked
  have hall : z'.components = zs' := map_some_inj (hcomponents'.symm.trans hpicked)
  rw [hz', eq_comm, componentwise_eq_ok]
  refine ⟨?_, zs', hpairs', ?_⟩
  · exact (length_of_map_eq_map_some hothers).trans hlength.symm
  · rw [← hall, ← hty']
    exact z'.rebuild_components

/-- So it is with the operators on a vector, unless they divide integers and fail. -/
theorem access_binary_cases (source : Handle) (hop : op ≠ .lessThan)
    (hrule : ⟨left.ty, .typed right.ty, left.ty⟩ ∈ op.rules) (hchecked : left.ty.checkAccess name = .ok left'.ty)
    (hleft : (Selector.indices name).map (left.components[·]?) = left'.components.map some)
    (hright : Narrowed name left.ty right right') :
    (binary op left.ty left right >>= fun z => z.access source name left'.ty) = binary op left'.ty left' right' ∨
      op.DividesIntegers left.ty.kind ∧ binary op left.ty left right = .error .divisionByZero := by
  have haccesses := ValueType.checkAccess_iff.1 hchecked
  rcases binary_gives hrule with ⟨z, hz, _⟩ | ⟨herror, hdivides⟩
  · refine .inl ?_
    rw [hz]
    rw [binary_of_not_matrix (ValueType.isMatrix_of_isVector haccesses.vector)] at hz
    rw [binary_of_not_matrix haccesses.not_matrix]
    exact access_componentwise source hop hchecked hleft hright hz
  · exact .inr ⟨hdivides, herror⟩

end Value

namespace ValueType

theorem isNumeric_iff {ty : ValueType} : ty.isNumeric = true ↔ ty.kind ≠ .bool := by
  cases ty <;> decide

theorem isScalar_scalarType (ty : ValueType) : ty.scalarType.isScalar = true := by
  cases ty <;> rfl

@[simp]
theorem kind_scalarType (ty : ValueType) : ty.scalarType.kind = ty.kind := by
  cases ty <;> rfl

@[simp]
theorem width_scalarType (ty : ValueType) : ty.scalarType.dim.width = 1 := by
  cases ty <;> rfl

@[simp]
theorem componentCount_scalarType (ty : ValueType) : ty.scalarType.componentCount = 1 := by
  cases ty <;> rfl

@[simp]
theorem isMatrix_scalarType (ty : ValueType) : ty.scalarType.isMatrix = false := by
  cases ty <;> rfl

theorem isScalar_of_isVector {ty : ValueType} (h : ty.isVector = true) : ty.isScalar = false := by
  unfold isVector at h
  simp only [Bool.and_eq_true, Bool.not_eq_true'] at h
  exact h.1

end ValueType

/-- Operators accept on a vector another one of its type, a number of its kind or a literal, and have its type. -/
theorem BinaryOp.Accepts.of_isVector {op : BinaryOp} {ty result : ValueType} {right : OperandType}
    (h : op.Accepts ty right result) (hty : ty.isVector = true) :
    result = ty ∧ op ≠ lessThan ∧ ty.isNumeric = true ∧
      (right = .typed ty ∧ (op = mul ∨ op = add ∨ op = sub) ∨ right = .typed ty.scalarType ∨ right = .literal) := by
  have hscalar := ValueType.isScalar_of_isVector hty
  cases h with
  | same hop hnumeric =>
    refine ⟨rfl, ?_, hnumeric, .inl ⟨rfl, hop⟩⟩
    rintro rfl
    simp at hop
  | scalar hop hnumeric => exact ⟨rfl, hop, hnumeric, .inr (.inl rfl)⟩
  | literal hop hnumeric => exact ⟨rfl, hop, hnumeric, .inr (.inr rfl)⟩
  | column hmatrix _ _ _ => exact absurd (hmatrix.symm.trans (ValueType.isMatrix_of_isVector hty)) nofun
  | comparison _ hty' => exact absurd (hty'.symm.trans hscalar) nofun
  | comparisonWithLiteral _ hty' => exact absurd (hty'.symm.trans hscalar) nofun

/-- A right operand for the components that an accessor picks: a vector of which they have been picked, or else the
operand itself. -/
inductive Operand.Narrowed (name : String) (events : List (Event n)) : Operand n → Operand n → Prop where
  | vector {x p : Node n} (hx : x.ty.isVector = true) (he : ⟨.access x name, .ok (.node p)⟩ ∈ events) :
    Narrowed name events (.node x) (.node p)
  | scalar {x : Node n} (hx : x.ty.isScalar = true) : Narrowed name events (.node x) (.node x)
  | literal (x : Literal) : Narrowed name events (.literal x) (.literal x)

/-! ### Nodes -/

namespace Session

variable {g : Fin n} {s : Session n} {held : List (Reply n)} {events : List (Event n)} {op : BinaryOp} {name : String}
  {x p x' : Node n} {y y' : Operand n}

theorem exists_checkBinary_of_perform (h : (s.perform (.binary op x y)).1 = .ok (.node p)) :
    Operand.AllOf x.graph [y] ∧ p.graph = x.graph ∧ op.Accepts x.ty y.type p.ty ∧
      Operand.AllUnify x.ty.kind [y] := by
  obtain ⟨⟨_, source⟩, hcheck⟩ := exists_of_on_checked (Node.run_binary _ x y op) (Prod.ext h rfl)
  have howner : Operand.AllOf x.graph [y] := by
    refine Operand.checkOwners_eq_ok_iff_allOf.1 (Operand.checkOwners_eq_ok.2 ?_)
    exact List.forall_mem_singleton.2 (Node.checkBinary_eq_ok.1 hcheck).1
  exact ⟨howner, (decides_binary op howner).law_of_node h⟩

/-- What is known of an operator and an accessor that have been accepted on one vector, in the graph `g`: they have
made `p` and `x'`. -/
structure Picking (g : Fin n) (op : BinaryOp) (x p : Node n) (y : Operand n) (name : String) (x' : Node n) : Prop where
  operand : Operand.AllOf g [y]
  result : p.graph = g ∧ p.ty = x.ty
  picked : x'.graph = g
  checked : x.ty.checkAccess name = .ok x'.ty
  arithmetic : op ≠ .lessThan
  numeric : x'.ty.isNumeric = true
  unify : Operand.AllUnify x'.ty.kind [y]
  right : y.type = .typed x.ty ∧ (op = .mul ∨ op = .add ∨ op = .sub) ∨ y.type = .typed x.ty.scalarType ∨
    y.type = .literal

theorem Picking.accesses (h : Picking g op x p y name x') : x.ty.Accesses name x'.ty :=
  ValueType.checkAccess_iff.1 h.checked

/-- A vector that is an operand of a vector has its type. -/
theorem Picking.ty_of_operand (h : Picking g op x p y name x') {w : Node n} (hy : y = .node w)
    (hw : w.ty.isVector = true) : w.ty = x.ty ∧ (op = .mul ∨ op = .add ∨ op = .sub) := by
  subst hy
  rcases h.right with ⟨hty, hop⟩ | hty | hty
  · exact ⟨OperandType.typed.inj hty, hop⟩
  · rw [OperandType.typed.inj hty] at hw
    exact absurd (x.ty.isScalar_scalarType.symm.trans (ValueType.isScalar_of_isVector hw)) nofun
  · exact absurd hty nofun

namespace Steady

theorem binary_of_event (hs : s.Steady g held events) (hp : ⟨.binary op x y, .ok (.node p)⟩ ∈ events) :
    Operand.AllOf x.graph [y] ∧ p.graph = x.graph ∧ op.Accepts x.ty y.type p.ty ∧
      Operand.AllUnify x.ty.kind [y] := by
  obtain ⟨t, ht⟩ := hs.performed hp
  exact exists_checkBinary_of_perform ht

theorem picking (hs : s.Steady g held events) (hx : x.graph = g) (hp : ⟨.binary op x y, .ok (.node p)⟩ ∈ events)
    (hx' : ⟨.access x name, .ok (.node x')⟩ ∈ events) : Picking g op x p y name x' := by
  obtain ⟨hoperand, hgraph, haccepts, hunify⟩ := hs.binary_of_event hp
  obtain ⟨hpicked, hchecked⟩ := hs.checkAccess_of_event hx'
  have haccesses := ValueType.checkAccess_iff.1 hchecked
  obtain ⟨hty, hop, hnumeric, hright⟩ := haccepts.of_isVector haccesses.vector
  refine ⟨hx ▸ hoperand, ⟨hgraph.trans hx, hty⟩, hpicked.trans hx, hchecked, hop, ?_, haccesses.kind ▸ hunify, hright⟩
  rw [ValueType.isNumeric_iff, haccesses.kind]
  exact ValueType.isNumeric_iff.1 hnumeric

section

variable (hs : s.Steady g held events) (h : Picking g op x p y name x') (hy : y.Narrowed name events y')

include hs h hy

/-- Either the same components are picked from a vector of the same type, or the operand stays. -/
private theorem narrowed_cases :
    (∃ w q, y = .node w ∧ y' = .node q ∧ ⟨.access w name, .ok (.node q)⟩ ∈ events ∧ w.graph = g ∧ w.ty = x.ty ∧
      q.ty = x'.ty ∧ (op = .mul ∨ op = .add ∨ op = .sub)) ∨
      y' = y ∧ (y.type = .typed x.ty.scalarType ∨ y.type = .literal) := by
  cases hy with
  | @vector w q hw hq =>
    obtain ⟨hwty, hop⟩ := h.ty_of_operand rfl hw
    have hqty := (hs.checkAccess_of_event hq).2
    rw [hwty, h.checked] at hqty
    exact .inl ⟨w, q, rfl, rfl, hq, h.operand w (List.mem_singleton_self _), hwty, (Except.ok.inj hqty).symm, hop⟩
  | @scalar w hw =>
    refine .inr ⟨rfl, h.right.resolve_left ?_⟩
    rintro ⟨hty, _⟩
    rw [OperandType.typed.inj hty] at hw
    exact absurd (hw.symm.trans (ValueType.isScalar_of_isVector h.accesses.vector)) nofun
  | literal z => exact .inr ⟨rfl, .inr rfl⟩

/-- The operator accepts the picked components. -/
private theorem accepts_picked :
    Operand.AllOf g [y'] ∧ op.Accepts x'.ty y'.type x'.ty ∧ Operand.AllUnify x'.ty.kind [y'] := by
  rcases hs.narrowed_cases h hy with ⟨w, q, rfl, rfl, hq, hwgraph, _, hqty, hop⟩ | ⟨rfl, htype⟩
  · refine ⟨?_, ?_, Operand.allUnify_singleton.2 ⟨_, rfl⟩⟩
    · intro z hz
      cases List.mem_singleton.1 hz
      exact (hs.checkAccess_of_event hq).1.trans hwgraph
    · show op.Accepts x'.ty (.typed q.ty) x'.ty
      rw [hqty]
      exact .same hop h.numeric
  · refine ⟨h.operand, ?_, h.unify⟩
    have hscalar : x.ty.scalarType = x'.ty.scalarType := congrArg Kind.scalarType h.accesses.kind.symm
    rcases htype with htype | htype <;> rw [htype]
    · rw [hscalar]
      exact .scalar h.arithmetic h.numeric
    · exact .literal h.arithmetic h.numeric

/-- Operands fail with the same error, or have values that the operator is defined on. -/
private theorem outcomes_narrowed (hp : ⟨.binary op x y, .ok (.node p)⟩ ∈ events) {b : Bindings}
    {right right' : Except EvalFailure Value} (hright : y.outcome? (s.builder g).graph b x.ty.kind = some right)
    (hright' : y'.outcome? (s.builder g).graph b x'.ty.kind = some right') :
    (∃ e, right = .error e ∧ right' = .error e) ∨
      ∃ w w', right = .ok w ∧ right' = .ok w' ∧ Value.Narrowed name x.ty w w' ∧ op.Accepts x.ty (.typed w.ty) x.ty := by
  have hnumeric : x.ty.isNumeric = true := by
    rw [ValueType.isNumeric_iff, ← h.accesses.kind]
    exact ValueType.isNumeric_iff.1 h.numeric
  rcases hs.narrowed_cases h hy with ⟨w, q, rfl, rfl, hq, hwgraph, hwty, hqty, hop⟩ | ⟨rfl, htype⟩
  · -- the accessor has a value where the vector has one
    cases hright
    cases hright'
    rw [hs.eval_access hwgraph hq b, hqty]
    cases hvalue : (s.builder g).graph.eval b w.handle with
    | error e => exact .inl ⟨e, rfl, rfl⟩
    | ok v =>
      have hty := (hs.ty_of_eval hwgraph (hs.given hq w (List.mem_singleton_self w)) hvalue).trans hwty
      obtain ⟨v', hv', _, hpicked⟩ := Value.exists_access w.handle (hty ▸ h.checked)
      refine .inr ⟨v, v', rfl, hv', .vector hty hpicked, ?_⟩
      rw [hty]
      exact .same hop hnumeric
  · rw [h.accesses.kind, hright] at hright'
    cases hright'
    cases right with
    | error e => exact .inl ⟨e, rfl, rfl⟩
    | ok v =>
      have hty : v.ty = x.ty.scalarType := by
        cases y' with
        | node w =>
          have hheld := hs.given hp w (List.mem_cons_of_mem _ (List.mem_singleton_self w))
          have hwty := htype.resolve_right nofun
          rw [hs.ty_of_eval (h.operand w (List.mem_singleton_self _)) hheld (Option.some.inj hright)]
          exact OperandType.typed.inj hwty
        | literal z =>
          obtain ⟨value, hvalue, heq⟩ := Option.map_eq_some_iff.1 hright
          cases heq
          exact z.ty_of_unify? hvalue
      refine .inr ⟨v, v, rfl, rfl, .number hty, ?_⟩
      rw [hty]
      exact .scalar h.arithmetic hnumeric

/-- An accessor of the result has the type of the picked components, and so has the operator on them. -/
private theorem types_narrowed {q r : Node n} (hq : ⟨.access p name, .ok (.node q)⟩ ∈ events)
    (hr : ⟨.binary op x' y', .ok (.node r)⟩ ∈ events) : q.ty = x'.ty ∧ r.ty = x'.ty := by
  constructor
  · have hqchecked := (hs.checkAccess_of_event hq).2
    rw [h.result.2, h.checked] at hqchecked
    exact (Except.ok.inj hqchecked).symm
  · have hresult := BinaryOp.result?_of_accepts (hs.binary_of_event hr).2.2.1
    rw [BinaryOp.result?_of_accepts (hs.accepts_picked h hy).2.1] at hresult
    exact (Option.some.inj hresult).symm

/-- Both nodes have the same outcome, unless an integer division fails. -/
theorem eval_narrowed (hx : x.graph = g) (hp : ⟨.binary op x y, .ok (.node p)⟩ ∈ events)
    (hx' : ⟨.access x name, .ok (.node x')⟩ ∈ events) {q r : Node n} (hq : ⟨.access p name, .ok (.node q)⟩ ∈ events)
    (hr : ⟨.binary op x' y', .ok (.node r)⟩ ∈ events) (b : Bindings) :
    (s.builder g).graph.eval b q.handle = (s.builder g).graph.eval b r.handle ∨
      op.DividesIntegers x.ty.kind ∧ (s.builder g).graph.eval b q.handle = .error .divisionByZero := by
  obtain ⟨hqty, hrty⟩ := hs.types_narrowed h hy hq hr
  obtain ⟨right, hright, hevalp⟩ := hs.eval_binary hx hp b
  obtain ⟨right', hright', hevalr⟩ := hs.eval_binary h.picked hr b
  rw [hs.eval_access h.result.1 hq b, hevalp, hevalr, hs.eval_access hx hx' b, h.result.2, hqty, hrty]
  cases hvalue : (s.builder g).graph.eval b x.handle with
  | error e => exact .inl rfl
  | ok v =>
    have hvty := hs.ty_of_eval hx (hs.given hx' x (List.mem_singleton_self x)) hvalue
    have hchecked := h.checked
    rw [← hvty] at hchecked
    obtain ⟨v', hv', hv'ty, hpicked⟩ := Value.exists_access x.handle hchecked
    rcases hs.outcomes_narrowed h hy hp hright hright' with ⟨e, rfl, rfl⟩ | ⟨w, w', rfl, rfl, hnarrowed, haccepts⟩
    · -- the vector has a value, so the error is that of the right operand on both sides
      refine .inl ?_
      show Except.error e = v.access x.handle name x'.ty >>= fun _ => Except.error e
      rw [hv']
      rfl
    · rw [← hvty] at hnarrowed haccepts ⊢
      rw [← hv'ty] at hchecked hv' ⊢
      have hrule := BinaryOp.mem_rules_of_check (BinaryOp.check_eq_ok.2 (BinaryOp.result?_of_accepts haccepts))
      refine (Value.access_binary_cases p.handle h.arithmetic hrule hchecked hpicked hnarrowed).imp ?_ ?_
      · intro hz
        show _ = v.access x.handle name v'.ty >>= fun u => Value.binary op v'.ty u w'
        rw [hv']
        exact hz
      · rintro ⟨hdivides, hz⟩
        refine ⟨hdivides, ?_⟩
        show (Value.binary op v.ty v w >>= fun z => z.access p.handle name v'.ty) = _
        rw [hz]
        rfl

end

/-- In a session without assignments, let an operator and an accessor be accepted on a vector.  Then the accessor is
accepted on the result, and the operator on the picked components, whose right operand is picked as well if it is a
vector.  Both have one type, and both are evaluated alike, with the same errors unless integers are divided: then a
component that is not picked can fail.
-/
theorem access_binary (hs : s.Steady g held events) (hx : x.graph = g)
    (hp : ⟨.binary op x y, .ok (.node p)⟩ ∈ events) (hx' : ⟨.access x name, .ok (.node x')⟩ ∈ events) :
    (∃ h, (s.perform (.access p name)).1 = .ok (.node ⟨g, h, x'.ty, false⟩)) ∧
      (∀ w, y = .node w → w.ty.isVector = true →
        ∃ h, (s.perform (.access w name)).1 = .ok (.node ⟨g, h, x'.ty, false⟩)) ∧
      ∀ y', y.Narrowed name events y' →
        (∃ h, (s.perform (.binary op x' y')).1 = .ok (.node ⟨g, h, x'.ty, false⟩)) ∧
        ∀ q r, ⟨.access p name, .ok (.node q)⟩ ∈ events → ⟨.binary op x' y', .ok (.node r)⟩ ∈ events →
          q.ty = r.ty ∧ (op ≠ .div ∨ x.ty.kind = .float → s.Agree q r) ∧
            ∀ b v, s.Evaluates b q v → s.Evaluates b r v := by
  have h := hs.picking hx hp hx'
  have haccess : ∀ w : Node n, w.graph = g → w.ty = x.ty →
      ∃ h, (s.perform (.access w name)).1 = .ok (.node ⟨g, h, x'.ty, false⟩) := by
    intro w hw hwty
    rw [← hw]
    exact ((decides_access w name).accepted x'.ty).2 (hwty ▸ h.accesses)
  refine ⟨haccess p h.result.1 h.result.2, ?_, ?_⟩
  · intro w hy hw
    exact haccess w (h.operand w (List.mem_singleton.2 hy.symm)) (h.ty_of_operand hy hw).1
  · intro y' hy
    constructor
    · obtain ⟨howner, hlaw⟩ := hs.accepts_picked h hy
      rw [← h.picked] at howner ⊢
      exact ((decides_binary op howner).accepted x'.ty).2 hlaw
    · intro q r hq hr
      have hqgraph : q.graph = g := (hs.checkAccess_of_event hq).1.trans h.result.1
      have hrgraph : r.graph = g := (hs.binary_of_event hr).2.1.trans h.picked
      obtain ⟨hqty, hrty⟩ := hs.types_narrowed h hy hq hr
      have heval := hs.eval_narrowed h hy hx hp hx' hq hr
      refine ⟨hqty.trans hrty.symm, ?_, ?_⟩
      · intro hdiv
        refine agree_of_eval fun b => ?_
        rw [hqgraph, hrgraph]
        refine (heval b).resolve_right fun ⟨⟨hop, hkind⟩, _⟩ => ?_
        rcases hdiv with hne | hfloat
        · exact hne hop
        · rw [hfloat] at hkind
          exact hkind.elim nofun nofun
      · intro b v hv
        rw [evaluates_iff, hqgraph] at hv
        rw [evaluates_iff, hrgraph]
        rcases heval b with heq | ⟨_, herror⟩
        · exact heq.symm.trans hv
        · exact absurd (herror.symm.trans hv) nofun

/-- The square of an attribute has the squares of its components. -/
theorem access_binary_attr :
    ∃ (s : Session 1) (held : List (Reply 1)) (events : List (Event 1)) (x p y q r : Node 1),
      s.Steady 0 held events ∧ x.ty = .vec2 ∧ ⟨.binary .mul x (.node x), .ok (.node p)⟩ ∈ events ∧
        ⟨.access x "y", .ok (.node y)⟩ ∈ events ∧ ⟨.access p "y", .ok (.node q)⟩ ∈ events ∧
        ⟨.binary .mul y (.node y), .ok (.node r)⟩ ∈ events ∧ q.ty = r.ty ∧ s.Agree q r := by
  have hstart : (ofConfigs #v[Config.standard]).Steady (0 : Fin 1) [] [] := .start (.start _)
  obtain ⟨x, hx, hattr⟩ := hstart.attr .vec2 "uv"
  have hself : ∀ z : Node 1, Operand.AllOf z.graph [.node z] := fun z w hw => by cases List.mem_singleton.1 hw; rfl
  have hsquares : ∀ z : Node 1, z.ty.isNumeric = true →
      BinaryOp.Accepts .mul z.ty (.typed z.ty) z.ty ∧ Operand.AllUnify z.ty.kind [.node z] :=
    fun z hz => ⟨.same (.inl rfl) hz, Operand.allUnify_singleton.2 ⟨_, rfl⟩⟩
  have hpicks : ∀ z : Node 1, z.ty = .vec2 → z.ty.Accesses "y" .float :=
    fun z hz => ValueType.checkAccess_iff.1 (by rw [hz]; decide)
  obtain ⟨p, hp, hsquare⟩ := hattr.decided (.of_nodes rfl (by simp [Call.nodes, Operand.nodes]) rfl rfl) rfl
    (decides_binary .mul (hself x)) (hsquares x (by rw [hx]; rfl))
  obtain ⟨y, hy, hpick⟩ := hsquare.decided (.of_nodes rfl (by simp [Call.nodes]) rfl rfl) rfl
    (decides_access x "y") (hpicks x hx)
  obtain ⟨q, _, hpicked⟩ := hpick.decided (.of_nodes rfl (by simp [Call.nodes]) rfl rfl) rfl
    (decides_access p "y") (hpicks p (hp.trans hx))
  obtain ⟨r, _, hlast⟩ := hpicked.decided (.of_nodes rfl (by simp [Call.nodes, Operand.nodes]) rfl rfl) rfl
    (decides_binary .mul (hself y)) (hsquares y (by rw [hy]; rfl))
  obtain ⟨t, held, events, hs, hpe, hye, hqe, hre⟩ :
      ∃ (t : Session 1) (held : List (Reply 1)) (events : List (Event 1)), t.Steady 0 held events ∧
        ⟨.binary .mul x (.node x), .ok (.node p)⟩ ∈ events ∧ ⟨.access x "y", .ok (.node y)⟩ ∈ events ∧
          ⟨.access p "y", .ok (.node q)⟩ ∈ events ∧ ⟨.binary .mul y (.node y), .ok (.node r)⟩ ∈ events :=
    ⟨_, _, _, hlast, by simp, by simp, by simp, by simp⟩
  have hnarrowed : (Operand.node x).Narrowed "y" events (.node y) := .vector (by rw [hx]; rfl) hye
  obtain ⟨hty, hagree, _⟩ :=
    ((hs.access_binary (Subsingleton.elim _ _) hpe hye).2.2 _ hnarrowed).2 q r hqe hre
  exact ⟨t, held, events, x, p, y, q, r, hs, hx, hpe, hye, hqe, hre, hty, hagree (.inl nofun)⟩

end Steady

end Session

end ShaderExpr
