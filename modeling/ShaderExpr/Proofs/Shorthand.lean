import ShaderExpr.Proofs.Commuting
import ShaderExpr.Proofs.Conversions

/-!
# Shorthand for operations

Some operations are shorthand for others.  An operator with one number for all components of a vector stands for the
operator with a vector of that number (`Session.Steady.agree_splat`); a division of a vector by a number, for the
divisions of its components, put together again (`Session.Steady.agree_quotients`); and one minus a number, for a
subtraction from a constant (`Session.Steady.agree_oneMinus`).  Both forms are evaluated alike, with the same errors.
-/

namespace ShaderExpr

variable {n : Nat}

section

variable {ε α β : Type} {f : α → Except ε β} {xs : List α}

theorem mapM_eq_error {e : ε} (hne : xs ≠ []) (h : ∀ x ∈ xs, f x = .error e) : xs.mapM f = .error e := by
  cases xs with
  | nil => exact absurd rfl hne
  | cons x xs =>
    rw [List.mapM_cons, h x List.mem_cons_self]
    rfl

theorem mapM_replicate {x : α} {y : β} (h : f x = .ok y) (k : Nat) :
    (List.replicate k x).mapM f = .ok (List.replicate k y) := by
  induction k with
  | zero => rfl
  | succ k ih =>
    rw [List.replicate_succ, List.mapM_cons, h, ih]
    rfl

theorem exists_mapM_eq_ok : (∃ ys, xs.mapM f = .ok ys) ↔ ∀ x ∈ xs, ∃ y, f x = .ok y := by
  constructor
  · rintro ⟨ys, h⟩ x hx
    have hflip : List.Forall₂ (fun y x => f x = .ok y) ys xs := (mapM_eq_ok.1 h).flip
    obtain ⟨y, _, hy⟩ := exists_of_mem_forall₂ hflip hx
    exact ⟨y, hy⟩
  · intro h
    induction xs with
    | nil => exact ⟨[], rfl⟩
    | cons x xs ih =>
      obtain ⟨⟨y, hy⟩, hrest⟩ := List.forall_mem_cons.1 h
      obtain ⟨ys, hys⟩ := ih hrest
      refine ⟨y :: ys, ?_⟩
      rw [List.mapM_cons, hy, hys]
      rfl

end

/-- The number one of a kind; for booleans, `true`. -/
def Scalar.one : Kind → Scalar
  | .bool => .bool true
  | .int => .int 1
  | .uint => .uint 1
  | .float => .float 1.0

namespace Scalar

theorem kind_one (k : Kind) : (one k).kind = k := by
  cases k <;> rfl

/-- The integer one converts to the number one of every kind. -/
theorem convert_int_one (k : Kind) : (int 1).convert k = one k := by
  cases k <;> decide +kernel

end Scalar

namespace Value

variable {op : BinaryOp} {ty : ValueType} {left right : Value} {c : Scalar}

theorem componentwise_eq {others : List Scalar} (h : broadcast left.components.length right.components = others)
    (hlength : others.length = left.components.length) :
    componentwise op ty left right = op.onPairs left.components others >>= rebuild ty := by
  unfold componentwise
  dsimp only
  rw [h, if_pos hlength]

theorem ty_ofScalar_one (h : ty.isScalar = true) : (ofScalar (.one ty.kind)).ty = ty := by
  have hscalarType : (Scalar.one ty.kind).kind.scalarType = ty := by
    rw [Scalar.kind_one]
    exact ValueType.scalarType_eq_self.2 h
  exact hscalarType

/-- The integer one is rebuilt as the number one of a scalar type. -/
theorem rebuild_int_one (h : ty.isScalar = true) : rebuild ty [.int 1] = .ok (ofScalar (.one ty.kind)) := by
  have hrebuild := (ofScalar (.one ty.kind)).rebuild_components
  rw [ty_ofScalar_one h] at hrebuild
  rw [← rebuild_map_convert, ← hrebuild, List.map_singleton, Scalar.convert_int_one]
  rfl

/-- A number that is used for all components. -/
theorem componentwise_number (h : right.components = [c]) :
    componentwise op ty left right =
      op.onPairs left.components (List.replicate left.components.length c) >>= rebuild ty := by
  refine componentwise_eq ?_ (by simp)
  rw [h]
  rfl

/-- A vector of equal numbers is used as the number is. -/
theorem componentwise_splat {splat : Value} (h : right.components = [c])
    (hsplat : splat.components = List.replicate left.components.length c) :
    componentwise op ty left splat = componentwise op ty left right := by
  rw [componentwise_number h, componentwise_eq (broadcast_eq_self (by simp [hsplat])) (by simp [hsplat]), hsplat]

/-- What operators give for single components is together what they give for all of them. -/
theorem onPairs_eq_mapM {α : Type} {f : α → Except EvalFailure Value} {xs : List Scalar} {quotients : List α}
    (h : List.Forall₂ (fun x q => f q = (op.onScalars x c).map ofScalar) xs quotients) :
    op.onPairs xs (List.replicate xs.length c) = (quotients.mapM f).map (List.flatMap components) := by
  induction h with
  | nil =>
    unfold BinaryOp.onPairs
    rfl
  | @cons x q xs quotients hfirst _ ih =>
    rw [List.length_cons, List.replicate_succ, BinaryOp.onPairs, ih, List.mapM_cons, hfirst]
    cases op.onScalars x c with
    | error failure => rfl
    | ok z => cases quotients.mapM f <;> rfl

/-- An operator on two numbers. -/
theorem binary_numbers {a : Scalar} (hop : op ≠ .lessThan) (hty : left.ty = a.kind.scalarType)
    (hleft : left.components = [a]) (hright : right.components = [c]) :
    binary op left.ty left right = (op.onScalars a c).map ofScalar := by
  have hmatrix : left.ty.isMatrix = false := by
    rw [hty]
    cases a.kind <;> rfl
  rw [binary_of_not_matrix hmatrix, componentwise_number hright, hleft]
  show op.onPairs [a] [c] >>= _ = _
  rw [BinaryOp.onPairs]
  cases hz : op.onScalars a c with
  | error failure => rfl
  | ok z =>
    have hzty : (ofScalar z).ty = left.ty := by
      rw [hty, ← BinaryOp.kind_onScalars hop hz]
      rfl
    show rebuild left.ty [z] = .ok (ofScalar z)
    rw [← hzty]
    exact rebuild_components (ofScalar z)

end Value

theorem ValueType.isNumeric_of_isVector {ty : ValueType} (h : ty.isVector = true) : ty.isNumeric = true := by
  cases ty <;> first | rfl | exact absurd h Bool.false_ne_true

theorem ValueType.isMatrix_of_isScalar {ty : ValueType} (h : ty.isScalar = true) : ty.isMatrix = false := by
  cases ty <;> first | rfl | exact absurd h Bool.false_ne_true

theorem ValueType.eq_scalarType {ty picked : ValueType} (hmatrix : picked.isMatrix = false)
    (hkind : picked.kind = ty.kind) (hwidth : picked.dim.width = 1) : picked = ty.scalarType := by
  refine eq_of_kind_of_width hmatrix ty.isMatrix_scalarType ?_ ?_
  · rw [hkind, kind_scalarType]
  · rw [hwidth, width_scalarType]

/-- Every component of a vector has an accessor that picks it alone. -/
theorem ValueType.exists_accesses {ty : ValueType} (h : ty.isVector = true) {i : Nat} (hi : i < ty.dim.width) :
    ∃ name, Selector.indices name = [i] ∧ ty.Accesses name ty.scalarType := by
  have hall : ∀ i < 4, ∃ name ∈ ["x", "y", "z", "w"], Selector.indices name = [i] ∧
      ∀ ty ∈ all, ty.isVector = true → i < ty.dim.width → accessorResult? ty name = some ty.scalarType := by
    decide +kernel
  obtain ⟨name, _, hindices, haccesses⟩ := hall i (hi.trans_le ty.width_le)
  exact ⟨name, hindices, accessorResult?_eq_some_iff.1 (haccesses ty ty.mem_all h hi)⟩

namespace Session

variable {g : Fin n} {s : Session n} {held : List (Reply n)} {events : List (Event n)} {op : BinaryOp}
  {x y p q r c : Node n}

/-- A vector and a number of its kind, in one graph. -/
structure Scales (g : Fin n) (x y : Node n) : Prop where
  left : x.graph = g
  right : y.graph = g
  vector : x.ty.isVector = true
  number : y.ty = x.ty.scalarType

/-- The division of one component of a vector by a number. -/
def DividesAt (events : List (Event n)) (x y : Node n) (i : Nat) (q : Node n) : Prop :=
  ∃ name p, Selector.indices name = [i] ∧ ⟨.access x name, .ok (.node p)⟩ ∈ events ∧
    ⟨.binary .div p (.node y), .ok (.node q)⟩ ∈ events

namespace Scales

theorem numeric (h : Scales g x y) : x.ty.isNumeric = true :=
  ValueType.isNumeric_of_isVector h.vector

theorem not_matrix (h : Scales g x y) : x.ty.isMatrix = false :=
  ValueType.isMatrix_of_isVector h.vector

theorem makes (h : Scales g x y) (hop : op ≠ .lessThan) : s.Makes (.binary op x (.node y)) g x.ty := by
  refine makes_binary h.left h.right ?_
  rw [h.number]
  exact .scalar hop h.numeric

/-- A vector is put together from copies of the number. -/
theorem makes_splat (h : Scales g x y) :
    s.Makes (.construct g x.ty (List.replicate x.ty.dim.width (.node y))) g x.ty := by
  rw [← List.map_replicate]
  refine s.makes_construct_nodes ?_ ⟨h.vector, ?_, ?_⟩
  · intro z hz
    rw [List.eq_of_mem_replicate hz]
    exact h.right
  · refine List.forall_mem_map.2 fun z hz => ?_
    rw [List.eq_of_mem_replicate hz]
    show y.ty.isMatrix = false ∧ y.ty.kind = x.ty.kind
    rw [h.number]
    exact ⟨x.ty.isMatrix_scalarType, x.ty.kind_scalarType⟩
  · rw [List.map_map, List.map_replicate, List.sum_replicate, smul_eq_mul]
    show x.ty.dim.width * y.ty.dim.width = _
    rw [h.number, ValueType.width_scalarType, mul_one]

end Scales

namespace Steady

private theorem exists_number (hs : s.Steady g held events) (h : Scales g x y)
    (hp : ⟨.binary op x (.node y), .ok (.node p)⟩ ∈ events) {b : Bindings} {w : Value}
    (hw : (s.builder g).graph.eval b y.handle = .ok w) : ∃ a, w.components = [a] ∧ a.kind = x.ty.kind := by
  have hheld := hs.given hp y (List.mem_cons_of_mem _ (List.mem_singleton_self y))
  have hwty : w.ty = x.ty.scalarType := (hs.ty_of_eval h.right hheld hw).trans h.number
  obtain ⟨a, ha⟩ : ∃ a, w.components = [a] := by
    refine Value.exists_components_eq ?_
    rw [hwty, ValueType.componentCount_scalarType]
  refine ⟨a, ha, ?_⟩
  rw [w.kind_of_mem a (by simp [ha]), hwty, ValueType.kind_scalarType]

private theorem eval_splat (hs : s.Steady g held events)
    (hq : ⟨.construct g x.ty (List.replicate x.ty.dim.width (.node y)), .ok (.node q)⟩ ∈ events) (b : Bindings) :
    (s.builder g).graph.eval b q.handle = (s.builder g).graph.eval b y.handle >>= fun w =>
      Value.rebuild x.ty ((List.replicate x.ty.dim.width w).flatMap Value.components) := by
  rw [← List.map_replicate] at hq
  rw [hs.eval_construct_nodes hq b]
  cases hw : (s.builder g).graph.eval b y.handle with
  | error failure =>
    rw [mapM_eq_error]
    · rfl
    · exact List.ne_nil_of_length_pos (by simpa using x.ty.dim.width_pos)
    · intro z hz
      rw [List.eq_of_mem_replicate hz, hw]
  | ok w =>
    rw [mapM_replicate (f := fun z : Node n => (s.builder g).graph.eval b z.handle) hw]
    rfl

/-- An operator with a number is evaluated as the operator with a vector of that number. -/
theorem agree_splat (hs : s.Steady g held events) (h : Scales g x y) (hop : op ≠ .lessThan)
    (hp : ⟨.binary op x (.node y), .ok (.node p)⟩ ∈ events)
    (hq : ⟨.construct g x.ty (List.replicate x.ty.dim.width (.node y)), .ok (.node q)⟩ ∈ events)
    (hr : ⟨.binary op x (.node q), .ok (.node r)⟩ ∈ events) : s.Agree p r := by
  obtain ⟨_, hpgraph, hpaccepts, _⟩ := hs.binary_of_event hp
  obtain ⟨_, hrgraph, hraccepts, _⟩ := hs.binary_of_event hr
  refine agree_of_eval fun b => ?_
  rw [hpgraph, hrgraph, h.left, hs.eval_binary_node h.left hp b, hs.eval_binary_node h.left hr b, hs.eval_splat hq b,
    hpaccepts.result_eq hop h.not_matrix, hraccepts.result_eq hop h.not_matrix]
  cases hv : (s.builder g).graph.eval b x.handle with
  | error failure => rfl
  | ok v =>
    cases hw : (s.builder g).graph.eval b y.handle with
    | error failure => rfl
    | ok w =>
      obtain ⟨a, ha, hkind⟩ := hs.exists_number h hp hw
      have hvty := hs.ty_of_eval h.left (hs.given hp x List.mem_cons_self) hv
      have hcount : x.ty.componentCount = x.ty.dim.width := ValueType.componentCount_eq_width h.not_matrix
      have hflat : (List.replicate x.ty.dim.width w).flatMap Value.components =
          List.replicate x.ty.componentCount a := by
        simp [List.flatMap_replicate, ha, hcount]
      obtain ⟨splat, hsplat, _, hcomponents⟩ := Value.exists_rebuild x.ty (List.replicate x.ty.componentCount a)
        (by simp) fun z hz => (List.eq_of_mem_replicate hz).symm ▸ hkind
      have hmatrix : v.ty.isMatrix = false := hvty ▸ h.not_matrix
      have hsame : splat.components = List.replicate v.components.length a := by
        rw [hcomponents, v.length_components, hvty]
      show Value.binary op x.ty v w =
        Value.rebuild x.ty ((List.replicate x.ty.dim.width w).flatMap Value.components) >>= Value.binary op x.ty v
      rw [hflat, hsplat]
      show Value.binary op x.ty v w = Value.binary op x.ty v splat
      rw [Value.binary_of_not_matrix hmatrix, Value.binary_of_not_matrix hmatrix]
      exact (Value.componentwise_splat ha hsame).symm

/-! ### Quotients -/

section

variable {quotients : List (Node n)} {b : Bindings} {v : Value} {i : Nat}

private theorem picked_number (hs : s.Steady g held events) (h : Scales g x y) {name : String}
    (hname : Selector.indices name = [i]) (hp : ⟨.access x name, .ok (.node p)⟩ ∈ events) :
    p.graph = g ∧ p.ty = x.ty.scalarType := by
  obtain ⟨hgraph, hchecked⟩ := hs.checkAccess_of_event hp
  have haccesses := ValueType.checkAccess_iff.1 hchecked
  have hwidth := ValueType.length_indices hchecked
  rw [hname] at hwidth
  exact ⟨hgraph.trans h.left, ValueType.eq_scalarType haccesses.not_matrix haccesses.kind hwidth.symm⟩

private theorem quotient_number (hs : s.Steady g held events) (h : Scales g x y) (hq : DividesAt events x y i q) :
    q.graph = g ∧ q.ty = x.ty.scalarType ∧ ∃ r ∈ held, q ∈ r.nodes := by
  obtain ⟨name, p, hname, hp, hq⟩ := hq
  obtain ⟨hpgraph, hpty⟩ := hs.picked_number h hname hp
  obtain ⟨_, hqgraph, haccepts, _⟩ := hs.binary_of_event hq
  refine ⟨hqgraph.trans hpgraph, ?_, _, hs.replied hq, List.mem_singleton_self q⟩
  rw [← hpty]
  refine haccepts.result_eq nofun ?_
  rw [hpty, ValueType.isMatrix_scalarType]

/-- A quotient divides the component of what the vector is evaluated to. -/
private theorem eval_quotient (hs : s.Steady g held events) (h : Scales g x y) (hq : DividesAt events x y i q)
    (hv : (s.builder g).graph.eval b x.handle = .ok v) :
    ∃ a u, v.components[i]? = some a ∧ u.components = [a] ∧ u.ty = a.kind.scalarType ∧
      (s.builder g).graph.eval b q.handle =
        (s.builder g).graph.eval b y.handle >>= fun w => Value.binary .div u.ty u w := by
  have hqty := (hs.quotient_number h hq).2.1
  obtain ⟨name, p, hname, hp, hq⟩ := hq
  obtain ⟨hpgraph, hpty⟩ := hs.picked_number h hname hp
  have hchecked := (hs.checkAccess_of_event hp).2
  rw [← hs.ty_of_eval h.left (hs.given hp x (List.mem_singleton_self x)) hv] at hchecked
  obtain ⟨u, hu, huty, hpicked⟩ := Value.exists_access x.handle hchecked
  rw [hname] at hpicked
  obtain ⟨a, hcomponents⟩ := List.length_eq_one_iff.1 (length_of_map_eq_map_some hpicked)
  refine ⟨a, u, by simpa [hcomponents] using hpicked, hcomponents, ?_, ?_⟩
  · rw [u.kind_of_mem a (by simp [hcomponents]), huty, hpty, ValueType.kind_scalarType]
    rfl
  · rw [hs.eval_binary_node hpgraph hq b, hs.eval_access h.left hp b, hv, hqty, ← hpty, huty]
    show (v.access x.handle name p.ty >>= _) = _
    rw [hu]
    rfl

/-- A vector that is divided has the quotients of its components. -/
private theorem eval_quotients (hs : s.Steady g held events) (h : Scales g x y)
    (hquotients : List.Forall₂ (DividesAt events x y) (List.range x.ty.dim.width) quotients)
    (hp : ⟨.binary .div x (.node y), .ok (.node p)⟩ ∈ events) (b : Bindings) :
    (s.builder g).graph.eval b p.handle =
      (quotients.mapM fun q => (s.builder g).graph.eval b q.handle) >>= fun values =>
        Value.rebuild x.ty (values.flatMap Value.components) := by
  have hne : quotients ≠ [] := by
    refine List.ne_nil_of_length_pos ?_
    rw [← hquotients.length_eq, List.length_range]
    exact x.ty.dim.width_pos
  rw [hs.eval_binary_node h.left hp b, (hs.binary_of_event hp).2.2.1.result_eq nofun h.not_matrix]
  cases hv : (s.builder g).graph.eval b x.handle with
  | error failure =>
    rw [mapM_eq_error hne]
    · rfl
    · intro q hq
      obtain ⟨i, _, name, p, hname, hp, hq⟩ := exists_of_mem_forall₂ hquotients hq
      rw [hs.eval_binary_node (hs.picked_number h hname hp).1 hq b, hs.eval_access h.left hp b, hv]
      rfl
  | ok v =>
    cases hw : (s.builder g).graph.eval b y.handle with
    | error failure =>
      rw [mapM_eq_error hne]
      · rfl
      · intro q hq
        obtain ⟨i, _, hq⟩ := exists_of_mem_forall₂ hquotients hq
        obtain ⟨_, _, _, _, _, heval⟩ := hs.eval_quotient h hq hv
        rw [heval, hw]
        rfl
    | ok w =>
      obtain ⟨c, hc, _⟩ := hs.exists_number h hp hw
      have hvty := hs.ty_of_eval h.left (hs.given hp x List.mem_cons_self) hv
      have hpairs : List.Forall₂ (fun a q => (s.builder g).graph.eval b q.handle =
          (BinaryOp.div.onScalars a c).map Value.ofScalar) v.components quotients := by
        have hindices := mapM_eq_some.1 (mapM_eq_some_iff_map.2 (map_getElem?_range v.components))
        rw [v.length_components, hvty, ValueType.componentCount_eq_width h.not_matrix] at hindices
        refine forall₂_trans ?_ hindices.flip hquotients
        rintro a i q ha hq
        obtain ⟨a', u, ha', hu, huty, heval⟩ := hs.eval_quotient h hq hv
        cases Option.some.inj (ha.symm.trans ha')
        rw [heval, hw]
        show Value.binary .div u.ty u w = _
        exact Value.binary_numbers nofun huty hu hc
      show Value.binary .div x.ty v w = _
      rw [Value.binary_of_not_matrix (hvty ▸ h.not_matrix), Value.componentwise_number hc, Value.onPairs_eq_mapM hpairs]
      cases quotients.mapM fun q => (s.builder g).graph.eval b q.handle <;> rfl

/-- The quotients can be put together where all of them have values. -/
private theorem exists_rebuild_quotients (hs : s.Steady g held events) (h : Scales g x y)
    (hquotients : List.Forall₂ (DividesAt events x y) (List.range x.ty.dim.width) quotients) {values : List Value}
    (hvalues : (quotients.mapM fun q => (s.builder g).graph.eval b q.handle) = .ok values) :
    ∃ z, Value.rebuild x.ty (values.flatMap Value.components) = .ok z := by
  have hevals := mapM_eq_ok.1 hvalues
  have hsingle : ∀ u ∈ values, u.components.length = 1 := by
    intro u hu
    obtain ⟨q, hq, heval⟩ := exists_of_mem_forall₂ hevals hu
    obtain ⟨i, _, hq⟩ := exists_of_mem_forall₂ hquotients hq
    obtain ⟨hgraph, hty, hheld⟩ := hs.quotient_number h hq
    rw [u.length_components, hs.ty_of_eval hgraph hheld heval, hty, ValueType.componentCount_scalarType]
  have hlength : (values.flatMap Value.components).length = x.ty.componentCount := by
    rw [List.length_flatMap, List.map_congr_left hsingle, List.map_const', List.sum_replicate, smul_eq_mul, mul_one,
      ← hevals.length_eq, ← hquotients.length_eq, List.length_range, ValueType.componentCount_eq_width h.not_matrix]
  obtain ⟨z, hz, _⟩ := Value.rebuild_ok hlength
  exact ⟨z, hz⟩

/-- A division is evaluated as its quotients put together. -/
theorem agree_quotients (hs : s.Steady g held events) (h : Scales g x y)
    (hquotients : List.Forall₂ (DividesAt events x y) (List.range x.ty.dim.width) quotients)
    (hp : ⟨.binary .div x (.node y), .ok (.node p)⟩ ∈ events)
    (hc : ⟨.construct g x.ty (quotients.map .node), .ok (.node c)⟩ ∈ events) : s.Agree p c := by
  refine agree_of_eval fun b => ?_
  rw [(hs.binary_of_event hp).2.1, h.left, (hs.construct_of_event hc).1, hs.eval_quotients h hquotients hp b,
    hs.eval_construct_nodes hc b]

/-- It has a value exactly where all quotients have values. -/
theorem evaluates_quotients (hs : s.Steady g held events) (h : Scales g x y)
    (hquotients : List.Forall₂ (DividesAt events x y) (List.range x.ty.dim.width) quotients)
    (hp : ⟨.binary .div x (.node y), .ok (.node p)⟩ ∈ events) :
    (∃ z, s.Evaluates b p z) ↔ ∀ q ∈ quotients, ∃ u, s.Evaluates b q u := by
  have hq : ∀ q ∈ quotients, (∃ u, s.Evaluates b q u) ↔ ∃ u, (s.builder g).graph.eval b q.handle = .ok u := by
    intro q hq
    obtain ⟨i, _, hq⟩ := exists_of_mem_forall₂ hquotients hq
    simp only [evaluates_iff, (hs.quotient_number h hq).1]
  rw [forall₂_congr hq, ← exists_mapM_eq_ok]
  simp only [evaluates_iff, (hs.binary_of_event hp).2.1, h.left, hs.eval_quotients h hquotients hp b]
  constructor
  · rintro ⟨z, hz⟩
    obtain ⟨values, hvalues, _⟩ := exists_of_bind_ok hz
    exact ⟨values, hvalues⟩
  · rintro ⟨values, hvalues⟩
    rw [hvalues]
    exact hs.exists_rebuild_quotients h hquotients hvalues

theorem makes_quotients (hs : s.Steady g held events) (h : Scales g x y)
    (hquotients : List.Forall₂ (DividesAt events x y) (List.range x.ty.dim.width) quotients) :
    s.Makes (.construct g x.ty (quotients.map .node)) g x.ty := by
  have hnumber : ∀ q ∈ quotients, q.graph = g ∧ q.ty = x.ty.scalarType := by
    intro q hq
    obtain ⟨i, _, hq⟩ := exists_of_mem_forall₂ hquotients hq
    exact ⟨(hs.quotient_number h hq).1, (hs.quotient_number h hq).2.1⟩
  refine s.makes_construct_nodes (fun q hq => (hnumber q hq).1) ⟨h.vector, ?_, ?_⟩
  · refine List.forall_mem_map.2 fun q hq => ?_
    show q.ty.isMatrix = false ∧ q.ty.kind = x.ty.kind
    rw [(hnumber q hq).2]
    exact ⟨x.ty.isMatrix_scalarType, x.ty.kind_scalarType⟩
  · have hwidth : ∀ q ∈ quotients, q.ty.dim.width = 1 := by
      intro q hq
      rw [(hnumber q hq).2, ValueType.width_scalarType]
    rw [List.map_map]
    show (quotients.map fun q => q.ty.dim.width).sum = _
    rw [List.map_congr_left hwidth, List.map_const', List.sum_replicate, smul_eq_mul, mul_one, ← hquotients.length_eq,
      List.length_range]

end

theorem makes_quotient (h : Scales g x y) (hpgraph : p.graph = g) (hpty : p.ty = x.ty.scalarType) :
    s.Makes (.binary .div p (.node y)) g x.ty.scalarType := by
  rw [← hpty]
  refine makes_binary hpgraph h.right ?_
  have hkind : p.ty.kind = x.ty.kind := by rw [hpty, ValueType.kind_scalarType]
  have hnumeric : p.ty.isNumeric = true :=
    ValueType.isNumeric_iff.2 (hkind ▸ ValueType.isNumeric_iff.1 h.numeric)
  have hnumber : y.ty = p.ty.scalarType := h.number.trans (congrArg Kind.scalarType hkind.symm)
  rw [hnumber]
  exact .scalar nofun hnumeric

/-! ### One minus -/

theorem oneMinus_of_event (hs : s.Steady g held events) (hp : ⟨.oneMinus x, .ok (.node p)⟩ ∈ events) :
    p.graph = x.graph ∧ x.ty.isScalar = true ∧ p.ty = x.ty := by
  obtain ⟨t, ht⟩ := hs.performed hp
  obtain ⟨hgraph, _, hscalar, hty⟩ := (decides_oneMinus x).law_of_node ht
  exact ⟨hgraph, hscalar, hty⟩

theorem eval_oneMinus_eq (hs : s.Steady g held events) (hx : x.graph = g)
    (hp : ⟨.oneMinus x, .ok (.node p)⟩ ∈ events) (b : Bindings) :
    (s.builder g).graph.eval b p.handle = (s.builder g).graph.eval b x.handle >>= fun v =>
      Value.componentwise .sub x.ty (.ofScalar (.one x.ty.kind)) v := by
  obtain ⟨_, hscalar, hpty⟩ := hs.oneMinus_of_event hp
  rw [hs.eval_oneMinus hx hp b, hpty]
  refine congrArg _ (funext fun v => ?_)
  show (Value.rebuild x.ty [.int 1] >>= fun one => Value.componentwise .sub x.ty one v) = _
  rw [Value.rebuild_int_one hscalar]
  rfl

/-- One minus a number is the difference of the constant one and the number. -/
theorem agree_oneMinus (hs : s.Steady g held events) (hx : x.graph = g)
    (hc : ⟨.constant g (.ofScalar (.one x.ty.kind)), .ok (.node c)⟩ ∈ events)
    (hp : ⟨.oneMinus x, .ok (.node p)⟩ ∈ events) (hq : ⟨.binary .sub c (.node x), .ok (.node q)⟩ ∈ events) :
    s.Agree p q := by
  obtain ⟨hpgraph, hscalar, _⟩ := hs.oneMinus_of_event hp
  obtain ⟨hcgraph, hcty, _⟩ := hs.constant_of_event hc
  rw [Value.ty_ofScalar_one hscalar] at hcty
  have hmatrix : x.ty.isMatrix = false := ValueType.isMatrix_of_isScalar hscalar
  obtain ⟨_, hqgraph, haccepts, _⟩ := hs.binary_of_event hq
  have hqty := haccepts.result_eq nofun (hcty ▸ hmatrix)
  refine agree_of_eval fun b => ?_
  rw [hpgraph, hqgraph, hcgraph, hx, hs.eval_oneMinus_eq hx hp b, hs.eval_binary_node hcgraph hq b,
    hs.eval_constant hc b, hqty, hcty]
  refine congrArg _ (funext fun v => ?_)
  exact (Value.binary_of_not_matrix (by rw [Value.ty_ofScalar_one hscalar, hmatrix]) v).symm

end Steady

/-- What shorthand stands for. -/
structure ShorthandLaws (s : Session n) (g : Fin n) (events : List (Event n)) : Prop where
  /-- A number for all components stands for a vector of that number. -/
  splat : ∀ (op : BinaryOp) (x y : Node n), op = .mul ∨ op = .add ∨ op = .sub → Scales g x y →
    s.Makes (.binary op x (.node y)) g x.ty ∧
      s.Makes (.construct g x.ty (List.replicate x.ty.dim.width (.node y))) g x.ty ∧
      ∀ q, ⟨.construct g x.ty (List.replicate x.ty.dim.width (.node y)), .ok (.node q)⟩ ∈ events →
        s.Makes (.binary op x (.node q)) g x.ty ∧
          ∀ p r, ⟨.binary op x (.node y), .ok (.node p)⟩ ∈ events → ⟨.binary op x (.node q), .ok (.node r)⟩ ∈ events →
            s.Agree p r
  /-- Every component of a vector can be divided by a number. -/
  quotient : ∀ (x y : Node n) (i : Nat), Scales g x y → i < x.ty.dim.width →
    ∃ name, Selector.indices name = [i] ∧ s.Makes (.access x name) g x.ty.scalarType ∧
      ∀ p, ⟨.access x name, .ok (.node p)⟩ ∈ events → s.Makes (.binary .div p (.node y)) g x.ty.scalarType
  /-- A division by a number stands for the divisions of all components. -/
  quotients : ∀ (x y : Node n) (quotients : List (Node n)), Scales g x y →
    List.Forall₂ (DividesAt events x y) (List.range x.ty.dim.width) quotients →
    s.Makes (.binary .div x (.node y)) g x.ty ∧ s.Makes (.construct g x.ty (quotients.map .node)) g x.ty ∧
      ∀ p, ⟨.binary .div x (.node y), .ok (.node p)⟩ ∈ events →
        (∀ b, (∃ z, s.Evaluates b p z) ↔ ∀ q ∈ quotients, ∃ u, s.Evaluates b q u) ∧
          ∀ c, ⟨.construct g x.ty (quotients.map .node), .ok (.node c)⟩ ∈ events → s.Agree p c
  /-- One minus a number stands for a subtraction from the constant one. -/
  oneMinus : ∀ x c : Node n, x.graph = g → x.ty.isNumeric = true → x.ty.isScalar = true →
    ⟨.constant g (.ofScalar (.one x.ty.kind)), .ok (.node c)⟩ ∈ events →
    s.Makes (.oneMinus x) g x.ty ∧ s.Makes (.binary .sub c (.node x)) g x.ty ∧
      ∀ p q, ⟨.oneMinus x, .ok (.node p)⟩ ∈ events → ⟨.binary .sub c (.node x), .ok (.node q)⟩ ∈ events → s.Agree p q

namespace Steady

/-- In a session without assignments, the shorthand for operations is evaluated as what it stands for, for all values of
the attributes and with the same errors.  A vector that is divided has a value exactly where all its quotients have one.
-/
theorem shorthand_laws (hs : s.Steady g held events) : s.ShorthandLaws g events where
  splat op x y hop h := by
    have harithmetic : op ≠ .lessThan := by
      rintro rfl
      simp at hop
    refine ⟨h.makes harithmetic, h.makes_splat, fun q hq => ⟨?_, fun p r hp hr => ?_⟩⟩
    · have hqmade := hq
      rw [← List.map_replicate] at hqmade
      obtain ⟨hqgraph, hqty, _, _⟩ := hs.construct_of_event hqmade
      refine makes_binary h.left hqgraph ?_
      rw [hqty]
      exact .same hop h.numeric
    · exact hs.agree_splat h harithmetic hp hq hr
  quotient x y i h hi := by
    obtain ⟨name, hname, haccesses⟩ := ValueType.exists_accesses h.vector hi
    refine ⟨name, hname, makes_access h.left haccesses, fun p hp => ?_⟩
    obtain ⟨hpgraph, hpty⟩ := hs.picked_number h hname hp
    exact makes_quotient h hpgraph hpty
  quotients x y quotients h hquotients := by
    refine ⟨h.makes nofun, hs.makes_quotients h hquotients, fun p hp => ⟨fun b => ?_, fun c hc => ?_⟩⟩
    · exact hs.evaluates_quotients h hquotients hp
    · exact hs.agree_quotients h hquotients hp hc
  oneMinus x c hx hnumeric hscalar hc := by
    refine ⟨?_, ?_, fun p q hp hq => hs.agree_oneMinus hx hc hp hq⟩
    · exact hx ▸ ((decides_oneMinus x).accepted x.ty).2 ⟨hnumeric, hscalar, rfl⟩
    · obtain ⟨hcgraph, hcty, _⟩ := hs.constant_of_event hc
      rw [Value.ty_ofScalar_one hscalar] at hcty
      refine makes_binary hcgraph hx ?_
      rw [hcty]
      exact .same (by simp) hnumeric

/-- Two integers of an attribute are divided by a third one. -/
theorem shorthand_laws_attr :
    ∃ (s : Session 1) (held : List (Reply 1)) (events : List (Event 1)) (x y q q' p c : Node 1),
      s.Steady 0 held events ∧ x.ty = .ivec2 ∧ y.ty = .int ∧ DividesAt events x y 0 q ∧ DividesAt events x y 1 q' ∧
        ⟨.binary .div x (.node y), .ok (.node p)⟩ ∈ events ∧
        ⟨.construct 0 .ivec2 [.node q, .node q'], .ok (.node c)⟩ ∈ events ∧ s.Agree p c := by
  have hstart : (ofConfigs #v[Config.standard]).Steady (0 : Fin 1) [] [] := .start (.start _)
  obtain ⟨x, hx, hs⟩ := hstart.attr .ivec2 "offset"
  obtain ⟨y, hy, hs⟩ := hs.attr .int "scale"
  have hscales : Scales 0 x y := ⟨Subsingleton.elim _ _, Subsingleton.elim _ _, by rw [hx]; rfl, by rw [hx, hy]; rfl⟩
  have hpicks : ∀ name ∈ ["x", "g"], x.ty.Accesses name .int := by
    rw [hx]
    exact fun name hname => ValueType.checkAccess_iff.1 (by revert name; decide)
  have hdivides : ∀ (s : Session 1) (z : Node 1), z.ty = .int → s.Makes (.binary .div z (.node y)) 0 .int := by
    intro s z hz
    refine makes_binary (Subsingleton.elim _ _) hscales.right ?_
    rw [hz, hy]
    exact .scalar nofun rfl
  obtain ⟨z, hz, hs⟩ := hs.makes (.of_nodes rfl (by simp [Call.nodes]) rfl rfl) rfl
    (makes_access hscales.left (hpicks "x" (by simp)))
  obtain ⟨z', hz', hs⟩ := hs.makes (.of_nodes rfl (by simp [Call.nodes]) rfl rfl) rfl
    (makes_access hscales.left (hpicks "g" (by simp)))
  obtain ⟨q, hq, hs⟩ := hs.makes (.of_nodes rfl (by simp [Call.nodes, Operand.nodes]) rfl rfl) rfl (hdivides _ z hz)
  obtain ⟨q', hq', hs⟩ := hs.makes (.of_nodes rfl (by simp [Call.nodes, Operand.nodes]) rfl rfl) rfl (hdivides _ z' hz')
  obtain ⟨p, hp, hs⟩ := hs.makes (.of_nodes rfl (by simp [Call.nodes, Operand.nodes]) rfl rfl) rfl
    (hscales.makes (nofun : BinaryOp.div ≠ .lessThan))
  have hrange : List.range x.ty.dim.width = [0, 1] := by
    rw [hx]
    rfl
  have hall : ∀ events : List (Event 1), DividesAt events x y 0 q → DividesAt events x y 1 q' →
      List.Forall₂ (DividesAt events x y) (List.range x.ty.dim.width) [q, q'] := by
    intro events hq hq'
    rw [hrange]
    exact .cons hq (.cons hq' .nil)
  obtain ⟨c, _, hs⟩ := hs.makes (.of_nodes rfl (by simp [Call.nodes, Operand.nodes]) rfl rfl) rfl
    (hs.makes_quotients hscales (hall _ ⟨"x", z, by decide, by simp, by simp⟩ ⟨"g", z', by decide, by simp, by simp⟩))
  obtain ⟨t, held, events, hs, hq, hq', hp, hc⟩ :
      ∃ (t : Session 1) (held : List (Reply 1)) (events : List (Event 1)), t.Steady 0 held events ∧
        DividesAt events x y 0 q ∧ DividesAt events x y 1 q' ∧ ⟨.binary .div x (.node y), .ok (.node p)⟩ ∈ events ∧
          ⟨.construct 0 x.ty ([q, q'].map .node), .ok (.node c)⟩ ∈ events :=
    ⟨_, _, _, hs, ⟨"x", z, by decide, by simp, by simp⟩, ⟨"g", z', by decide, by simp, by simp⟩, by simp, by simp⟩
  have hagree := ((hs.shorthand_laws.quotients x y [q, q'] hscales (hall _ hq hq')).2.2 p hp).2 c hc
  rw [hx] at hc
  exact ⟨t, held, events, x, y, q, q', p, c, hs, hx, hy, hq, hq', hp, hc, hagree⟩

end Steady

end Session

end ShaderExpr
