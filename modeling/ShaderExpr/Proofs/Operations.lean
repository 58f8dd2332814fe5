import ShaderExpr.Proofs.Tables
import ShaderExpr.Proofs.Valuation

/-!
# Operations on typed values

An operation on values of types that its rules list gives a value of the listed type.  The one thing that can
go wrong is the division of integers (`BinaryOp.Gives`).
-/

namespace ShaderExpr

namespace BinaryOp

/-- Integers are divided, which they may not be by zero. -/
def DividesIntegers (op : BinaryOp) (kind : Kind) : Prop :=
  op = .div ∧ (kind = .int ∨ kind = .uint)

variable {op : BinaryOp} {kind : Kind}

private theorem onInts_cases (op : BinaryOp) (x y : Int32) :
    (∃ z, op.onInts x y = .ok z) ∨ op.onInts x y = .error .divisionByZero ∧ op.DividesIntegers .int := by
  cases op with
  | div =>
    unfold onInts
    dsimp only
    split
    · exact .inr ⟨rfl, rfl, .inl rfl⟩
    · exact .inl ⟨_, rfl⟩
  | _ => exact .inl ⟨_, rfl⟩

private theorem onUInts_cases (op : BinaryOp) (x y : UInt32) :
    (∃ z, op.onUInts x y = .ok z) ∨ op.onUInts x y = .error .divisionByZero ∧ op.DividesIntegers .uint := by
  cases op with
  | div =>
    unfold onUInts
    dsimp only
    split
    · exact .inr ⟨rfl, rfl, .inr rfl⟩
    · exact .inl ⟨_, rfl⟩
  | _ => exact .inl ⟨_, rfl⟩

/-- Numbers of one kind combine, unless integers are divided. -/
theorem onScalars_cases (op : BinaryOp) {x y : Scalar} (hx : x.kind = kind) (hy : y.kind = kind)
    (hnumber : kind ≠ .bool) :
    (∃ z, op.onScalars x y = .ok z) ∨ op.onScalars x y = .error .divisionByZero ∧ op.DividesIntegers kind := by
  subst hx
  cases x with
  | bool => exact absurd rfl hnumber
  | int i =>
    cases y with
    | int j => exact op.onInts_cases i j
    | _ => exact absurd hy nofun
  | uint u =>
    cases y with
    | uint w => exact op.onUInts_cases u w
    | _ => exact absurd hy nofun
  | float f =>
    cases y with
    | float f' => exact .inl ⟨_, rfl⟩
    | _ => exact absurd hy nofun

/-- The outcome of an operation that is combined from components. -/
theorem onPairs_cases (op : BinaryOp) {xs ys : List Scalar} (hnumber : kind ≠ .bool)
    (hlength : ys.length = xs.length) (hxs : ∀ x ∈ xs, x.kind = kind) (hys : ∀ y ∈ ys, y.kind = kind) :
    (∃ zs, op.onPairs xs ys = .ok zs ∧ zs.length = xs.length) ∨
      op.onPairs xs ys = .error .divisionByZero ∧ op.DividesIntegers kind := by
  induction xs generalizing ys with
  | nil => exact .inl ⟨[], by unfold onPairs; rfl, rfl⟩
  | cons x xs ih =>
    cases ys with
    | nil => exact absurd hlength nofun
    | cons y ys =>
      rw [List.forall_mem_cons] at hxs hys
      unfold onPairs
      rcases op.onScalars_cases hxs.1 hys.1 hnumber with ⟨z, hz⟩ | ⟨hz, hdivides⟩
      · rw [hz]
        rcases ih (Nat.succ.inj hlength) hxs.2 hys.2 with ⟨zs, hzs, hlen⟩ | ⟨hzs, hdivides⟩
        · rw [hzs]
          exact .inl ⟨z :: zs, rfl, congrArg Nat.succ hlen⟩
        · rw [hzs]
          exact .inr ⟨rfl, hdivides⟩
      · rw [hz]
        exact .inr ⟨rfl, hdivides⟩

/-- An operation gives a value of a type, or fails because it divides integers. -/
def Gives (op : BinaryOp) (kind : Kind) (ty : ValueType) (outcome : Except EvalFailure Value) : Prop :=
  (∃ v, outcome = .ok v ∧ v.ty = ty) ∨ outcome = .error .divisionByZero ∧ op.DividesIntegers kind

end BinaryOp

namespace Value

theorem rebuild_ok {ty : ValueType} {components : List Scalar} (h : components.length = ty.componentCount) :
    ∃ v, rebuild ty components = .ok v ∧ v.ty = ty := by
  unfold rebuild ofComponents?
  rw [dif_pos h]
  exact ⟨_, rfl, rfl⟩

theorem length_broadcast {count : Nat} {components : List Scalar}
    (h : components.length = 1 ∨ components.length = count) : (broadcast count components).length = count := by
  unfold broadcast
  split
  · exact List.length_replicate
  · rename_i hsingle
    refine h.resolve_left ?_
    intro hone
    obtain ⟨s, rfl⟩ := List.length_eq_one_iff.1 hone
    exact hsingle s rfl

theorem mem_of_mem_broadcast {count : Nat} {components : List Scalar} {s : Scalar}
    (h : s ∈ broadcast count components) : s ∈ components := by
  unfold broadcast at h
  split at h
  · rw [(List.mem_replicate.1 h).2]
    exact List.mem_singleton_self _
  · exact h

/-- An operator applied component by component, to numbers of one kind. -/
theorem componentwise_gives (op : BinaryOp) (ty : ValueType) (left right : Value)
    (hnumber : left.ty.kind ≠ .bool) (hkind : right.ty.kind = left.ty.kind)
    (hty : ty.componentCount = left.ty.componentCount)
    (hcount : right.ty.componentCount = 1 ∨ right.ty.componentCount = left.ty.componentCount) :
    op.Gives left.ty.kind ty (componentwise op ty left right) := by
  have hlength : (broadcast left.components.length right.components).length = left.components.length := by
    refine length_broadcast ?_
    rw [right.length_components, left.length_components]
    exact hcount
  have hothers : ∀ y ∈ broadcast left.components.length right.components, y.kind = left.ty.kind := by
    intro y hy
    rw [right.kind_of_mem y (mem_of_mem_broadcast hy), hkind]
  unfold componentwise
  dsimp only
  rw [if_pos hlength]
  rcases op.onPairs_cases hnumber hlength left.kind_of_mem hothers with ⟨zs, hzs, hlen⟩ | ⟨hzs, hdivides⟩
  · rw [hzs]
    refine .inl (rebuild_ok ?_)
    rw [hlen, left.length_components, hty]
  · rw [hzs]
    exact .inr ⟨rfl, hdivides⟩

private theorem isProduct_eq_true (op : BinaryOp) (left right : Value) :
    op.isProduct left.ty right.ty = true ↔ op = .mul ∧ left.multiplies right = true := by
  unfold BinaryOp.isProduct multiplies
  simp only [Bool.and_eq_true, decide_eq_true_eq, and_assoc]

/-- A binary operator gives a value of the type that its rules list. -/
theorem binary_gives {op : BinaryOp} {ty : ValueType} {left right : Value}
    (rule : ⟨left.ty, .typed right.ty, ty⟩ ∈ op.rules) : op.Gives ty.kind ty (binary op ty left right) := by
  obtain ⟨hnumeric, hkind, hresult, hrule⟩ := BinaryOp.coherent_of_mem rule
  have hproduct := isProduct_eq_true op left right
  unfold binary
  split
  · -- linear algebra, on floats only
    rename_i h
    rw [if_pos (hproduct.2 h)] at hrule
    exact .inl ⟨_, rfl, hrule.symm⟩
  · rename_i h
    rw [if_neg fun hp => h (hproduct.1 hp)] at hrule
    rcases componentwise_gives op ty left right (ValueType.kind_ne_bool hnumeric) hkind hrule.1 hrule.2 with
      hvalue | ⟨herror, hdivides⟩
    · exact .inl hvalue
    · -- what divides is no comparison, so the result has the kind of the operands
      refine .inr ⟨herror, ?_⟩
      rw [hresult (by rw [hdivides.1]; exact nofun)]
      exact hdivides

/-- One minus a scalar is a scalar. -/
theorem oneMinus_ok {ty : ValueType} {operand : Value} (rule : (operand.ty, ty) ∈ oneMinusRules) :
    ∃ v, Op.oneMinus.apply ty [operand] = .ok v ∧ v.ty = ty := by
  have htable : ∀ rule ∈ oneMinusRules,
      rule.1 = rule.2 ∧ rule.2.componentCount = 1 ∧ rule.2.isNumeric = true := by decide
  obtain ⟨hty, hcount, hnumeric⟩ := htable _ rule
  dsimp only at hty hcount hnumeric
  obtain ⟨one, hone, honety⟩ : ∃ one, rebuild ty [.int 1] = .ok one ∧ one.ty = ty := rebuild_ok hcount.symm
  unfold Op.apply
  dsimp only
  rw [hone]
  subst honety
  rcases componentwise_gives .sub one.ty one operand (ValueType.kind_ne_bool hnumeric) (by rw [hty]) rfl
    (.inl (hty ▸ hcount)) with hvalue | ⟨_, hdivides, _⟩
  · exact hvalue
  · exact absurd hdivides nofun

theorem cast_ok {target : ValueType} {operand : Value}
    (conversion : operand.ty.checkConversion target = .ok ()) :
    ∃ v, (Op.cast target).apply target [operand] = .ok v ∧ v.ty = target := by
  refine rebuild_ok ?_
  rw [operand.length_components]
  exact ValueType.componentCount_eq_of_conversion conversion

theorem construct_ok {target : ValueType} {args : List Value}
    (shape : target.checkArguments (args.map fun v => .typed v.ty) = .ok ()) :
    ∃ v, (Op.construct target).apply target args = .ok v ∧ v.ty = target := by
  have hcounts : (args.flatMap components).length = ((args.map ty).map ValueType.componentCount).sum := by
    rw [List.length_flatMap, List.map_map]
    exact congrArg List.sum (List.map_congr_left fun v _ => v.length_components)
  unfold Op.apply
  refine rebuild_ok ?_
  rw [hcounts]
  refine ValueType.sum_componentCount ?_
  rw [List.map_map]
  exact shape

/-- An accessor of the type of a value picks components of it. -/
theorem access_ok {v : Value} {name : String} {picked : ValueType} (source : Handle)
    (accessor : v.ty.checkAccess name = .ok picked) :
    ∃ w, v.access source name picked = .ok w ∧ w.ty = picked := by
  obtain ⟨selectors, hparse, hlength, hbound⟩ := ValueType.exists_selectors accessor
  obtain ⟨components, hpick, hcomponents⟩ : ∃ components,
      (selectors.mapM fun selector => v.components[selector.index]?) = some components ∧
        components.length = selectors.length := by
    refine exists_mapM_eq_some fun selector hselector => ⟨_, List.getElem?_eq_getElem ?_⟩
    rw [v.length_components]
    exact hbound selector hselector
  have hpicked : v.pick? name = some components := by
    unfold pick?
    rw [hparse]
    exact hpick
  unfold access
  rw [hpicked]
  exact rebuild_ok (hcomponents.trans hlength)

end Value

end ShaderExpr
