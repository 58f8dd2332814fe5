import Mathlib
import ShaderExpr.Literal
import ShaderExpr.Rejection

/-!
# What the tables agree on

The rules of an operator, the accessors and the constructors are finite tables, so that facts on all their
entries are decided.  `Rule.Coherent` is what each rule of an operator says of its operands and its result:

* a right operand that is typed holds numbers of the kind of the left one (`BinaryOp.coherent_of_mem`);
* a literal is listed only where a scalar of the left operand's kind is (`BinaryOp.typed_of_literal`), and a search
  finds the same result for both, or none for either (`BinaryOp.result?_scalarType`).

An accessor has one letter for each component of its result, and each letter names a component of the source
(`ValueType.exists_selectors`).  The arguments of a constructor, and the operand of a conversion, have as many
components as the target (`ValueType.sum_componentCount`, `ValueType.componentCount_eq_of_conversion`).
-/

namespace ShaderExpr

theorem exists_mapM_eq_some {α β : Type} {f : α → Option β} {xs : List α} (h : ∀ x ∈ xs, ∃ y, f x = some y) :
    ∃ ys, xs.mapM f = some ys ∧ ys.length = xs.length := by
  induction xs with
  | nil => exact ⟨[], rfl, rfl⟩
  | cons x xs ih =>
    rw [List.forall_mem_cons] at h
    obtain ⟨y, hy⟩ := h.1
    obtain ⟨ys, hys, hlength⟩ := ih h.2
    rw [List.mapM_cons, hy, hys]
    exact ⟨y :: ys, rfl, congrArg Nat.succ hlength⟩

theorem mapM_eq_some {α β : Type} {f : α → Option β} {xs : List α} {ys : List β} :
    xs.mapM f = some ys ↔ List.Forall₂ (fun x y => f x = some y) xs ys := by
  induction xs generalizing ys with
  | nil =>
    rw [List.mapM_nil, List.forall₂_nil_left_iff]
    exact ⟨fun h => (Option.some.inj h).symm, fun h => congrArg some h.symm⟩
  | cons x xs ih =>
    rw [List.mapM_cons, List.forall₂_cons_left_iff]
    constructor
    · intro h
      obtain ⟨y, hy, h⟩ := Option.bind_eq_some_iff.1 h
      obtain ⟨rest, hrest, h⟩ := Option.bind_eq_some_iff.1 h
      exact ⟨y, rest, hy, ih.1 hrest, (Option.some.inj h).symm⟩
    · rintro ⟨y, rest, hy, hrest, rfl⟩
      rw [hy, ih.2 hrest]
      rfl

theorem exists_of_mem_forall₂ {α β : Type} {R : α → β → Prop} {xs : List α} {ys : List β} (h : List.Forall₂ R xs ys)
    {y : β} (hy : y ∈ ys) : ∃ x ∈ xs, R x y := by
  induction h with
  | nil => exact absurd hy List.not_mem_nil
  | cons hfirst _ ih =>
    rcases List.mem_cons.1 hy with rfl | hy
    · exact ⟨_, List.mem_cons_self, hfirst⟩
    · obtain ⟨x, hx, hxy⟩ := ih hy
      exact ⟨x, List.mem_cons_of_mem _ hx, hxy⟩

theorem exists_of_mem_mapM {α β : Type} {f : α → Option β} {xs : List α} {ys : List β} (h : xs.mapM f = some ys)
    {y : β} (hy : y ∈ ys) : ∃ x ∈ xs, f x = some y :=
  exists_of_mem_forall₂ (mapM_eq_some.1 h) hy

theorem mapM_map_option {α β γ : Type} {f : α → Option β} {h : β → γ} {xs : List α} :
    (xs.mapM fun x => (f x).map h) = (xs.mapM f).map (List.map h) := by
  induction xs with
  | nil => rfl
  | cons x xs ih =>
    rw [List.mapM_cons, List.mapM_cons, ih]
    cases f x with
    | none => rfl
    | some y => cases xs.mapM f <;> rfl

/-- An entry that a table was searched for is in the table. -/
theorem exists_of_map_find? {α β : Type} {p : α → Prop} [DecidablePred p] {f : α → β} {xs : List α} {y : β}
    (h : (xs.find? fun x => p x).map f = some y) : ∃ x ∈ xs, p x ∧ f x = y := by
  obtain ⟨x, hfind, hy⟩ := Option.map_eq_some_iff.1 h
  have hp := List.find?_some hfind
  exact ⟨x, List.mem_of_find?_eq_some hfind, of_decide_eq_true hp, hy⟩

/-- Whether a product is that of linear algebra. -/
def BinaryOp.isProduct (op : BinaryOp) (left right : ValueType) : Bool :=
  op = .mul && left.isMatrix && right.kind = .float && right.dim = left.dim

/-- What a rule of an operator says.  A product of linear algebra has the type of the right operand; other
results have as many components as the left operand, and the right operand has as many or a single one. -/
def Rule.Coherent (op : BinaryOp) : Rule → Prop
  | ⟨left, .typed right, ty⟩ =>
    left.isNumeric = true ∧ right.kind = left.kind ∧ (op ≠ .lessThan → ty.kind = left.kind) ∧
      if op.isProduct left right then ty = right
      else ty.componentCount = left.componentCount ∧
        (right.componentCount = 1 ∨ right.componentCount = left.componentCount)
  | ⟨left, .literal, ty⟩ => ⟨left, .typed left.scalarType, ty⟩ ∈ op.rules

instance (op : BinaryOp) : DecidablePred (Rule.Coherent op)
  | ⟨_, .typed _, _⟩ => inferInstanceAs (Decidable (_ ∧ _))
  | ⟨_, .literal, _⟩ => inferInstanceAs (Decidable (_ ∈ op.rules))

namespace BinaryOp

variable {op : BinaryOp} {left right ty : ValueType}

theorem mem_all (op : BinaryOp) : op ∈ all := by
  cases op <;> decide

theorem coherent_of_mem {rule : Rule} (h : rule ∈ op.rules) : rule.Coherent op := by
  have hall : ∀ op ∈ all, ∀ rule ∈ op.rules, rule.Coherent op := by decide
  exact hall op op.mem_all rule h

/-- Where a literal is listed, so is a scalar of the left operand's kind. -/
theorem typed_of_literal (h : ⟨left, .literal, ty⟩ ∈ op.rules) : ⟨left, .typed left.scalarType, ty⟩ ∈ op.rules :=
  coherent_of_mem h

/-- A literal has the result of a scalar of the left operand's kind, or none if that has none. -/
theorem result?_scalarType (op : BinaryOp) (left : ValueType) :
    op.result? left (.typed left.scalarType) = op.result? left .literal := by
  have hall : ∀ op ∈ all, ∀ left ∈ ValueType.all,
      op.result? left (.typed left.scalarType) = op.result? left .literal := by
    decide +kernel
  exact hall op op.mem_all left left.mem_all

theorem check_eq_ok {operand : OperandType} : op.check left operand = .ok ty ↔ op.result? left operand = some ty := by
  unfold check
  split
  · rename_i result hresult
    rw [hresult]
    exact ⟨fun h => congrArg some (Except.ok.inj h), fun h => congrArg Except.ok (Option.some.inj h)⟩
  · rename_i hresult
    rw [hresult]
    exact iff_of_false nofun nofun

theorem mem_rules_of_check {operand : OperandType} (h : op.check left operand = .ok ty) :
    ⟨left, operand, ty⟩ ∈ op.rules := by
  obtain ⟨rule, hmem, ⟨rfl, rfl⟩, rfl⟩ := exists_of_map_find? (check_eq_ok.1 h)
  exact hmem

end BinaryOp

theorem ValueType.mem_oneMinusRules_of_check {operand ty : ValueType} (h : operand.checkOneMinus = .ok ty) :
    (operand, ty) ∈ oneMinusRules := by
  unfold checkOneMinus at h
  split at h
  · rename_i result hresult
    cases Except.ok.inj h
    obtain ⟨before, after, hlist, _⟩ := List.lookup_eq_some_iff.1 hresult
    rw [hlist]
    exact List.mem_append_right before List.mem_cons_self
  · exact absurd h nofun

/-- A literal gives a scalar of the kind it is used with. -/
theorem Literal.ty_of_unify? {x : Literal} {kind : Kind} {value : Value} (h : x.unify? kind = some value) :
    value.ty = kind.scalarType := by
  cases kind with
  | bool => exact absurd h nofun
  | int | uint | float =>
    obtain ⟨_, _, rfl⟩ := Option.map_eq_some_iff.1 h
    rfl

namespace ValueType

theorem kind_ne_bool {ty : ValueType} (h : ty.isNumeric = true) : ty.kind ≠ .bool := by
  revert h
  cases ty <;> decide

/-- An accessor has a letter for each component that it picks, and the source has all of them. -/
theorem exists_selectors {source picked : ValueType} {name : String} (h : source.checkAccess name = .ok picked) :
    ∃ selectors, Selector.parse? name = some selectors ∧ selectors.length = picked.componentCount ∧
      ∀ selector ∈ selectors, selector.index < source.componentCount := by
  -- checked on all entries of the table, since names are not looked into otherwise
  have htable : ∀ rule ∈ AccessorRule.table, ∃ selectors ∈ Selector.parse? rule.name,
      selectors.length = rule.result.componentCount ∧
        ∀ selector ∈ selectors, selector.index < rule.source.componentCount := by
    decide +kernel
  unfold checkAccess at h
  split at h
  · rename_i result hresult
    cases Except.ok.inj h
    obtain ⟨rule, hmem, ⟨rfl, rfl⟩, rfl⟩ := exists_of_map_find? hresult
    obtain ⟨selectors, hparse, hselectors⟩ := htable rule hmem
    exact ⟨selectors, Option.mem_def.1 hparse, hselectors⟩
  · exact absurd h nofun

theorem scalarType_eq_self {ty : ValueType} : ty.scalarType = ty ↔ ty.isScalar = true := by
  cases ty <;> decide

theorem componentCount_eq_width {ty : ValueType} (h : ty.isMatrix = false) :
    ty.componentCount = ty.dim.width := by
  unfold componentCount
  rw [h]
  rfl

private theorem argumentWidth?_typed {target ty : ValueType} {width : Nat}
    (h : target.argumentWidth? (.typed ty) = some width) : width = ty.componentCount := by
  unfold argumentWidth? at h
  dsimp only at h
  split at h
  · exact absurd h nofun
  · rename_i hty
    rw [not_or, Bool.not_eq_true] at hty
    rw [componentCount_eq_width hty.1]
    exact (Option.some.inj h).symm

private theorem sum_widths {target : ValueType} {types : List ValueType} {widths : List Nat}
    (h : (types.map OperandType.typed).mapM target.argumentWidth? = some widths) :
    (types.map componentCount).sum = widths.sum := by
  rw [mapM_eq_some, List.forall₂_map_left_iff] at h
  induction h with
  | nil => rfl
  | cons hwidth _ ih => rw [List.map_cons, List.sum_cons, List.sum_cons, ih, argumentWidth?_typed hwidth]

private theorem sum_of_mem_shapes {dim : Dim} {shape : List Nat} (h : shape ∈ dim.shapes) :
    shape.sum = dim.width := by
  cases dim <;> revert shape <;> decide

private theorem width_of_mem_shapes {target : ValueType} {shape : List Nat} (h : shape ∈ target.shapes) :
    shape.sum = target.componentCount := by
  unfold shapes at h
  split at h
  · rename_i hvector
    unfold isVector at hvector
    simp only [Bool.and_eq_true, Bool.not_eq_true'] at hvector
    rw [sum_of_mem_shapes h, componentCount_eq_width hvector.2]
  · exact absurd h List.not_mem_nil

theorem checkArguments_eq_ok {target : ValueType} {args : List OperandType} :
    target.checkArguments args = .ok () ↔ target.constructs args = true := by
  unfold checkArguments
  split
  · rename_i h
    exact iff_of_true rfl h
  · rename_i h
    exact iff_of_false nofun h

/-- The arguments of a constructor have as many components as its target. -/
theorem sum_componentCount {target : ValueType} {types : List ValueType}
    (h : target.checkArguments (types.map .typed) = .ok ()) :
    (types.map componentCount).sum = target.componentCount := by
  have hconstructs := checkArguments_eq_ok.1 h
  unfold constructs at hconstructs
  split at hconstructs
  · rename_i widths hwidths
    rw [sum_widths hwidths, width_of_mem_shapes (of_decide_eq_true hconstructs)]
  · exact absurd hconstructs Bool.false_ne_true

/-- A literal argument counts as a scalar of the target's kind. -/
theorem argumentWidth?_scalarType (target : ValueType) :
    target.argumentWidth? (.typed target.scalarType) = target.argumentWidth? .literal := by
  cases target <;> rfl

/-- A conversion keeps the number of components. -/
theorem componentCount_eq_of_conversion {source target : ValueType}
    (h : source.checkConversion target = .ok ()) :
    source.componentCount = target.componentCount := by
  unfold checkConversion convertsTo isConvertible at h
  split at h
  · rename_i hconverts
    simp only [Bool.and_eq_true, Bool.not_eq_true', decide_eq_true_eq] at hconverts
    obtain ⟨⟨⟨hsource, _⟩, ⟨htarget, _⟩⟩, hdim⟩ := hconverts
    rw [componentCount_eq_width hsource, componentCount_eq_width htarget, hdim]
  · exact absurd h nofun

end ValueType

end ShaderExpr
