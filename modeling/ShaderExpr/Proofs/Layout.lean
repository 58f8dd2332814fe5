import ShaderExpr.Proofs.Components

/-!
# How values are laid out

A value is the list of its components.  In memory, the components of a scalar or vector lie in an array of as many
numbers of one kind, and those of a matrix in an array of columns (`Layout`).  A layout is read from scalars of any
kinds by converting them, keeping the numbers of its kind, and loading its array or its columns from these
(`Layout.read`).  A load from too short a list fails; no load does, since a conversion leaves as many scalars and all of
the kind that is kept.  So `Layout.read` finds what `Value.ofComponents?` says, and both are inverse to listing the
components (`Value.layout_laws`).
-/

namespace ShaderExpr

/-- What a component of a kind is stored as. -/
def Kind.Number : Kind → Type
  | bool => Bool
  | int => Int32
  | uint => UInt32
  | float => Float32

namespace Scalar

def ofNumber : (k : Kind) → k.Number → Scalar
  | .bool => bool
  | .int => int
  | .uint => uint
  | .float => float

/-- The number of a scalar that has the kind. -/
def number? : (k : Kind) → Scalar → Option k.Number
  | .bool, bool b => some b
  | .int, int i => some i
  | .uint, uint u => some u
  | .float, float f => some f
  | _, _ => none

variable {k : Kind}

@[simp]
theorem kind_ofNumber (x : k.Number) : (ofNumber k x).kind = k := by
  cases k <;> rfl

@[simp]
theorem number?_ofNumber (x : k.Number) : (ofNumber k x).number? k = some x := by
  cases k <;> rfl

theorem ofNumber_injective : Function.Injective (ofNumber k) := by
  intro x y h
  have hsome := congrArg (number? k) h
  rw [number?_ofNumber, number?_ofNumber] at hsome
  exact Option.some.inj hsome

theorem exists_number {c : Scalar} (h : c.kind = k) : ∃ x, c = ofNumber k x := by
  subst h
  cases c <;> exact ⟨_, rfl⟩

/-- Scalars of one kind are a list of numbers, and all of these are kept. -/
theorem exists_numbers {components : List Scalar} (h : ∀ c ∈ components, c.kind = k) :
    ∃ xs, components = xs.map (ofNumber k) ∧ components.filterMap (number? k) = xs := by
  induction components with
  | nil => exact ⟨[], rfl, rfl⟩
  | cons c components ih =>
    rw [List.forall_mem_cons] at h
    obtain ⟨x, rfl⟩ := exists_number h.1
    obtain ⟨xs, hxs, hkept⟩ := ih h.2
    refine ⟨x :: xs, by rw [hxs, List.map_cons], ?_⟩
    rw [List.filterMap_cons_some (number?_ofNumber x), hkept]

end Scalar

/-- An access at an index that a list does not have. -/
structure OutOfRange where
  index : Nat
  length : Nat

/-- The first numbers of a list. -/
def load {α : Type} (width : Nat) (xs : List α) : Except OutOfRange (Vector α width) :=
  if h : width ≤ xs.length then .ok (Vector.ofFn fun i => xs.get ⟨i, Nat.lt_of_lt_of_le i.isLt h⟩)
  else .error ⟨xs.length, xs.length⟩

theorem column_index_lt {width : Nat} (column row : Fin width) : column * width + row < width * width := by
  have hcolumn := Nat.mul_le_mul_right width (Nat.succ_le_of_lt column.isLt)
  rw [Nat.succ_mul] at hcolumn
  omega

theorem getElem?_flatten {α : Type} {width : Nat} (columns : Vector (Vector α width) width) (column row : Fin width) :
    columns.flatten.toList[(column : Nat) * width + row]? = some ((columns.get column).get row) := by
  have hlt := column_index_lt column row
  have hpos : 0 < width := Nat.lt_of_le_of_lt (Nat.zero_le _) row.isLt
  have hcolumn : ((column : Nat) * width + row) / width = column := by
    rw [Nat.mul_comm, Nat.mul_add_div hpos, Nat.div_eq_of_lt row.isLt, Nat.add_zero]
  have hrow : ((column : Nat) * width + row) % width = row := by
    rw [Nat.mul_comm, Nat.mul_add_mod, Nat.mod_eq_of_lt row.isLt]
  rw [List.getElem?_eq_getElem (by simpa using hlt), Vector.getElem_toList, Vector.getElem_flatten]
  simp only [hcolumn, hrow]
  rfl

/-- The columns of a square matrix, one after the other. -/
def loadColumns {α : Type} (width : Nat) (xs : List α) : Except OutOfRange (Vector (Vector α width) width) :=
  if h : width * width ≤ xs.length then
    .ok (Vector.ofFn fun column => Vector.ofFn fun row =>
      xs.get ⟨column * width + row, Nat.lt_of_lt_of_le (column_index_lt column row) h⟩)
  else .error ⟨xs.length, xs.length⟩

section

variable {α : Type} {width : Nat} {xs : List α}

theorem exists_load (h : xs.length = width) : ∃ v, load width xs = .ok v ∧ v.toList = xs := by
  subst h
  refine ⟨_, dif_pos (Nat.le_refl _), ?_⟩
  rw [Vector.toList_ofFn]
  exact List.ofFn_get xs

theorem exists_loadColumns (h : xs.length = width * width) :
    ∃ v, loadColumns width xs = .ok v ∧ v.flatten.toList = xs := by
  refine ⟨_, dif_pos h.ge, List.ext_getElem (by simp [h]) fun i hi hi' => ?_⟩
  rw [Vector.getElem_toList, Vector.getElem_flatten, Vector.getElem_ofFn, Vector.getElem_ofFn]
  simp [Nat.div_add_mod']

end

/-- The components of a value of a type, as they are laid out. -/
inductive Layout (ty : ValueType) where
  | lanes (not_matrix : ty.isMatrix = false) (numbers : Vector ty.kind.Number ty.dim.width)
  | columns (matrix : ty.isMatrix = true) (numbers : Vector (Vector ty.kind.Number ty.dim.width) ty.dim.width)

namespace Layout

variable {ty : ValueType}

/-- The components, for a matrix column by column. -/
def scalars : Layout ty → List Scalar
  | lanes _ numbers => numbers.toList.map (Scalar.ofNumber ty.kind)
  | columns _ numbers => numbers.flatten.toList.map (Scalar.ofNumber ty.kind)

/-- The layout of a type that the given scalars form, converted to its kind; `none` if their number is wrong.  A boolean
is the first of the converted scalars; anything else is loaded from those that have the kind. -/
def read (ty : ValueType) (scalars : List Scalar) : Except OutOfRange (Option (Layout ty)) :=
  if scalars.length = ty.componentCount then
    let converted := scalars.map fun s => s.convert ty.kind
    let numbers := converted.filterMap (Scalar.number? ty.kind)
    if hmatrix : ty.isMatrix = true then do
      return some (columns hmatrix (← loadColumns ty.dim.width numbers))
    else if ty = .bool then do
      let first ← load 1 converted
      match first[0].number? ty.kind with
      | some b => return some (lanes (Bool.eq_false_of_not_eq_true hmatrix) (Vector.replicate _ b))
      | none => return none
    else do
      return some (lanes (Bool.eq_false_of_not_eq_true hmatrix) (← load ty.dim.width numbers))
  else .ok none

theorem length_scalars (v : Layout ty) : v.scalars.length = ty.componentCount := by
  unfold ValueType.componentCount
  cases v with
  | lanes hmatrix numbers => simp [scalars, hmatrix]
  | columns hmatrix numbers => simp [scalars, hmatrix]

theorem kind_of_mem_scalars (v : Layout ty) : ∀ c ∈ v.scalars, c.kind = ty.kind := by
  intro c hc
  cases v with
  | lanes | columns =>
    obtain ⟨x, _, rfl⟩ := List.mem_map.1 hc
    exact Scalar.kind_ofNumber x

/-- Different layouts have different components. -/
theorem scalars_injective : Function.Injective (scalars : Layout ty → List Scalar) := by
  intro v w h
  cases v with
  | lanes hmatrix xs =>
    cases w with
    | lanes _ ys => exact congrArg _ (Vector.toList_inj.1 (Scalar.ofNumber_injective.list_map h))
    | columns hmatrix' => exact absurd (hmatrix.symm.trans hmatrix') nofun
  | columns hmatrix xs =>
    cases w with
    | lanes hmatrix' => exact absurd (hmatrix.symm.trans hmatrix') nofun
    | columns _ ys =>
      have hflatten : xs.flatten.toList = ys.flatten.toList := Scalar.ofNumber_injective.list_map h
      refine congrArg _ (Vector.ext fun column hcolumn => Vector.ext fun row hrow => ?_)
      have hentries := getElem?_flatten xs ⟨column, hcolumn⟩ ⟨row, hrow⟩
      rw [hflatten, getElem?_flatten] at hentries
      exact (Option.some.inj hentries).symm

/-- Scalars of the right number are read without an access out of range. -/
theorem exists_read {components : List Scalar} (h : components.length = ty.componentCount) :
    ∃ v, read ty components = .ok (some v) ∧ v.scalars = components.map fun c => c.convert ty.kind := by
  obtain ⟨xs, hconverted, hkept⟩ : ∃ xs,
      (components.map fun c => c.convert ty.kind) = xs.map (Scalar.ofNumber ty.kind) ∧
      (components.map fun c => c.convert ty.kind).filterMap (Scalar.number? ty.kind) = xs :=
    Scalar.exists_numbers (List.forall_mem_map.2 fun c _ => c.kind_convert ty.kind)
  have hlength : xs.length = ty.componentCount := by
    rw [← h]
    simpa using (congrArg List.length hconverted).symm
  unfold read
  rw [if_pos h]
  dsimp only
  rw [hkept, hconverted]
  by_cases hmatrix : ty.isMatrix = true
  · have hcolumns : xs.length = ty.dim.width * ty.dim.width := by
      rw [hlength, ValueType.componentCount, if_pos hmatrix]
    obtain ⟨v, hv, hall⟩ := exists_loadColumns hcolumns
    rw [dif_pos hmatrix, hv]
    exact ⟨columns hmatrix v, rfl, congrArg _ hall⟩
  · have hmatrix' := Bool.eq_false_of_not_eq_true hmatrix
    rw [dif_neg hmatrix]
    rw [ValueType.componentCount_eq_width hmatrix'] at hlength
    by_cases hbool : ty = .bool
    · subst hbool
      obtain ⟨b, rfl⟩ := List.length_eq_one_iff.1 hlength
      exact ⟨lanes rfl (Vector.replicate _ b), rfl, rfl⟩
    · obtain ⟨v, hv, hall⟩ := exists_load hlength
      rw [if_neg hbool, hv]
      exact ⟨lanes hmatrix' v, rfl, congrArg _ hall⟩

/-- A layout is read back from its components. -/
theorem read_scalars (v : Layout ty) : read ty v.scalars = .ok (some v) := by
  obtain ⟨w, hw, hscalars⟩ := exists_read v.length_scalars
  have hsame : ∀ c ∈ v.scalars, c.convert ty.kind = id c := by
    intro c hc
    rw [← v.kind_of_mem_scalars c hc]
    exact c.convert_kind
  rw [List.map_congr_left hsame, List.map_id] at hscalars
  rw [hw, scalars_injective hscalars]

def value (v : Layout ty) : Value :=
  ⟨ty, v.scalars, v.length_scalars, v.kind_of_mem_scalars⟩

/-- What is read are the values that scalars form. -/
theorem exists_read_eq (ty : ValueType) (components : List Scalar) :
    ∃ v, read ty components = .ok v ∧ v.map value = Value.ofComponents? ty components := by
  unfold Value.ofComponents?
  by_cases h : components.length = ty.componentCount
  · obtain ⟨v, hv, hscalars⟩ := exists_read h
    refine ⟨some v, hv, ?_⟩
    rw [dif_pos h]
    exact congrArg some (Value.ext rfl hscalars)
  · refine ⟨none, if_neg h, ?_⟩
    rw [dif_neg h]
    rfl

end Layout

namespace Value

/-- A value has a layout. -/
theorem exists_layout (v : Value) : ∃ layout : Layout v.ty, layout.value = v := by
  obtain ⟨layout, _, hscalars⟩ := Layout.exists_read v.length_components
  rw [v.map_convert_components] at hscalars
  exact ⟨layout, ext rfl hscalars⟩

/-- How values are taken apart and built from scalars. -/
structure LayoutLaws : Prop where
  /-- A value is built again from its components, as many as its type has and all of its kind. -/
  rebuilt : ∀ v : Value, ofComponents? v.ty v.components = some v ∧
    v.components.length = v.ty.componentCount ∧ ∀ c ∈ v.components, c.kind = v.ty.kind
  /-- Scalars form a value of a type exactly if their number is right, whatever their kinds. -/
  none_iff : ∀ (ty : ValueType) (components : List Scalar),
    ofComponents? ty components = none ↔ components.length ≠ ty.componentCount
  /-- At each place, the value has the converted scalar. -/
  built : ∀ (ty : ValueType) (components : List Scalar) (w : Value), ofComponents? ty components = some w →
    w.ty = ty ∧ ∀ i : Nat, w.components[i]? = components[i]?.map fun c => c.convert ty.kind
  /-- A reader that loads arrays and columns finds these values, without an access out of range. -/
  read : ∀ (ty : ValueType) (components : List Scalar),
    ∃ layout, Layout.read ty components = .ok layout ∧ layout.map Layout.value = ofComponents? ty components
  /-- Values and layouts correspond to each other, and a layout is read back from its components. -/
  layout : ∀ v : Value, ∃! layout : Layout v.ty, layout.value = v
  reread : ∀ (ty : ValueType) (layout : Layout ty), Layout.read ty layout.value.components = .ok (some layout)
  /-- The components of a matrix are those of its columns, one column after the other. -/
  columns : ∀ (ty : ValueType) (hmatrix : ty.isMatrix = true)
    (columns : Vector (Vector ty.kind.Number ty.dim.width) ty.dim.width) (column row : Fin ty.dim.width),
    (Layout.columns hmatrix columns).value.components[(column : Nat) * ty.dim.width + row]? =
      some (.ofNumber ty.kind ((columns.get column).get row))

/-- For all types and all lists of scalars, listing the components of a value and building a value from scalars are
inverse to each other; scalars are converted place by place, and nothing is read out of range. -/
theorem layout_laws : LayoutLaws where
  rebuilt v := ⟨v.ofComponents?_components, v.length_components, v.kind_of_mem⟩
  none_iff ty components := by
    unfold ofComponents?
    by_cases h : components.length = ty.componentCount <;> simp [h]
  built ty components w h := by
    unfold ofComponents? at h
    split at h
    · cases h
      exact ⟨rfl, fun i => List.getElem?_map ..⟩
    · exact absurd h nofun
  read := Layout.exists_read_eq
  layout v := by
    obtain ⟨layout, hlayout⟩ := v.exists_layout
    refine ⟨layout, hlayout, fun other hother => Layout.scalars_injective ?_⟩
    exact congrArg components (hother.trans hlayout.symm)
  reread ty layout := layout.read_scalars
  columns ty hmatrix columns column row := by
    show (columns.flatten.toList.map (Scalar.ofNumber ty.kind))[_]? = _
    rw [List.getElem?_map, getElem?_flatten]
    rfl

end Value

end ShaderExpr
