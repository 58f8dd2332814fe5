import ShaderExpr.Scalar

/-!
# Values

A value of a type is the list of its components, in column order for matrices.  The list has as many
components as the type asks for, and all of them are of its kind.

* `Value.ofComponents?` builds a value from scalars of any kinds, exactly when their number is right;
* `Value.ofComponents?_components` is the inverse on the components of a value.
-/

namespace ShaderExpr

structure Value where
  ty : ValueType
  components : List Scalar
  length_components : components.length = ty.componentCount
  kind_of_mem : ∀ c ∈ components, c.kind = ty.kind
  deriving DecidableEq

namespace Value

theorem ext {v w : Value} (hty : v.ty = w.ty) (hcomponents : v.components = w.components) : v = w := by
  cases v
  cases w
  cases hty
  cases hcomponents
  rfl

/-- The value of a type that the given scalars form, converted to its kind; `none` if their number is
wrong. -/
def ofComponents? (ty : ValueType) (components : List Scalar) : Option Value :=
  if h : components.length = ty.componentCount then
    some
      { ty
        components := components.map fun c => c.convert ty.kind
        length_components := by rw [List.length_map, h]
        kind_of_mem := by
          intro c hc
          obtain ⟨s, _, rfl⟩ := List.mem_map.1 hc
          exact s.kind_convert ty.kind }
  else none

/-- Converting the components of a value to their own kind changes nothing. -/
theorem map_convert_components (v : Value) :
    (v.components.map fun c => c.convert v.ty.kind) = v.components := by
  have h : ∀ c ∈ v.components, c.convert v.ty.kind = id c := by
    intro c hc
    rw [← v.kind_of_mem c hc]
    exact c.convert_kind
  rw [List.map_congr_left h, List.map_id]

/-- A value is rebuilt from its components. -/
theorem ofComponents?_components (v : Value) : ofComponents? v.ty v.components = some v := by
  unfold ofComponents?
  rw [dif_pos v.length_components]
  exact congrArg some (ext rfl v.map_convert_components)

def ofScalar (s : Scalar) : Value where
  ty := s.kind.scalarType
  components := [s]
  length_components := by cases s <;> rfl
  kind_of_mem := by
    intro c hc
    rw [List.mem_singleton.1 hc]
    cases s <;> rfl

def ofBool (b : Bool) : Value := ofScalar (.bool b)

def ofInt (i : Int32) : Value := ofScalar (.int i)

def ofUInt (u : UInt32) : Value := ofScalar (.uint u)

def ofFloat (f : Float32) : Value := ofScalar (.float f)

/-- The value that a uniform starts with: zero, `false`, or the identity matrix. -/
def initial (ty : ValueType) : Value where
  ty := ty
  components := (List.range ty.componentCount).map fun i =>
    (Scalar.bool (ty.isMatrix && i % (ty.dim.width + 1) = 0)).convert ty.kind
  length_components := by rw [List.length_map, List.length_range]
  kind_of_mem := by
    intro c hc
    obtain ⟨i, _, rfl⟩ := List.mem_map.1 hc
    exact Scalar.kind_convert _ _

def floats (v : Value) : List Float32 :=
  v.components.map Scalar.toFloat

end Value

end ShaderExpr
