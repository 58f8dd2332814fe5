import ShaderExpr.Proofs.Commuting
import ShaderExpr.Proofs.Conversions

/-!
# Integers of 32 bits

A signed or unsigned integer of 32 bits stands for an integer (`Scalar.integer`), and there is only one for each integer
modulo `2 ^ 32` (`Scalar.Integers.eq_of_modEq`).  Products, sums and differences are those of the integers, modulo
`2 ^ 32`; a quotient is that of the integers, truncated toward zero, and exists unless the divisor is zero or the
quotient is too large; and comparisons are those of the integers.

Operators on vectors work at each place for itself, where a number is at all places (`Value.at?`).  So an operator has a
value exactly if it has one at each place (`Value.exists_componentwise_iff`), and `Value.at?_componentwise` tells what
is at each place of it.
-/

namespace ShaderExpr

namespace Scalar

/-- The integer that a scalar stands for; a boolean stands for one or zero. -/
def integer : Scalar → Int
  | bool b => if b then 1 else 0
  | int i => i.toInt
  | uint u => u.toNat
  | float _ => 0

@[simp]
theorem integer_int (i : Int32) : (int i).integer = i.toInt :=
  rfl

@[simp]
theorem integer_uint (u : UInt32) : (uint u).integer = u.toNat :=
  rfl

/-- Two integers of one kind. -/
inductive Integers : Scalar → Scalar → Prop where
  | signed (x y : Int32) : Integers (int x) (int y)
  | unsigned (x y : UInt32) : Integers (uint x) (uint y)

variable {c d : Scalar}

theorem integers_of_kind (hc : c.kind.IsInteger) (hkind : d.kind = c.kind) : Integers c d := by
  cases c with
  | int x =>
    cases d with
    | int y => exact .signed x y
    | _ => exact absurd hkind nofun
  | uint x =>
    cases d with
    | uint y => exact .unsigned x y
    | _ => exact absurd hkind nofun
  | bool | float => exact absurd hc (by simp [Kind.IsInteger, kind])

theorem Integers.isInteger (h : c.Integers d) : c.kind.IsInteger := by
  cases h with
  | signed => exact .inl rfl
  | unsigned => exact .inr rfl

/-- There is one scalar of a kind for each integer modulo `2 ^ 32`. -/
theorem Integers.eq_of_modEq (h : c.Integers d) (hinteger : c.integer ≡ d.integer [ZMOD 2 ^ 32]) : c = d := by
  unfold Int.ModEq at hinteger
  cases h with
  | signed x y =>
    have := x.le_toInt
    have := x.toInt_lt
    have := y.le_toInt
    have := y.toInt_lt
    simp only [integer_int] at hinteger
    exact congrArg int (Int32.toInt_inj.1 (by omega))
  | unsigned x y =>
    have := x.toNat_lt
    have := y.toNat_lt
    simp only [integer_uint] at hinteger
    exact congrArg uint (UInt32.toNat_inj.1 (by omega))

/-- A division of integers that has a quotient of their kind: not by zero, and not the one that is too large. -/
structure Divides (c d : Scalar) : Prop where
  divisor : d.integer ≠ 0
  quotient : ¬ (c.kind = .int ∧ c.integer = -2 ^ 31 ∧ d.integer = -1)

theorem divides_int_iff {x y : Int32} : (int x).Divides (int y) ↔ ¬ (y = 0 ∨ x = Int32.minValue ∧ y = -1) := by
  have hdivides : (int x).Divides (int y) ↔ y.toInt ≠ 0 ∧ ¬ (x.toInt = -2 ^ 31 ∧ y.toInt = -1) :=
    ⟨fun h => ⟨h.divisor, fun hlarge => h.quotient ⟨rfl, hlarge⟩⟩, fun h => ⟨h.1, fun hlarge => h.2 hlarge.2⟩⟩
  rw [hdivides, ← Int32.toInt_inj, ← Int32.toInt_inj, ← Int32.toInt_inj, Int32.toInt_minValue]
  simp only [Int32.toInt_zero, Int32.reduceToInt]
  tauto

theorem divides_uint_iff {x y : UInt32} : (uint x).Divides (uint y) ↔ ¬ y = 0 := by
  have hzero : y = 0 ↔ (y.toNat : Int) = 0 := by
    rw [← UInt32.toNat_inj]
    simp
  rw [hzero]
  exact ⟨fun h => h.divisor, fun h => ⟨h, fun hint => absurd hint.1 nofun⟩⟩

end Scalar

namespace BinaryOp

variable {op : BinaryOp} {c d e : Scalar}

/-- Operators without division and comparison. -/
def IsRing (op : BinaryOp) : Prop :=
  op = mul ∨ op = add ∨ op = sub

theorem IsRing.ne_lessThan (hop : op.IsRing) : op ≠ lessThan := by
  rintro rfl
  simp [IsRing] at hop

/-- What an operator gives for integers without a bound; a quotient is truncated toward zero, and a comparison gives one
if it is true. -/
def exact : BinaryOp → Int → Int → Int
  | mul, x, y => x * y
  | add, x, y => x + y
  | sub, x, y => x - y
  | div, x, y => x.tdiv y
  | lessThan, x, y => if x < y then 1 else 0

/-- Exact integers that agree modulo a number have results that agree. -/
theorem IsRing.exact_modEq (hop : op.IsRing) {x x' y y' m : Int} (hx : x ≡ x' [ZMOD m]) (hy : y ≡ y' [ZMOD m]) :
    op.exact x y ≡ op.exact x' y' [ZMOD m] := by
  rcases hop with rfl | rfl | rfl
  · exact hx.mul hy
  · exact hx.add hy
  · exact hx.sub hy

private theorem onInts_modEq (hop : op.IsRing) (x y : Int32) :
    ∃ z : Int32, op.onInts x y = .ok (.int z) ∧ z.toInt ≡ op.exact x.toInt y.toInt [ZMOD 2 ^ 32] := by
  have hbmod : ∀ i : Int, i.bmod (2 ^ 32) ≡ i [ZMOD 2 ^ 32] := fun i => Int.bmod_emod
  rcases hop with rfl | rfl | rfl
  · exact ⟨x * y, rfl, Int32.toInt_mul x y ▸ hbmod _⟩
  · exact ⟨x + y, rfl, Int32.toInt_add x y ▸ hbmod _⟩
  · exact ⟨x - y, rfl, Int32.toInt_sub x y ▸ hbmod _⟩

private theorem onUInts_modEq (hop : op.IsRing) (x y : UInt32) :
    ∃ z : UInt32, op.onUInts x y = .ok (.uint z) ∧ (z.toNat : Int) ≡ op.exact x.toNat y.toNat [ZMOD 2 ^ 32] := by
  have := y.toNat_lt
  unfold Int.ModEq
  rcases hop with rfl | rfl | rfl
  · refine ⟨x * y, rfl, ?_⟩
    rw [UInt32.toNat_mul]
    simp [exact]
  · refine ⟨x + y, rfl, ?_⟩
    rw [UInt32.toNat_add]
    simp [exact]
  · refine ⟨x - y, rfl, ?_⟩
    rw [UInt32.toNat_sub]
    simp only [exact]
    omega

private theorem toInt_div {x y : Int32} (h : (Scalar.int x).Divides (.int y)) :
    (x / y).toInt = x.toInt.tdiv y.toInt := by
  by_cases hx : x = Int32.minValue
  · exact Int32.toInt_div_of_ne_right x y fun hy => Scalar.divides_int_iff.1 h (.inr ⟨hx, hy⟩)
  · exact Int32.toInt_div_of_ne_left x y hx

/-- Products, sums and differences of integers are exact modulo `2 ^ 32`. -/
theorem exists_onScalars (hop : op.IsRing) (h : c.Integers d) :
    ∃ e, op.onScalars c d = .ok e ∧ e.kind = c.kind ∧ e.integer ≡ op.exact c.integer d.integer [ZMOD 2 ^ 32] := by
  cases h with
  | signed x y =>
    obtain ⟨z, hz, hexact⟩ := onInts_modEq hop x y
    exact ⟨.int z, hz, rfl, hexact⟩
  | unsigned x y =>
    obtain ⟨z, hz, hexact⟩ := onUInts_modEq hop x y
    exact ⟨.uint z, hz, rfl, hexact⟩

/-- Quotients of integers are exact. -/
theorem exists_onScalars_div (h : c.Integers d) (hdivides : c.Divides d) :
    ∃ e, div.onScalars c d = .ok e ∧ e.kind = c.kind ∧ e.integer = c.integer.tdiv d.integer := by
  cases h with
  | signed x y => exact ⟨.int (x / y), if_neg (Scalar.divides_int_iff.1 hdivides), rfl, toInt_div hdivides⟩
  | unsigned x y =>
    refine ⟨.uint (x / y), if_neg (Scalar.divides_uint_iff.1 hdivides), rfl, ?_⟩
    simp [UInt32.toNat_div]

/-- There are no other quotients. -/
theorem onScalars_div_eq_error (h : c.Integers d) (hdivides : ¬ c.Divides d) :
    div.onScalars c d = .error .divisionByZero := by
  cases h with
  | signed x y => exact if_pos (not_not.1 (mt Scalar.divides_int_iff.2 hdivides))
  | unsigned x y => exact if_pos (not_not.1 (mt Scalar.divides_uint_iff.2 hdivides))

theorem onScalars_lessThan (h : c.Integers d) : lessThan.onScalars c d = .ok (.bool (c.integer < d.integer)) := by
  cases h with
  | signed x y => exact congrArg (Except.ok ∘ Scalar.bool) (decide_eq_decide.2 Int32.lt_iff_toInt_lt)
  | unsigned x y =>
    refine congrArg (Except.ok ∘ Scalar.bool) (decide_eq_decide.2 ?_)
    rw [UInt32.lt_iff_toNat_lt]
    simp

/-- So the result is known by its kind and its integer modulo `2 ^ 32`. -/
theorem onScalars_eq_ok_iff (hop : op.IsRing) (h : c.Integers d) :
    op.onScalars c d = .ok e ↔ e.kind = c.kind ∧ e.integer ≡ op.exact c.integer d.integer [ZMOD 2 ^ 32] := by
  obtain ⟨z, hz, hkind, hexact⟩ := exists_onScalars hop h
  rw [hz]
  constructor
  · intro he
    cases he
    exact ⟨hkind, hexact⟩
  · rintro ⟨hekind, he⟩
    refine congrArg Except.ok (Scalar.Integers.eq_of_modEq ?_ (hexact.trans he.symm))
    exact Scalar.integers_of_kind (hkind ▸ h.isInteger) (hekind.trans hkind.symm)

theorem onScalars_div_eq_ok_iff (h : c.Integers d) :
    div.onScalars c d = .ok e ↔ c.Divides d ∧ e.kind = c.kind ∧ e.integer = c.integer.tdiv d.integer := by
  by_cases hdivides : c.Divides d
  · obtain ⟨z, hz, hkind, hexact⟩ := exists_onScalars_div h hdivides
    rw [hz]
    constructor
    · intro he
      cases he
      exact ⟨hdivides, hkind, hexact⟩
    · rintro ⟨_, hekind, he⟩
      refine congrArg Except.ok (Scalar.Integers.eq_of_modEq ?_ (hexact.trans he.symm ▸ rfl))
      exact Scalar.integers_of_kind (hkind ▸ h.isInteger) (hekind.trans hkind.symm)
  · rw [onScalars_div_eq_error h hdivides]
    exact iff_of_false nofun fun he => hdivides he.1

/-- Pairs combine if each of them does. -/
theorem exists_onPairs_iff {xs ys : List Scalar} :
    (∃ zs, op.onPairs xs ys = .ok zs) ↔
      ∀ (i : Nat) (x y : Scalar), xs[i]? = some x → ys[i]? = some y → ∃ z, op.onScalars x y = .ok z := by
  constructor
  · rintro ⟨zs, h⟩ i x y hx hy
    obtain ⟨z, hz, _⟩ := getElem?_onPairs h hx hy
    exact ⟨z, hz⟩
  · intro h
    induction xs generalizing ys with
    | nil => exact ⟨[], by unfold onPairs; rfl⟩
    | cons x xs ih =>
      cases ys with
      | nil => exact ⟨[], by unfold onPairs; rfl⟩
      | cons y ys =>
        obtain ⟨z, hz⟩ := h 0 x y rfl rfl
        obtain ⟨zs, hzs⟩ := ih fun i x y hx hy => h (i + 1) x y hx hy
        exact ⟨z :: zs, onPairs_cons_eq_ok.2 ⟨z, zs, hz, hzs, rfl⟩⟩

theorem length_onPairs {xs ys zs : List Scalar} (hlength : ys.length = xs.length) (h : op.onPairs xs ys = .ok zs) :
    zs.length = xs.length := by
  induction xs generalizing ys zs with
  | nil =>
    unfold onPairs at h
    cases h
    rfl
  | cons x xs ih =>
    cases ys with
    | nil => simp at hlength
    | cons y ys =>
      obtain ⟨z, rest, _, hrest, rfl⟩ := onPairs_cons_eq_ok.1 h
      exact congrArg Nat.succ (ih (Nat.succ.inj hlength) hrest)

end BinaryOp

/-! ### Values at each place -/

namespace Value

variable {op : BinaryOp} {v w z : Value} {i : Nat} {c d e : Scalar}

/-- The component of a value at a place; a number is at all places. -/
def at? (v : Value) (i : Nat) : Option Scalar :=
  v.components[if v.ty.isScalar then 0 else i]?

theorem kind_of_at? (h : v.at? i = some c) : c.kind = v.ty.kind :=
  v.kind_of_mem c (List.mem_of_getElem? h)

theorem length_of_isScalar (h : v.ty.isScalar = true) : v.components.length = 1 := by
  rw [v.length_components]
  revert h
  cases v.ty <;> decide

/-- Every component is at its index. -/
theorem at?_of_getElem? (h : v.components[i]? = some c) : v.at? i = some c := by
  unfold at?
  split
  · rename_i hscalar
    have hlt := (List.getElem?_eq_some_iff.1 h).1
    rw [length_of_isScalar hscalar] at hlt
    rwa [show 0 = i by omega]
  · exact h

/-- Values are equal if they are at each place. -/
theorem ext_at? (hty : v.ty = w.ty) (h : ∀ i c d, v.at? i = some c → w.at? i = some d → c = d) : v = w := by
  have hlength : v.components.length = w.components.length := by
    rw [v.length_components, w.length_components, hty]
  refine ext hty (List.ext_getElem hlength fun i hv hw => ?_)
  exact h i _ _ (at?_of_getElem? (List.getElem?_eq_getElem hv)) (at?_of_getElem? (List.getElem?_eq_getElem hw))

/-- Operands of an operator that works component by component: two of one type, or a number on the right. -/
structure Pairs (v w : Value) : Prop where
  not_matrix : v.ty.isMatrix = false
  right : w.ty = v.ty ∨ w.ty = v.ty.scalarType

namespace Pairs

variable (h : Pairs v w)

include h

theorem kind_eq : w.ty.kind = v.ty.kind := by
  rcases h.right with hty | hty <;> rw [hty]
  exact v.ty.kind_scalarType

theorem length_broadcast : (broadcast v.components.length w.components).length = v.components.length := by
  refine Value.length_broadcast ?_
  rcases h.right with hty | hty
  · rw [w.length_components, v.length_components, hty]
    exact .inr rfl
  · refine .inl (length_of_isScalar ?_)
    rw [hty]
    exact v.ty.isScalar_scalarType

/-- What is paired with the component at a place is the other operand at this place. -/
theorem getElem?_broadcast (hc : v.at? i = some c) :
    (broadcast v.components.length w.components)[if v.ty.isScalar then 0 else i]? = w.at? i := by
  have hlt := (List.getElem?_eq_some_iff.1 hc).1
  rcases h.right with hty | hty
  · have hlength : w.components.length = v.components.length := by
      rw [w.length_components, v.length_components, hty]
    rw [broadcast_eq_self hlength]
    unfold at?
    rw [hty]
  · have hscalar : w.ty.isScalar = true := hty ▸ v.ty.isScalar_scalarType
    obtain ⟨d, hd⟩ := List.length_eq_one_iff.1 (length_of_isScalar hscalar)
    unfold at?
    rw [if_pos hscalar, hd]
    exact List.getElem?_replicate_of_lt hlt

end Pairs

/-- An operator has a value if it has one at each place. -/
theorem exists_componentwise_iff (h : Pairs v w) :
    (∃ z, componentwise op v.ty v w = .ok z) ↔
      ∀ i c d, v.at? i = some c → w.at? i = some d → ∃ e, op.onScalars c d = .ok e := by
  have hpairs : (∃ z, componentwise op v.ty v w = .ok z) ↔
      ∃ zs, op.onPairs v.components (broadcast v.components.length w.components) = .ok zs := by
    simp only [componentwise_eq_ok]
    constructor
    · rintro ⟨_, _, zs, hzs, _⟩
      exact ⟨zs, hzs⟩
    · rintro ⟨zs, hzs⟩
      have hlength := (BinaryOp.length_onPairs h.length_broadcast hzs).trans v.length_components
      obtain ⟨z, hz, _⟩ := rebuild_ok hlength
      exact ⟨z, h.length_broadcast, zs, hzs, hz⟩
  rw [hpairs, BinaryOp.exists_onPairs_iff]
  constructor
  · intro hall i c d hc hd
    exact hall _ c d hc ((h.getElem?_broadcast hc).trans hd)
  · intro hall i c d hc hd
    have hplace := at?_of_getElem? hc
    have hlt := (List.getElem?_eq_some_iff.1 hc).1
    refine hall i c d hplace ?_
    rw [← h.getElem?_broadcast hplace]
    split
    · rename_i hscalar
      rw [length_of_isScalar hscalar] at hlt
      rwa [show 0 = i by omega]
    · exact hd

/-- What is at a place of the result has been combined from what is there of the operands. -/
theorem at?_componentwise (h : Pairs v w) (hop : op ≠ .lessThan) (hz : componentwise op v.ty v w = .ok z) :
    z.ty = v.ty ∧ ∀ i e, z.at? i = some e ↔
      ∃ c d, v.at? i = some c ∧ w.at? i = some d ∧ op.onScalars c d = .ok e := by
  obtain ⟨_, zs, hzs, hrebuild⟩ := componentwise_eq_ok.1 hz
  obtain ⟨hty, hcomponents⟩ := components_of_rebuild hrebuild (BinaryOp.kind_of_mem_onPairs hop v.kind_of_mem hzs)
  refine ⟨hty, fun i e => ?_⟩
  have hat : z.at? i = zs[if v.ty.isScalar then 0 else i]? := by
    unfold at?
    rw [hty, hcomponents]
  rw [hat]
  constructor
  · intro he
    have hlt := (List.getElem?_eq_some_iff.1 he).1
    rw [BinaryOp.length_onPairs h.length_broadcast hzs] at hlt
    have hc : v.at? i = some _ := List.getElem?_eq_getElem hlt
    have hd := List.getElem?_eq_getElem (h.length_broadcast.symm ▸ hlt)
    obtain ⟨e', hcombined, he'⟩ := BinaryOp.getElem?_onPairs hzs hc hd
    cases Option.some.inj (he.symm.trans he')
    exact ⟨_, _, hc, (h.getElem?_broadcast hc).symm.trans hd, hcombined⟩
  · rintro ⟨c, d, hc, hd, he⟩
    obtain ⟨e', hcombined, he'⟩ := BinaryOp.getElem?_onPairs hzs hc ((h.getElem?_broadcast hc).trans hd)
    cases hcombined.symm.trans he
    exact he'

section

variable (h : Pairs v w) (hkind : v.ty.kind.IsInteger)

include h hkind

theorem Pairs.integers (hc : v.at? i = some c) (hd : w.at? i = some d) : c.Integers d := by
  refine Scalar.integers_of_kind ?_ ?_
  · rwa [kind_of_at? hc]
  · rw [kind_of_at? hc, kind_of_at? hd, h.kind_eq]

/-- Products, sums and differences have values, which are exact modulo `2 ^ 32` at each place. -/
theorem exists_componentwise_ring (hop : op.IsRing) :
    ∃ z, componentwise op v.ty v w = .ok z ∧ z.ty = v.ty ∧ ∀ i e, z.at? i = some e ↔
      ∃ c d, v.at? i = some c ∧ w.at? i = some d ∧ e.kind = v.ty.kind ∧
        e.integer ≡ op.exact c.integer d.integer [ZMOD 2 ^ 32] := by
  obtain ⟨z, hz⟩ := (exists_componentwise_iff h).2 fun i c d hc hd =>
    (BinaryOp.exists_onScalars hop (h.integers hkind hc hd)).imp fun _ he => he.1
  obtain ⟨hty, hat⟩ := at?_componentwise h hop.ne_lessThan hz
  refine ⟨z, hz, hty, fun i e => (hat i e).trans ?_⟩
  refine exists_congr fun c => exists_congr fun d => and_congr_right fun hc => and_congr_right fun hd => ?_
  rw [BinaryOp.onScalars_eq_ok_iff hop (h.integers hkind hc hd), kind_of_at? hc]

/-- Quotients have values if all of them exist. -/
theorem exists_componentwise_div_iff :
    (∃ z, componentwise .div v.ty v w = .ok z) ↔
      ∀ i c d, v.at? i = some c → w.at? i = some d → c.Divides d := by
  rw [exists_componentwise_iff h]
  refine forall_congr' fun i => forall_congr' fun c => forall_congr' fun d =>
    imp_congr_right fun hc => imp_congr_right fun hd => ?_
  have hintegers := h.integers hkind hc hd
  constructor
  · rintro ⟨e, he⟩
    exact ((BinaryOp.onScalars_div_eq_ok_iff hintegers).1 he).1
  · intro hdivides
    exact (BinaryOp.exists_onScalars_div hintegers hdivides).imp fun _ he => he.1

/-- They are exact at each place. -/
theorem at?_componentwise_div (hz : componentwise .div v.ty v w = .ok z) :
    z.ty = v.ty ∧ ∀ i e, z.at? i = some e ↔
      ∃ c d, v.at? i = some c ∧ w.at? i = some d ∧ e.kind = v.ty.kind ∧ e.integer = c.integer.tdiv d.integer := by
  have hdivides := (exists_componentwise_div_iff h hkind).1 ⟨z, hz⟩
  have hdiv : BinaryOp.div ≠ .lessThan := nofun
  obtain ⟨hty, hat⟩ := at?_componentwise h hdiv hz
  refine ⟨hty, fun i e => (hat i e).trans ?_⟩
  refine exists_congr fun c => exists_congr fun d => and_congr_right fun hc => and_congr_right fun hd => ?_
  rw [BinaryOp.onScalars_div_eq_ok_iff (h.integers hkind hc hd), kind_of_at? hc]
  exact and_iff_right (hdivides i c d hc hd)

/-- Numbers are compared as integers. -/
theorem componentwise_lessThan (hscalar : v.ty.isScalar = true) :
    ∃ c d, v.at? 0 = some c ∧ w.at? 0 = some d ∧
      componentwise .lessThan .bool v w = .ok (.ofBool (c.integer < d.integer)) := by
  obtain ⟨c, hc⟩ := List.length_eq_one_iff.1 (length_of_isScalar hscalar)
  have hlength := h.length_broadcast
  rw [hc] at hlength
  obtain ⟨d, hd⟩ := List.length_eq_one_iff.1 hlength
  have hcat : v.at? 0 = some c := at?_of_getElem? (by rw [hc]; rfl)
  have hdat : w.at? 0 = some d := by
    rw [← h.getElem?_broadcast hcat, hc]
    simp only [List.length_singleton] at hd ⊢
    rw [hd]
    simp
  refine ⟨c, d, hcat, hdat, ?_⟩
  have hpair := BinaryOp.onScalars_lessThan (h.integers hkind hcat hdat)
  refine componentwise_eq_ok.2 ⟨h.length_broadcast, [.bool (c.integer < d.integer)], ?_, ?_⟩
  · rw [hc, hd]
    exact BinaryOp.onPairs_cons_eq_ok.2 ⟨_, [], hpair, by unfold BinaryOp.onPairs; rfl, rfl⟩
  · exact rebuild_components (ofBool _)

end

end Value

end ShaderExpr
