import ShaderExpr.Proofs.Number.Values

/-!
# What a literal unifies with

A literal unifies with an integer kind exactly if the number that it stands for is an integer of the kind, and then it
becomes this integer.  It unifies with floats as its rounding to single precision, unless it is finite and the rounding
is out of range.  So nothing is truncated, wrapped, or made infinite (`Literal.unification`).

The literals that are made of scalars unify with their own kind as the same scalars.
-/

namespace ShaderExpr

open FloatFormat

namespace Literal

variable {x : Literal}

def datum (x : Literal) : Datum :=
  Datum.ofFloat x.number

theorem intIn?_eq_some_iff {low high i : Int} :
    x.intIn? low high = some i ↔ (low ≤ i ∧ i ≤ high) ∧ x.datum.value? = some (i : ℚ) := by
  unfold intIn?
  rw [Option.filter_eq_some_iff, decide_eq_true_iff, Datum.toInt?_eq_some_iff]
  exact and_comm

theorem unify?_int_eq_some_iff {v : Value} : x.unify? .int = some v ↔
    ∃ i : Int, (-2 ^ 31 ≤ i ∧ i < 2 ^ 31) ∧ x.datum.value? = some (i : ℚ) ∧
      ∃ w : Int32, w.toInt = i ∧ v = .ofInt w := by
  have hlow : Int32.minValue.toInt = -2 ^ 31 := by decide
  have hhigh : Int32.maxValue.toInt = 2 ^ 31 - 1 := by decide
  show (x.intIn? _ _).map _ = some v ↔ _
  rw [Option.map_eq_some_iff, hlow, hhigh]
  refine exists_congr fun i => ?_
  rw [intIn?_eq_some_iff, and_assoc, Int.le_sub_one_iff]
  refine and_congr_right fun hi => and_congr_right fun _ => ?_
  have hword : (Int32.ofInt i).toInt = i := Int32.toInt_ofInt_of_le hi.1 hi.2
  constructor
  · rintro rfl
    exact ⟨_, hword, rfl⟩
  · rintro ⟨w, hw, rfl⟩
    rw [Int32.toInt_inj.1 (hword.trans hw.symm)]

theorem unify?_uint_eq_some_iff {v : Value} : x.unify? .uint = some v ↔
    ∃ m : Nat, m < 2 ^ 32 ∧ x.datum.value? = some (m : ℚ) ∧ ∃ u : UInt32, u.toNat = m ∧ v = .ofUInt u := by
  show (x.intIn? 0 (2 ^ 32 - 1)).map _ = some v ↔ _
  rw [Option.map_eq_some_iff]
  constructor
  · rintro ⟨i, hi, rfl⟩
    obtain ⟨⟨hlow, hhigh⟩, hvalue⟩ := intIn?_eq_some_iff.1 hi
    obtain ⟨m, rfl⟩ := Int.eq_ofNat_of_zero_le hlow
    have hm : m < 2 ^ 32 := by omega
    exact ⟨m, hm, by exact_mod_cast hvalue, _, UInt32.toNat_ofNat_of_lt' hm, rfl⟩
  · rintro ⟨m, hm, hvalue, u, rfl, rfl⟩
    refine ⟨u.toNat, intIn?_eq_some_iff.2 ⟨⟨Int.natCast_nonneg _, by omega⟩, by exact_mod_cast hvalue⟩, ?_⟩
    exact congrArg Value.ofUInt UInt32.ofNat_toNat

/-- A literal is rounded, or it is finite and its rounding is out of range. -/
private theorem float?_cases (x : Literal) :
    (∃ f, x.float? = some f ∧ binary32.Rounds x.datum (.ofFloat32 f)) ∨
      x.float? = none ∧ ∃ q, x.datum.value? = some q ∧ binary32.overflow ≤ |q| := by
  obtain ⟨d, hrounds, hfloat⟩ := Datum.ofFloat32_toFloat32 x.datum
  have hunfold : x.float? = if x.datum.isFinite ∧ ¬ (Datum.ofFloat32 x.datum.toFloat32).isFinite then none
      else some x.datum.toFloat32 := rfl
  rw [hunfold, hfloat]
  cases hq : x.datum.value? with
  | none =>
    have hinfinite : x.datum.isFinite = false := by rw [← Datum.isSome_value?, hq, Option.isSome_none]
    refine .inl ⟨_, if_neg fun h => Bool.false_ne_true (hinfinite.symm.trans h.1), ?_⟩
    rw [hfloat, hrounds.clamp_of_not_finite hinfinite]
    exact hrounds
  | some q =>
    have hfinite : x.datum.isFinite = true := by rw [← Datum.isSome_value?, hq, Option.isSome_some]
    rcases hrounds.clamp_cases regular_binary32 hq with ⟨_, hkept⟩ | ⟨hbeyond, hinfinite⟩
    · refine .inl ⟨_, if_neg fun h => h.2 ?_, ?_⟩
      · rw [hfloat, hkept]
        exact hrounds
      · rw [hkept, hrounds.isFinite_eq, hfinite]
    · exact .inr ⟨if_pos ⟨hfinite, Bool.eq_false_iff.1 hinfinite⟩, q, rfl, hbeyond⟩

/-- What is rounded to a float is below the end of the range. -/
private theorem not_overflow_le {f : Float32} {q : ℚ} (h : binary32.Rounds x.datum (.ofFloat32 f))
    (hq : x.datum.value? = some q) : ¬ binary32.overflow ≤ |q| := by
  intro hle
  rcases h.clamp_cases regular_binary32 hq with ⟨hlt, _⟩ | ⟨_, hinfinite⟩
  · exact absurd hle (not_le.2 hlt)
  · rw [Datum.clamp_ofFloat32, h.isFinite_eq, ← Datum.isSome_value?, hq] at hinfinite
    exact Bool.noConfusion hinfinite

/-- A literal becomes the float that it is rounded to. -/
theorem float?_eq_some_iff {f : Float32} : x.float? = some f ↔ binary32.Rounds x.datum (.ofFloat32 f) := by
  rcases float?_cases x with ⟨f', hsome, hrounds⟩ | ⟨hnone, q, hq, hbeyond⟩
  · rw [hsome, Option.some_inj]
    constructor
    · rintro rfl
      exact hrounds
    · exact fun h => Datum.ofFloat32_injective (hrounds.unique regular_binary32 h)
  · rw [hnone]
    exact iff_of_false nofun fun h => not_overflow_le h hq hbeyond

/-- A literal becomes no float from the end of the range on. -/
theorem float?_eq_none_iff : x.float? = none ↔ ∃ q, x.datum.value? = some q ∧ binary32.overflow ≤ |q| := by
  rcases float?_cases x with ⟨f', hsome, hrounds⟩ | ⟨hnone, hbeyond⟩
  · rw [hsome]
    exact iff_of_false nofun fun ⟨q, hq, hbeyond⟩ => not_overflow_le hrounds hq hbeyond
  · exact iff_of_true hnone hbeyond

/-- A number is beyond the end of the range if its rounding is. -/
theorem overflow_iff_rounds : (∃ q, x.datum.value? = some q ∧ binary32.overflow ≤ |q|) ↔
    ∃ d r, binary32.Rounds x.datum d ∧ d.value? = some r ∧ 2 ^ 128 ≤ |r| := by
  constructor
  · rintro ⟨q, hq, hbeyond⟩
    obtain ⟨d, hrounds, _⟩ := Datum.ofFloat32_toFloat32 x.datum
    obtain ⟨r, hr⟩ := (hrounds.exists_value?_iff).2 ⟨q, hq⟩
    rw [hrounds.overflow_le_iff regular_binary32 hq hr, Datum.magnitude_exponentEnd_binary32] at hbeyond
    exact ⟨d, r, hrounds, hr, hbeyond⟩
  · rintro ⟨d, r, hrounds, hr, hbeyond⟩
    obtain ⟨q, hq⟩ := (hrounds.exists_value?_iff).1 ⟨r, hr⟩
    refine ⟨q, hq, ?_⟩
    rwa [hrounds.overflow_le_iff regular_binary32 hq hr, Datum.magnitude_exponentEnd_binary32]

theorem value?_datum_ofInt {i : Int} (hi : i.natAbs < 2 ^ 53) : (ofInt i).datum.value? = some (i : ℚ) :=
  Datum.value?_ofFloat_ofInt hi

theorem unify?_int_ofInt (w : Int32) : (ofInt w.toInt).unify? .int = some (.ofInt w) := by
  have hlow := w.le_toInt
  have hhigh := w.toInt_lt
  exact unify?_int_eq_some_iff.2 ⟨w.toInt, ⟨hlow, hhigh⟩, value?_datum_ofInt (by omega), w, rfl, rfl⟩

theorem unify?_uint_ofInt (u : UInt32) : (ofInt u.toNat).unify? .uint = some (.ofUInt u) := by
  have hu := u.toNat_lt
  exact unify?_uint_eq_some_iff.2 ⟨u.toNat, hu, value?_datum_ofInt (by omega), u, rfl, rfl⟩

/-- What literals unify with, by their exact values. -/
structure UnifiesExactly : Prop where
  bool (x : Literal) : x.unify? .bool = none
  int (x : Literal) (v : Value) : x.unify? .int = some v ↔
    ∃ i : Int, (-2 ^ 31 ≤ i ∧ i < 2 ^ 31) ∧ x.datum.value? = some (i : ℚ) ∧ ∃ w : Int32, w.toInt = i ∧ v = .ofInt w
  uint (x : Literal) (v : Value) : x.unify? .uint = some v ↔
    ∃ m : Nat, m < 2 ^ 32 ∧ x.datum.value? = some (m : ℚ) ∧ ∃ u : UInt32, u.toNat = m ∧ v = .ofUInt u
  float (x : Literal) (v : Value) : x.unify? .float = some v ↔
    ∃ f : Float32, binary32.Rounds x.datum (.ofFloat32 f) ∧ v = .ofFloat f
  float_eq_none (x : Literal) : x.unify? .float = none ↔
    ∃ d r, binary32.Rounds x.datum d ∧ d.value? = some r ∧ 2 ^ 128 ≤ |r|
  float_eq_none_of_value (x : Literal) : x.unify? .float = none ↔
    ∃ q, x.datum.value? = some q ∧ 2 ^ 128 - 2 ^ 103 ≤ |q|
  float_isFinite (x : Literal) (f : Float32) : x.unify? .float = some (.ofFloat f) →
    (Datum.ofFloat32 f).isFinite = x.datum.isFinite
  of_int32 (w : Int32) : (ofInt w.toInt).unify? .int = some (.ofInt w)
  of_uint32 (u : UInt32) : (ofInt u.toNat).unify? .uint = some (.ofUInt u)
  of_float32 (f : Float32) : (ofFloat32 f).unify? .float = some (.ofFloat f)

theorem unify?_float_eq_some_iff {v : Value} : x.unify? .float = some v ↔
    ∃ f : Float32, binary32.Rounds x.datum (.ofFloat32 f) ∧ v = .ofFloat f := by
  show x.float?.map Value.ofFloat = some v ↔ _
  rw [Option.map_eq_some_iff]
  refine exists_congr fun f => ?_
  rw [float?_eq_some_iff, eq_comm]

theorem unify?_float_eq_none_iff : x.unify? .float = none ↔
    ∃ q, x.datum.value? = some q ∧ binary32.overflow ≤ |q| :=
  Option.map_eq_none_iff.trans float?_eq_none_iff

/-- Literals are unified without truncating, wrapping or overflowing. -/
theorem unification : UnifiesExactly where
  bool _ := rfl
  int _ _ := unify?_int_eq_some_iff
  uint _ _ := unify?_uint_eq_some_iff
  float _ _ := unify?_float_eq_some_iff
  float_eq_none _ := unify?_float_eq_none_iff.trans overflow_iff_rounds
  float_eq_none_of_value _ := Datum.overflow_binary32 ▸ unify?_float_eq_none_iff
  float_isFinite x f h := by
    obtain ⟨f', hrounds, hsame⟩ := unify?_float_eq_some_iff.1 h
    cases hsame
    exact hrounds.isFinite_eq
  of_int32 := unify?_int_ofInt
  of_uint32 := unify?_uint_ofInt
  of_float32 := unify?_float_ofFloat32

end Literal

end ShaderExpr
