import ShaderExpr.Proofs.Number.Machine
import ShaderExpr.Proofs.Number.Rounding

/-!
# The numbers that floats stand for

A finite datum stands for a rational number (`Datum.value?`).  It is read as an integer exactly if that number is one
(`Datum.toInt?_eq_some_iff`).

A machine float that is made of a datum is its rounding, or an infinity if that is out of range
(`Datum.ofFloat32_toFloat32`, `Datum.ofFloat_toFloat`).  So the integers that fit the significand of double precision
are kept (`Datum.value?_ofFloat_ofInt`), and single precision ends at `2 ^ 128`, for numbers from
`2 ^ 128 - 2 ^ 103` on.
-/

namespace ShaderExpr

namespace Datum

/-- The number that a finite datum stands for. -/
def value? : Datum → Option ℚ
  | finite negative s e => some (if negative then -magnitude s e else magnitude s e)
  | _ => none

theorem isSome_value? (d : Datum) : d.value?.isSome = d.isFinite := by
  cases d <;> rfl

theorem abs_value {negative : Bool} {s : Nat} {e : Int} {q : ℚ} (h : (finite negative s e).value? = some q) :
    |q| = magnitude s e := by
  rw [← Option.some.inj h]
  split
  · rw [abs_neg, abs_of_nonneg (magnitude_nonneg s e)]
  · exact abs_of_nonneg (magnitude_nonneg s e)

private theorem cast_signed (negative : Bool) (m : Nat) :
    (signed negative m : ℚ) = if negative then -(m : ℚ) else m := by
  cases negative
  · exact Int.cast_natCast m
  · show ((-(m : Int) : Int) : ℚ) = -(m : ℚ)
    rw [Int.cast_neg, Int.cast_natCast]

private theorem signed_eq_iff {negative : Bool} {m : Nat} {s : Nat} {e : Int} {i : Int} (h : magnitude s e = m) :
    signed negative m = i ↔ (finite negative s e).value? = some (i : ℚ) := by
  unfold value?
  dsimp only
  rw [h, ← cast_signed, Option.some.injEq, Int.cast_inj]

/-- A datum is read as the integer that it stands for. -/
theorem toInt?_eq_some_iff {d : Datum} {i : Int} : d.toInt? = some i ↔ d.value? = some (i : ℚ) := by
  match d with
  | nan | infinite _ => exact iff_of_false nofun nofun
  | finite negative s (.ofNat k) =>
    exact Option.some_inj.trans (signed_eq_iff (magnitude_natCast s k))
  | finite negative s (.negSucc k) =>
    have hplace : Int.negSucc k + (k + 1 : Nat) = 0 := by omega
    unfold toInt?
    dsimp only
    rw [Nat.pow_eq]
    split
    · rename_i hdvd
      obtain ⟨m, rfl⟩ := Nat.dvd_of_mod_eq_zero hdvd
      rw [Nat.mul_div_cancel_left _ (Nat.two_pow_pos _), Option.some_inj]
      refine signed_eq_iff ?_
      rw [Nat.mul_comm, magnitude_mul_two_pow, hplace]
      exact magnitude_zero m
    · -- an integer times the denominator would be the significand
      rename_i hdvd
      refine iff_of_false nofun fun hvalue => hdvd ?_
      have habs : magnitude s (.negSucc k) = magnitude (i.natAbs * 2 ^ (k + 1)) (.negSucc k) := by
        rw [magnitude_mul_two_pow, hplace, magnitude_zero, ← abs_value hvalue, ← Int.cast_abs,
          ← Nat.cast_natAbs]
      rw [magnitude_inj.1 habs]
      exact Nat.mul_mod_left _ _

theorem value?_ofInt (i : Int) : (ofInt i).value? = some (i : ℚ) := by
  refine toInt?_eq_some_iff.1 (congrArg some ?_)
  show signed (i < 0) (i.natAbs * 2 ^ 0) = i
  rw [Nat.pow_zero, Nat.mul_one]
  unfold signed
  split <;> rename_i h
  · have hneg := of_decide_eq_true h
    omega
  · have hnonneg := of_decide_eq_false (Bool.eq_false_iff.2 h)
    omega

end Datum

namespace FloatFormat

variable {f : FloatFormat} {d d' : Datum}

theorem Rounds.isFinite_eq (h : f.Rounds d d') : d'.isFinite = d.isFinite := by
  cases h <;> rfl

theorem Rounds.exists_value?_iff (h : f.Rounds d d') : (∃ r, d'.value? = some r) ↔ ∃ q, d.value? = some q := by
  rw [← Option.isSome_iff_exists, ← Option.isSome_iff_exists, Datum.isSome_value?, Datum.isSome_value?, h.isFinite_eq]

theorem Rounds.clamp_of_not_finite (h : f.Rounds d d') (hd : d.isFinite = false) : f.clamp d' = d' := by
  cases h with
  | nan | infinite => rfl
  | finite => cases hd

/-- A number of the grid is rounded to itself. -/
theorem Rounds.value?_eq {negative : Bool} {s s' : Nat} {e e' : Int} (h : f.Rounds (.finite negative s e) d')
    (hgrid : f.OnGrid s' e') (hsame : magnitude s' e' = magnitude s e) :
    d'.value? = (Datum.finite negative s e).value? := by
  cases h with
  | finite _ hnearest =>
    rw [← hsame] at hnearest
    have hkept := (hnearest.magnitude_eq hgrid).trans hsame
    exact congrArg (fun m : ℚ => some (if negative then -m else m)) hkept

/-- A number that is rounded stays in the range of a format, or it is infinite there. -/
theorem Rounds.clamp_cases (hf : f.Regular) {q : ℚ} (h : f.Rounds d d') (hq : d.value? = some q) :
    |q| < f.overflow ∧ f.clamp d' = d' ∨ f.overflow ≤ |q| ∧ (f.clamp d').isFinite = false := by
  cases h with
  | nan | infinite => exact nomatch hq
  | @finite negative s r e k hnearest =>
    have hend := hnearest.exponentEnd_le_iff hf
    rw [Datum.abs_value hq]
    rcases lt_or_ge k f.exponentEnd with hk | hk
    · exact .inl ⟨not_le.1 (hend.not.1 (not_le.2 hk)), clamp_finite hk⟩
    · refine .inr ⟨hend.1 hk, ?_⟩
      rw [clamp_beyond (not_lt.2 hk)]
      rfl

/-- A number leaves the range of a format if its rounding does. -/
theorem Rounds.overflow_le_iff (hf : f.Regular) {q r : ℚ} (h : f.Rounds d d') (hq : d.value? = some q)
    (hr : d'.value? = some r) : f.overflow ≤ |q| ↔ magnitude (2 ^ f.fractionBits) f.exponentEnd ≤ |r| := by
  cases h with
  | nan | infinite => exact nomatch hq
  | finite negative hnearest =>
    rw [Datum.abs_value hq, Datum.abs_value hr, ← hnearest.exponentEnd_le_iff hf, ← not_lt, ← not_lt]
    exact (hnearest.onGrid.lt_exponentEnd_iff hf).not

end FloatFormat

namespace Datum

open FloatFormat

/-- A single-precision float that is made of a datum is its rounding. -/
theorem ofFloat32_toFloat32 (d : Datum) : ∃ d', binary32.Rounds d d' ∧ ofFloat32 d.toFloat32 = binary32.clamp d' := by
  rcases eq_or_ne d .nan with rfl | hd
  · exact ⟨.nan, .nan, by decide +kernel⟩
  · obtain ⟨d', hrounds, hread⟩ := read_write_eq_clamp regular_binary32 (by decide) hd
    have hnan : binary32.read (binary32.write d) ≠ .nan := hread ▸ hrounds.clamp_ne_nan hd
    exact ⟨d', hrounds, (ofFloat32_toFloat32_eq_read hd hnan).trans hread⟩

/-- A double-precision float that is made of a datum is its rounding. -/
theorem ofFloat_toFloat (d : Datum) : ∃ d', binary64.Rounds d d' ∧ ofFloat d.toFloat = binary64.clamp d' := by
  rcases eq_or_ne d .nan with rfl | hd
  · exact ⟨.nan, .nan, ofFloat_toFloat_nan⟩
  · obtain ⟨d', hrounds, hread⟩ := read_write_eq_clamp regular_binary64 (by decide) hd
    have hnan : binary64.read (binary64.write d) ≠ .nan := hread ▸ hrounds.clamp_ne_nan hd
    exact ⟨d', hrounds, (ofFloat_toFloat_eq_read hd hnan).trans hread⟩

/-- A single-precision float has a significand and an exponent of its format. -/
theorem canonical_ofFloat32 {x : Float32} {negative : Bool} {s : Nat} {e : Int}
    (hx : ofFloat32 x = finite negative s e) : binary32.Canonical s e := by
  have hsize : 2 * binary32.signWeight = UInt32.size := by decide
  have hbits : x.toBits.toNat < 2 * binary32.signWeight := hsize ▸ x.toBits.toNat_lt
  unfold ofFloat32 at hx
  rcases read_cases regular_binary32 hbits with h | ⟨_, h, _⟩ | ⟨_, s', e', h, hcanonical, _⟩
  · exact nomatch h.symm.trans hx
  · exact nomatch h.symm.trans hx
  · cases h.symm.trans hx
    exact hcanonical

/-- A single-precision float is of the range of its format. -/
theorem clamp_ofFloat32 (x : Float32) : binary32.clamp (ofFloat32 x) = ofFloat32 x := by
  cases hx : ofFloat32 x with
  | nan | infinite => rfl
  | finite negative s e =>
    have htop := (canonical_ofFloat32 hx).exponent_lt
    refine clamp_finite ?_
    unfold exponentEnd
    omega

/-- A single-precision float is made again of its datum. -/
theorem toFloat32_ofFloat32 (x : Float32) : (ofFloat32 x).toFloat32 = x := by
  have hsize : 2 * binary32.signWeight = UInt32.size := by decide
  have hbits : x.toBits.toNat < 2 * binary32.signWeight := hsize ▸ x.toBits.toNat_lt
  rcases eq_or_ne (ofFloat32 x) .nan with hnan | hnan
  · rw [hnan, ← float32_ofBits_nan hnan, float32_ofBits_toBits]
  · exact toFloat32_of_write (write_read regular_binary32 hbits hnan).symm

theorem ofFloat32_injective : Function.Injective ofFloat32 :=
  Function.LeftInverse.injective toFloat32_ofFloat32

/-- The same number with the same sign, though maybe another exponent. -/
inductive Same : Datum → Datum → Prop
  | intro (negative : Bool) {s s' : Nat} {e e' : Int} (heq : magnitude s e = magnitude s' e') :
    Same (finite negative s e) (finite negative s' e')

theorem Same.refl {d : Datum} (hd : d.isFinite = true) : d.Same d := by
  cases d with
  | nan | infinite => cases hd
  | finite negative s e => exact .intro negative rfl

/-- A single-precision float is made of its number in any form. -/
theorem toFloat32_of_same {d : Datum} {x : Float32} (h : d.Same (ofFloat32 x)) : d.toFloat32 = x := by
  have hclamp := clamp_ofFloat32 x
  refine ofFloat32_injective ?_
  generalize hx : ofFloat32 x = d' at *
  cases h with
  | @intro negative s s' e e' heq =>
    have hgrid := (canonical_ofFloat32 hx).onGrid
    obtain ⟨_, hrounds, hfloat⟩ := ofFloat32_toFloat32 (finite negative s e)
    cases hrounds with
    | finite _ hnearest =>
      rw [heq] at hnearest
      obtain ⟨rfl, rfl⟩ := hnearest.onGrid.eq_of_magnitude_eq regular_binary32 hgrid (hnearest.magnitude_eq hgrid)
      exact hfloat.trans hclamp

private theorem magnitude_lt_exponentEnd_binary64 {s : Nat} {e : Int} (h : binary32.Canonical s e) :
    magnitude s e < magnitude (2 ^ binary64.fractionBits) binary64.exponentEnd := by
  have hend : e < binary32.exponentEnd := by
    have htop := h.exponent_lt
    unfold exponentEnd
    omega
  calc
    magnitude s e < magnitude (2 ^ binary32.fractionBits) binary32.exponentEnd :=
      (h.onGrid.lt_exponentEnd_iff regular_binary32).1 hend
    _ ≤ magnitude (2 ^ binary64.fractionBits) binary32.exponentEnd :=
      mul_le_mul_of_nonneg_right (by norm_num [binary32, binary64, fractionBits]) (by positivity)
    _ < magnitude (2 ^ binary64.fractionBits) binary64.exponentEnd :=
      (OnGrid.first regular_binary64 (by decide)).magnitude_lt regular_binary64
        (OnGrid.first regular_binary64 (by decide)) (by decide)

/-- Double precision keeps the numbers of single precision. -/
theorem same_ofFloat_toFloat {d : Datum} {x : Float32} (h : d.Same (ofFloat32 x)) :
    (ofFloat d.toFloat).Same (ofFloat32 x) := by
  generalize hx : ofFloat32 x = d' at *
  cases h with
  | @intro negative s s' e e' heq =>
    have hcanonical := canonical_ofFloat32 hx
    obtain ⟨s₁, e₁, hgrid, hsame⟩ := OnGrid.exists_of_lt regular_binary64 (hcanonical.lt.trans (by decide))
      ((by decide : binary64.leastExponent ≤ binary32.leastExponent).trans hcanonical.least_le)
    obtain ⟨_, hrounds, hfloat⟩ := ofFloat_toFloat (finite negative s e)
    cases hrounds with
    | @finite _ _ r _ k hnearest =>
      rw [heq, ← hsame] at hnearest
      have hkept := (hnearest.magnitude_eq hgrid).trans hsame
      have hlt : k < binary64.exponentEnd := by
        rw [hnearest.onGrid.lt_exponentEnd_iff regular_binary64, hkept]
        exact magnitude_lt_exponentEnd_binary64 hcanonical
      rw [hfloat, clamp_finite hlt]
      exact .intro negative hkept

/-- Double precision keeps the integers that fit its significand. -/
theorem value?_ofFloat_ofInt {i : Int} (hi : i.natAbs < 2 ^ 53) :
    (ofFloat (ofInt i).toFloat).value? = some (i : ℚ) := by
  obtain ⟨d', hrounds, hfloat⟩ := ofFloat_toFloat (ofInt i)
  obtain ⟨s, e, hgrid, hsame⟩ := OnGrid.exists_of_lt regular_binary64 hi (by decide : binary64.leastExponent ≤ 0)
  have hlt : |(i : ℚ)| < binary64.overflow := by
    rw [← Int.cast_abs, ← Nat.cast_natAbs]
    refine (Nat.cast_lt.2 (hi.trans ?_)).trans_le (natCast_le_magnitude _ (by decide))
    decide
  have hkept := (hrounds.clamp_cases regular_binary64 (value?_ofInt i)).resolve_right fun h => absurd h.1 (not_le.2 hlt)
  rw [hfloat, hkept.2, ← value?_ofInt]
  exact hrounds.value?_eq hgrid hsame

theorem overflow_binary32 : binary32.overflow = 2 ^ 128 - 2 ^ 103 := by
  have hend : binary32.exponentEnd - 2 = (103 : Nat) := by decide
  unfold overflow
  rw [hend, magnitude_natCast]
  norm_num [binary32]

theorem magnitude_exponentEnd_binary32 : magnitude (2 ^ binary32.fractionBits) binary32.exponentEnd = 2 ^ 128 := by
  have hend : binary32.exponentEnd = (105 : Nat) := by decide
  rw [hend, magnitude_natCast]
  norm_num [binary32, fractionBits]

end Datum

end ShaderExpr
