import ShaderExpr.Proofs.Number.Unpacked

/-!
# Rounded arithmetic

Machine floats are added and divided as unpacked floats.  The exact result is not computed to its end: a significand is,
and an accuracy tells where the result lies between it and the next one (`Tells`).  That is enough for rounding
(`Tells.nearestInteger`, `Tells.roundWithAccuracy`).

So the sum and the quotient of two finite floats are rounded once: they are the number of the format that is nearest to
the exact sum and quotient, or an infinity if that is out of range (`Datum.ofFloat32_add`, `Datum.ofFloat32_div`).
-/

namespace ShaderExpr

open Float.Model (Format totalExponent)
open Float.Model.UnpackedFloat
open FloatFormat (binary32 regular_binary32)

/-- Where a number lies between a significand and the next one, as far as an accuracy tells it. -/
def Tells (t : ℚ) (m : Nat) : Accuracy → Prop
  | .exact => t = m
  | .inexact .lt => m < t ∧ t < m + 1 / 2
  | .inexact .eq => t = m + 1 / 2
  | .inexact .gt => m + 1 / 2 < t ∧ t < m + 1

namespace Tells

variable {t : ℚ} {m : Nat} {acc : Accuracy}

theorem bounds (h : Tells t m acc) : m ≤ t ∧ t < m + 1 := by
  match acc, h with
  | .exact, h => exact ⟨h.ge, h.trans_lt (lt_add_one _)⟩
  | .inexact .lt, ⟨hlower, hupper⟩ => exact ⟨hlower.le, by linarith⟩
  | .inexact .eq, h => exact ⟨by linarith [h.ge], by linarith [h.le]⟩
  | .inexact .gt, ⟨hlower, hupper⟩ => exact ⟨by linarith, hupper⟩

/-- A significand is rounded to the integer that is nearest to the number. -/
theorem nearestInteger (h : Tells t m acc) : NearestInteger t (acc.roundToNearestEven m) := by
  match acc, h with
  | .exact, h => exact h.symm ▸ .natCast m
  | .inexact .lt, ⟨hlower, hupper⟩ => exact .below hlower.le hupper
  | .inexact .eq, h => exact h.symm ▸ .tie m
  | .inexact .gt, ⟨hlower, hupper⟩ => exact .above hlower hupper

/-- The remainder tells where a quotient lies. -/
theorem accuracyOfFraction (a : Nat) {b : Nat} (hb : 0 < b) :
    Tells (a / b) (a / b : Nat) (accuracyOfFraction (a % b) b) := by
  have hlt : ((a % b : Nat) / b : ℚ) < 1 := (div_lt_one (Nat.cast_pos.2 hb)).2 (Nat.cast_lt.2 (Nat.mod_lt a hb))
  rw [natCast_div_eq a hb]
  unfold Float.Model.UnpackedFloat.accuracyOfFraction
  split
  · rename_i hzero
    show _ = _
    rw [hzero, Nat.cast_zero, zero_div, add_zero]
  · rename_i hne
    have hpos : (0 : ℚ) < (a % b : Nat) / (b : ℚ) :=
      div_pos (Nat.cast_pos.2 (Nat.pos_of_ne_zero hne)) (Nat.cast_pos.2 hb)
    rcases hcompare : compare (2 * (a % b)) b
    · exact ⟨by linarith, add_lt_add_right ((div_lt_half_iff hb).2 (compare_lt_iff_lt.1 hcompare)) _⟩
    · have heq := compare_eq_iff_eq.1 hcompare
      exact congrArg (_ + ·) (div_eq_half hb heq.not_lt heq.not_gt)
    · exact ⟨add_lt_add_right ((half_lt_div_iff hb).2 (compare_gt_iff_gt.1 hcompare)) _, add_lt_add_right hlt _⟩

private theorem exact_or_between {round sticky : Bool} (h : Tells t m (ExtendedMantissa.accuracy ⟨m, round, sticky⟩)) :
    (round || sticky) = false ∧ t = m ∨ (round || sticky) = true ∧ m < t ∧ t < m + 1 := by
  match round, sticky, h with
  | false, false, h => exact .inl ⟨rfl, h⟩
  | false, true, ⟨hlower, hupper⟩ => exact .inr ⟨rfl, hlower, by linarith⟩
  | true, false, h => exact .inr ⟨rfl, by linarith [h.ge], by linarith [h.le]⟩
  | true, true, ⟨hlower, hupper⟩ => exact .inr ⟨rfl, by linarith, hupper⟩

/-- The bit that is shifted out tells whether a half reaches the middle, and the bits after it whether it is beyond. -/
private theorem half {em : ExtendedMantissa} (h : Tells t em.mantissa em.accuracy) :
    Tells (t / 2) em.shiftRightOne.mantissa em.shiftRightOne.accuracy := by
  obtain ⟨m, round, sticky⟩ := em
  have hsplit : (m : ℚ) = 2 * (m / 2 : Nat) + (m % 2 : Nat) := by
    exact_mod_cast (Nat.div_add_mod m 2).symm
  show Tells (t / 2) (m / 2) (ExtendedMantissa.accuracy ⟨m / 2, m % 2 != 0, round || sticky⟩)
  rcases Nat.mod_two_eq_zero_or_one m with hm | hm <;> rw [hm] at hsplit ⊢ <;> push_cast at hsplit <;>
    rcases h.exact_or_between with ⟨hrest, heq⟩ | ⟨hrest, hlower, hupper⟩ <;> rw [hrest]
  · show t / 2 = _
    linarith
  · exact ⟨by linarith, by linarith⟩
  · show t / 2 = _
    linarith
  · exact ⟨by linarith, by linarith⟩

private theorem shiftRight {em : ExtendedMantissa} (h : Tells t em.mantissa em.accuracy) (n : Nat) :
    Tells (t / 2 ^ n) (em >>> n).mantissa (em >>> n).accuracy := by
  induction n with
  | zero =>
    rw [pow_zero, div_one]
    exact h
  | succ n ih =>
    rw [pow_succ, ← div_div]
    exact half ih

theorem ofMantissaAndAccuracy (h : Tells t m acc) :
    Tells t (ExtendedMantissa.ofMantissaAndAccuracy m acc).mantissa
      (ExtendedMantissa.ofMantissaAndAccuracy m acc).accuracy := by
  match acc, h with
  | .exact, h | .inexact .lt, h | .inexact .eq, h | .inexact .gt, h => exact h

variable {e : Int}

private theorem targetExponent_eq (total : Int) : Format.binary32.targetExponent total = max (total - 24) (-149) :=
  rfl

private theorem lt_two_pow_log2 (h : Tells t m acc) : t < 2 ^ (m.log2 + 1) := by
  refine h.bounds.2.trans_le ?_
  exact_mod_cast Nat.succ_le_of_lt (Nat.lt_log2_self (n := m))

/-- A significand is rounded at the place of its number, if it has enough bits or its own place is the least one. -/
private theorem roundsAt (h : Tells t m acc) (hwide : 2 ^ 23 ≤ m ∨ e ≤ -149) :
    binary32.RoundsAt (t * 2 ^ e) (Format.binary32.targetExponent (totalExponent m e)) := by
  have hplace : (0 : ℚ) < 2 ^ e := zpow_pos (by norm_num) e
  refine FloatFormat.roundsAt_of_lt regular_binary32 ?_ ?_
  · rw [show totalExponent m e = (m.log2 + 1 : Nat) + e from rfl, zpow_add₀ (by norm_num), zpow_natCast]
    exact mul_lt_mul_of_pos_right h.lt_two_pow_log2 hplace
  · rcases eq_or_ne m 0 with rfl | hm
    · refine .inr ?_
      show (0 : Int) + 1 + e - 24 ≤ -149
      omega
    · refine .inl ?_
      have hlog : ((2 ^ m.log2 : Nat) : ℚ) ≤ m := Nat.cast_le.2 (Nat.log2_self_le hm)
      rw [show totalExponent m e - 1 = (m.log2 : Nat) + e by unfold totalExponent; ring, zpow_add₀ (by norm_num),
        zpow_natCast]
      push_cast at hlog
      exact mul_le_mul_of_nonneg_right (hlog.trans h.bounds.1) hplace.le

private theorem le_targetExponent (hwide : 2 ^ 23 ≤ m ∨ e ≤ -149) :
    e ≤ Format.binary32.targetExponent (totalExponent m e) := by
  rw [targetExponent_eq]
  show e ≤ max (m.log2 + 1 + e - 24) (-149)
  rcases hwide with hwide | hwide
  · have hlog : 23 ≤ m.log2 := (Nat.le_log2 (by omega)).2 hwide
    omega
  · omega

private theorem shiftToTargetExponent_eq {n : Nat}
    (hn : (Format.binary32.targetExponent (totalExponent m e) - e).toNat = n) :
    shiftToTargetExponent Format.binary32 m e acc = (ExtendedMantissa.ofMantissaAndAccuracy m acc >>> n, e + n) := by
  subst hn
  rfl

private theorem ofUnpacked_onGrid {s : Nat} (h : binary32.OnGrid s e) (sign : Sign) :
    Datum.ofUnpacked (if hs : s = 0 then .zero sign else .finite sign s e (Nat.pos_of_ne_zero hs)) =
      .finite (sign == .negative) s e := by
  split
  · rename_i hs
    subst hs
    rw [h.normal.resolve_left (by decide)]
    rfl
  · rfl

/-- A number of which a significand and an accuracy are known is rounded to the nearest number of the format. -/
theorem roundWithAccuracy (h : Tells t m acc) (hwide : 2 ^ 23 ≤ m ∨ e ≤ -149) (sign : Sign) :
    ∃ r k, binary32.Nearest (t * 2 ^ e) r k ∧
      Datum.ofUnpacked (roundWithAccuracy Format.binary32 sign m e acc) = .finite (sign == .negative) r k := by
  have hroundsAt := h.roundsAt hwide
  have hle := le_targetExponent hwide
  obtain ⟨n, hn⟩ : ∃ n : Nat, Format.binary32.targetExponent (totalExponent m e) = e + n :=
    ⟨(Format.binary32.targetExponent (totalExponent m e) - e).toNat, by omega⟩
  rw [hn] at hroundsAt
  have hinteger : NearestInteger (t * 2 ^ e / 2 ^ (e + n))
      (ExtendedMantissa.ofMantissaAndAccuracy m acc >>> n).roundedMantissa := by
    rw [zpow_add₀ (by norm_num), zpow_natCast, mul_comm, mul_div_mul_left _ _ (zpow_pos (by norm_num) e).ne']
    exact (h.ofMantissaAndAccuracy.shiftRight n).nearestInteger
  have hleast : -149 ≤ e + n := Datum.leastExponent_binary32 ▸ hroundsAt.least_le
  unfold Float.Model.UnpackedFloat.roundWithAccuracy
  rw [shiftToTargetExponent_eq (n := n) (by omega)]
  dsimp only
  generalize (ExtendedMantissa.ofMantissaAndAccuracy m acc >>> n).roundedMantissa = rounded at *
  generalize e + (n : Int) = last at *
  -- the rounded significand is shifted once more, by one place if it has carried
  rcases hroundsAt.exists_nearest regular_binary32 (by decide) hinteger with ⟨hlt, hnearest⟩ | ⟨rfl, hnearest⟩
  · have hlog : rounded.log2 ≤ 23 := by
      rcases eq_or_ne rounded 0 with rfl | hne
      · decide
      · exact Nat.le_of_lt_succ ((Nat.log2_lt hne).2 hlt)
    have hzero : (Format.binary32.targetExponent (totalExponent rounded last) - last).toNat = 0 := by
      rw [targetExponent_eq, totalExponent]
      omega
    rw [shiftToTargetExponent_eq hzero, Nat.cast_zero, add_zero]
    exact ⟨rounded, last, hnearest, ofUnpacked_onGrid hnearest.onGrid sign⟩
  · have hlog : (2 ^ binary32.precision).log2 = 24 := Nat.log2_two_pow
    have hone : (Format.binary32.targetExponent (totalExponent (2 ^ binary32.precision) last) - last).toNat = 1 := by
      rw [targetExponent_eq, totalExponent, hlog]
      omega
    rw [shiftToTargetExponent_eq hone]
    exact ⟨_, _, hnearest, ofUnpacked_onGrid hnearest.onGrid sign⟩

end Tells

/-! ### Rounded numbers -/

/-- The datum that a number is rounded to if exponents may be of any size. -/
inductive FloatFormat.RoundsTo (f : FloatFormat) : ℚ → Datum → Prop
  | intro (negative : Bool) {q : ℚ} {r : Nat} {k : Int} (nonneg : 0 ≤ q) (nearest : f.Nearest q r k) :
    f.RoundsTo (if negative then -q else q) (.finite negative r k)

/-- A number that is not negative and in the range of a format is rounded to a number of the format. -/
theorem FloatFormat.RoundsTo.exists_nearest {f : FloatFormat} (hf : f.Regular) {q : ℚ} {d : Datum} (h : f.RoundsTo q d)
    (hq : 0 ≤ q) (hlt : q < f.overflow) : ∃ r k, f.Nearest q r k ∧ (f.clamp d).value? = some (magnitude r k) := by
  obtain ⟨signed, hsigned⟩ : ∃ signed, q = signed := ⟨q, rfl⟩
  rw [hsigned] at h
  cases h with
  | @intro negative q' r k hnonneg hnearest =>
    have hsame : q = q' := by
      cases negative
      · exact hsigned
      · have hneg : q = -q' := hsigned
        linarith
    subst hsame
    have hk : k < f.exponentEnd := not_le.1 ((hnearest.exponentEnd_le_iff hf).not.2 (not_le.2 hlt))
    refine ⟨r, k, hnearest, ?_⟩
    rw [clamp_finite hk]
    cases negative
    · rfl
    · -- only zero is its own negation
      have hzero : q = magnitude 0 f.leastExponent := by
        have hneg : q = -q := hsigned
        rw [zero_magnitude]
        linarith
      have hrounded : magnitude r k = 0 := ((hzero ▸ hnearest).magnitude_eq (.zero f)).trans (zero_magnitude _)
      show some (-magnitude r k) = _
      rw [hrounded, neg_zero]

namespace Datum

variable {d : Datum} {p q : ℚ} {u v : Float.Model.UnpackedFloat}

/-- A number of the grid is not rounded. -/
private theorem roundsTo_self (hgrid : ∀ {negative s e}, d = finite negative s e → binary32.OnGrid s e)
    (hq : d.value? = some q) : binary32.RoundsTo q d := by
  cases d with
  | nan | infinite => exact nomatch hq
  | finite negative s e =>
    cases hq
    exact .intro negative (magnitude_nonneg s e) (hgrid rfl).nearest

private theorem roundsTo_zero (sign : Sign) : binary32.RoundsTo 0 (ofUnpacked (.zero sign)) := by
  refine roundsTo_self ?_ (value?_zero sign)
  rintro _ _ _ ⟨⟩
  exact .zero binary32

private theorem roundsTo_roundWithAccuracy {t : ℚ} {m : Nat} {e : Int} {acc : Accuracy} (h : Tells t m acc)
    (hwide : 2 ^ 23 ≤ m ∨ e ≤ -149) (sign : Sign) :
    binary32.RoundsTo (if sign == .negative then -(t * 2 ^ e) else t * 2 ^ e)
      (ofUnpacked (roundWithAccuracy Format.binary32 sign m e acc)) := by
  obtain ⟨r, k, hnearest, hrounded⟩ := h.roundWithAccuracy hwide sign
  rw [hrounded]
  exact .intro _ (mul_nonneg ((Nat.cast_nonneg m).trans h.bounds.1) (zpow_pos (by norm_num) e).le) hnearest

private theorem magnitude_shiftLeft (m n : Nat) (e : Int) : magnitude (m <<< n) (e - n) = magnitude m e := by
  rw [Nat.shiftLeft_eq, magnitude_mul_two_pow, sub_add_cancel]

private theorem two_pow_le_shiftLeft {m : Nat} (hm : m ≠ 0) (n : Nat) : 2 ^ (m.log2 + n) ≤ m <<< n := by
  rw [Nat.pow_add, Nat.shiftLeft_eq]
  exact Nat.mul_le_mul_right _ (Nat.log2_self_le hm)

private theorem wide_shiftLeft {m : Nat} (hm : m ≠ 0) {e : Int} {n : Nat}
    (hn : (e - Format.binary32.targetExponent (totalExponent m e)).toNat = n) : 2 ^ 23 ≤ m <<< n ∨ e - n ≤ -149 := by
  have htarget : Format.binary32.targetExponent (totalExponent m e) = max (m.log2 + 1 + e - 24) (-149) := rfl
  rcases le_or_gt 23 (m.log2 + n) with hle | hlt
  · exact .inl ((Nat.pow_le_pow_right (by decide) hle).trans (two_pow_le_shiftLeft hm n))
  · exact .inr (by omega)

private theorem roundsTo_round {m : Nat} (hm : m ≠ 0) (e : Int) (sign : Sign) :
    binary32.RoundsTo (if sign == .negative then -magnitude m e else magnitude m e)
      (ofUnpacked (round Format.binary32 sign m e)) := by
  rw [← magnitude_shiftLeft m (e - Format.binary32.targetExponent (totalExponent m e)).toNat e]
  have hexact : Tells (m <<< (e - Format.binary32.targetExponent (totalExponent m e)).toNat : Nat) _ .exact := rfl
  exact roundsTo_roundWithAccuracy hexact (wide_shiftLeft hm rfl) sign

private theorem roundsTo_normalize (i : Int) (e : Int) :
    binary32.RoundsTo (i * 2 ^ e) (ofUnpacked (Float.Model.UnpackedFloat.normalize Format.binary32 i e .positive)) := by
  unfold Float.Model.UnpackedFloat.normalize
  rcases hcompare : compare i 0
  · have hneg := compare_lt_iff_lt.1 hcompare
    have hvalue : (i * 2 ^ e : ℚ) = -magnitude (-i).toNat e := by
      rw [magnitude, ← neg_mul, ← Int.cast_natCast, Int.toNat_of_nonneg (by omega), Int.cast_neg, neg_neg]
    rw [hvalue]
    exact roundsTo_round (by omega) e .negative
  · rw [compare_eq_iff_eq.1 hcompare, Int.cast_zero, zero_mul]
    exact roundsTo_zero .positive
  · have hpos := compare_gt_iff_gt.1 hcompare
    have hvalue : (i * 2 ^ e : ℚ) = magnitude i.toNat e := by
      rw [magnitude, ← Int.cast_natCast, Int.toNat_of_nonneg hpos.le]
    rw [hvalue]
    exact roundsTo_round (by omega) e .positive

private theorem apply_mul (sign : Sign) (m : Nat) (e : Int) :
    (sign.apply m * 2 ^ e : ℚ) = if sign == .negative then -magnitude m e else magnitude m e := by
  cases sign
  · show ((-(m : Int) : Int) * 2 ^ e : ℚ) = -(m * 2 ^ e)
    rw [Int.cast_neg, Int.cast_natCast, neg_mul]
  · rfl

/-- A significand is shifted to the left to a lower exponent. -/
private theorem apply_shiftLeft (sign : Sign) (m : Nat) {e low : Int} (hlow : low ≤ e) :
    (sign.apply (m <<< (e - low).toNat : Nat) * 2 ^ low : ℚ) = sign.apply m * 2 ^ e := by
  have hvalue := magnitude_shiftLeft m (e - low).toNat e
  rw [show e - (e - low).toNat = low by omega] at hvalue
  rw [apply_mul, apply_mul, hvalue]

private theorem roundsTo_add (hu : ∀ {negative s e}, ofUnpacked u = finite negative s e → binary32.OnGrid s e)
    (hv : ∀ {negative s e}, ofUnpacked v = finite negative s e → binary32.OnGrid s e)
    (hp : (ofUnpacked u).value? = some p) (hq : (ofUnpacked v).value? = some q) :
    binary32.RoundsTo (p + q) (ofUnpacked (add Format.binary32 u v)) := by
  cases u with
  | notANumber | infinity => exact absurd hp nofun
  | zero sign =>
    cases (value?_zero sign).symm.trans hp
    rw [zero_add]
    cases v with
    | notANumber | infinity => exact absurd hq nofun
    | zero sign' =>
      cases (value?_zero sign').symm.trans hq
      show binary32.RoundsTo 0 (ofUnpacked (if sign == sign' then .zero sign else .zero .positive))
      split <;> exact roundsTo_zero _
    | finite sign' m' e' hm' => exact roundsTo_self hv hq
  | finite sign m e hm =>
    cases v with
    | notANumber | infinity => exact absurd hq nofun
    | zero sign' =>
      cases (value?_zero sign').symm.trans hq
      rw [add_zero]
      exact roundsTo_self hu hp
    | finite sign' m' e' hm' =>
      cases hp
      cases hq
      have hsum := roundsTo_normalize (sign.apply (m <<< (e - min e e').toNat : Nat) +
        sign'.apply (m' <<< (e' - min e e').toNat : Nat)) (min e e')
      rw [Int.cast_add, add_mul, apply_shiftLeft sign m (min_le_left e e'),
        apply_shiftLeft sign' m' (min_le_right e e'), apply_mul, apply_mul] at hsum
      exact hsum

private theorem sign_div (sign sign' : Sign) (a b : ℚ) :
    ((if sign == .negative then -a else a) / if sign' == .negative then -b else b) =
      if sign / sign' == .negative then -(a / b) else a / b := by
  cases sign <;> cases sign'
  · exact neg_div_neg_eq a b
  · exact neg_div b a
  · exact div_neg a
  · rfl

/-- A numerator is shifted so far to the left that the quotient has enough bits. -/
private theorem wide_div {m m' : Nat} (hm : m ≠ 0) (hm' : 0 < m') {e e' : Int} {low : Int} {n : Nat}
    (hlow : low = min (e - e') (Format.binary32.targetExponent (totalExponent m e - totalExponent m' e')))
    (hn : (e - e' - low).toNat = n) : 2 ^ 23 ≤ m <<< n / m' ∨ low ≤ -149 := by
  have htarget : Format.binary32.targetExponent (totalExponent m e - totalExponent m' e') =
      max (m.log2 + 1 + e - (m'.log2 + 1 + e') - 24) (-149) := rfl
  rcases le_or_gt (m'.log2 + 24) (m.log2 + n) with hle | hlt
  · refine .inl ((Nat.le_div_iff_mul_le hm').2 ?_)
    calc
      2 ^ 23 * m' ≤ 2 ^ 23 * 2 ^ (m'.log2 + 1) := Nat.mul_le_mul_left _ Nat.lt_log2_self.le
      _ = 2 ^ (m'.log2 + 24) := by rw [← Nat.pow_add]; congr 1; omega
      _ ≤ 2 ^ (m.log2 + n) := Nat.pow_le_pow_right (by decide) hle
      _ ≤ m <<< n := two_pow_le_shiftLeft hm n
  · exact .inr (by omega)

private theorem magnitude_div (s s' : Nat) (e e' : Int) : magnitude s (e + e') / magnitude s' e' = s / s' * 2 ^ e := by
  unfold magnitude
  rw [zpow_add₀ (by norm_num), ← mul_assoc, mul_div_mul_right _ _ (zpow_pos (by norm_num) e').ne', mul_div_right_comm]

private theorem roundsTo_div (hp : (ofUnpacked u).value? = some p) (hq : (ofUnpacked v).value? = some q) (hne : q ≠ 0) :
    binary32.RoundsTo (p / q) (ofUnpacked (div Format.binary32 u v)) := by
  cases v with
  | notANumber | infinity => exact absurd hq nofun
  | zero sign' => exact absurd (Option.some.inj (hq.symm.trans (value?_zero sign'))) hne
  | finite sign' m' e' hm' =>
    cases u with
    | notANumber | infinity => exact absurd hp nofun
    | zero sign =>
      cases (value?_zero sign).symm.trans hp
      rw [zero_div]
      exact roundsTo_zero _
    | finite sign m e hm =>
      cases hp
      cases hq
      rw [sign_div]
      generalize hlow : min (e - e') (Format.binary32.targetExponent (totalExponent m e - totalExponent m' e')) = low
      generalize hn : (e - e' - low).toNat = n
      have hrounds := roundsTo_roundWithAccuracy (.accuracyOfFraction (m <<< n) hm') (wide_div hm.ne' hm' hlow.symm hn)
        (sign / sign')
      have hvalue : ((m <<< n : Nat) / m' * 2 ^ low : ℚ) = magnitude m e / magnitude m' e' := by
        rw [← magnitude_div _ _ low e', ← magnitude_shiftLeft m n e, show e - n = low + e' by omega]
      rw [hvalue] at hrounds
      subst hn hlow
      exact hrounds

private theorem ofFloat32_pack_of_roundsTo (h : binary32.RoundsTo q (ofUnpacked u)) :
    ∃ d, binary32.RoundsTo q d ∧ ofFloat32 (.ofModel (.pack u)) = binary32.clamp d := by
  refine ⟨_, h, ?_⟩
  generalize hd : ofUnpacked u = d at h ⊢
  cases h with
  | intro negative _ hnearest => exact ofFloat32_pack hd hnearest.onGrid

section Float32

variable {x y : Float32}

/-- The sum of two finite floats is rounded once. -/
theorem ofFloat32_add (hp : (ofFloat32 x).value? = some p) (hq : (ofFloat32 y).value? = some q) :
    ∃ d, binary32.RoundsTo (p + q) d ∧ ofFloat32 (x + y) = binary32.clamp d := by
  rw [ofFloat32_eq_ofUnpacked] at hp hq
  exact ofFloat32_pack_of_roundsTo (roundsTo_add (onGrid_unpack x) (onGrid_unpack y) hp hq)

/-- The quotient of two finite floats is rounded once. -/
theorem ofFloat32_div (hp : (ofFloat32 x).value? = some p) (hq : (ofFloat32 y).value? = some q) (hne : q ≠ 0) :
    ∃ d, binary32.RoundsTo (p / q) d ∧ ofFloat32 (x / y) = binary32.clamp d := by
  rw [ofFloat32_eq_ofUnpacked] at hp hq
  exact ofFloat32_pack_of_roundsTo (roundsTo_div hp hq hne)

end Float32

end Datum

end ShaderExpr
