import Mathlib
import ShaderExpr.Proofs.Number.Format

/-!
# Rounding to nearest

The numbers of a format, with exponents of any size, form a grid (`FloatFormat.OnGrid`).  What is written of a finite
datum and read back is the number of the grid that is nearest to its exact value; of two that are equally near it is
the one with an even significand (`FloatFormat.Nearest`).  If that number lies beyond the exponents of the format, an
infinity is read (`FloatFormat.read_write_eq_clamp`).

* There is only one nearest number (`FloatFormat.Nearest.unique`), and a number of the grid is its own
  (`FloatFormat.OnGrid.nearest`).  Rounding keeps the order (`FloatFormat.Nearest.mono`).
* A number is rounded at the place that the format gives it, whether it is that of a datum or another rational number
  (`FloatFormat.RoundsAt.exists_nearest`).
* `FloatFormat.Nearest.exponentEnd_le_iff` says from which number on the nearest one is out of range.
-/

namespace ShaderExpr

/-- The number `significand * 2 ^ exponent`. -/
def magnitude (significand : Nat) (exponent : Int) : ℚ :=
  significand * 2 ^ exponent

theorem magnitude_nonneg (s : Nat) (e : Int) : 0 ≤ magnitude s e :=
  mul_nonneg (Nat.cast_nonneg s) (zpow_nonneg (by norm_num) e)

theorem zero_magnitude (e : Int) : magnitude 0 e = 0 :=
  (congrArg (· * _) Nat.cast_zero).trans (zero_mul _)

theorem magnitude_natCast (s k : Nat) : magnitude s k = (s * 2 ^ k : Nat) := by
  unfold magnitude
  rw [zpow_natCast]
  push_cast
  rfl

theorem natCast_le_magnitude (s : Nat) {e : Int} (he : 0 ≤ e) : s ≤ magnitude s e :=
  le_mul_of_one_le_right (Nat.cast_nonneg s) (one_le_zpow₀ (by norm_num) he)

theorem magnitude_mul_two_pow (s k : Nat) (e : Int) : magnitude (s * 2 ^ k) e = magnitude s (e + k) := by
  unfold magnitude
  rw [zpow_add₀ (by norm_num), zpow_natCast]
  push_cast
  ring

theorem magnitude_two_pow (k : Nat) (e : Int) : magnitude (2 ^ k) e = 2 ^ (e + k) := by
  have hunit : magnitude 1 (e + k) = 2 ^ (e + k) := (congrArg (· * _) Nat.cast_one).trans (one_mul _)
  rw [← hunit, ← magnitude_mul_two_pow, Nat.one_mul]

/-- Numbers of one exponent are ordered as their significands. -/
theorem magnitude_lt_magnitude {s s' : Nat} {e : Int} : magnitude s e < magnitude s' e ↔ s < s' := by
  unfold magnitude
  rw [mul_lt_mul_iff_left₀ (zpow_pos (by norm_num) e), Nat.cast_lt]

theorem magnitude_le_magnitude {s s' : Nat} {e : Int} : magnitude s e ≤ magnitude s' e ↔ s ≤ s' := by
  rw [← not_lt, magnitude_lt_magnitude, not_lt]

theorem magnitude_inj {s s' : Nat} {e : Int} : magnitude s e = magnitude s' e ↔ s = s' := by
  unfold magnitude
  rw [mul_left_inj' (zpow_pos (by norm_num) e).ne', Nat.cast_inj]

theorem magnitude_zero (s : Nat) : magnitude s 0 = s := by
  unfold magnitude
  rw [zpow_zero, mul_one]

/-- An integer is nearest to a number, and even if another one is as near. -/
structure NearestInteger (q : ℚ) (m : Nat) : Prop where
  le : |q - m| ≤ 1 / 2
  even : |q - m| = 1 / 2 → m % 2 = 0

namespace NearestInteger

variable {q : ℚ} {m k : Nat}

/-- The integer below a number is nearest to it if it is within a half. -/
theorem below (hlower : m ≤ q) (hupper : q < m + 1 / 2) : NearestInteger q m := by
  have habs : |q - m| = q - m := abs_of_nonneg (sub_nonneg.2 hlower)
  constructor <;> rw [habs]
  · linarith
  · exact fun heq => absurd heq (by linarith)

/-- The integer above a number is nearest to it if it is within a half. -/
theorem above (hlower : m + 1 / 2 < q) (hupper : q < m + 1) : NearestInteger q (m + 1) := by
  have habs : |q - (m + 1 : Nat)| = m + 1 - q := by
    push_cast
    rw [abs_of_neg (by linarith), neg_sub]
  constructor <;> rw [habs]
  · linarith
  · exact fun heq => absurd heq (by linarith)

/-- A tie goes to the even one of two integers. -/
theorem tie (m : Nat) : NearestInteger (m + 1 / 2) (m + m % 2) := by
  refine ⟨?_, fun _ => by omega⟩
  rcases Nat.mod_two_eq_zero_or_one m with hm | hm <;> rw [hm] <;> push_cast
  · rw [add_zero, add_sub_cancel_left, abs_of_pos (by norm_num)]
  · rw [add_sub_add_left_eq_sub, abs_of_neg (by norm_num)]
    norm_num

theorem natCast (m : Nat) : NearestInteger m m :=
  below le_rfl (lt_add_of_pos_right _ (by norm_num))

private theorem one_le_add_abs (q : ℚ) (hne : k ≠ m) : 1 ≤ |q - m| + |q - k| := by
  have hone : (1 : ℚ) ≤ |(m : ℚ) - k| := by
    have hint : (1 : ℤ) ≤ |(m : ℤ) - k| := Int.one_le_abs (by omega)
    exact_mod_cast hint
  rw [abs_sub_comm q m]
  exact hone.trans (abs_sub_le _ _ _)

/-- No other integer is nearer. -/
theorem le_other (h : NearestInteger q m) (k : Nat) : |q - m| ≤ |q - k| := by
  rcases eq_or_ne k m with rfl | hne
  · exact le_rfl
  · have hsum := one_le_add_abs q hne
    have hle := h.le
    linarith

/-- If another integer is as near, then the nearest one is even. -/
theorem even_of_eq (h : NearestInteger q m) (hne : k ≠ m) (heq : |q - k| = |q - m|) : m % 2 = 0 := by
  have hsum := one_le_add_abs q hne
  exact h.even (le_antisymm h.le (by linarith))

end NearestInteger

/-- A fraction exceeds its integer part by what the remainder is of the denominator. -/
theorem natCast_div_eq (numerator : Nat) {denominator : Nat} (hpos : 0 < denominator) :
    (numerator / denominator : ℚ) =
      (numerator / denominator : Nat) + (numerator % denominator : Nat) / (denominator : ℚ) := by
  have hd : (denominator : ℚ) ≠ 0 := Nat.cast_ne_zero.2 hpos.ne'
  have hsplit : (numerator : ℚ) = denominator * (numerator / denominator : Nat) + (numerator % denominator : Nat) := by
    exact_mod_cast (Nat.div_add_mod numerator denominator).symm
  rw [← mul_right_inj' hd, mul_add, mul_div_cancel₀ _ hd, mul_div_cancel₀ _ hd, ← hsplit]

section Half

variable {rest denominator : Nat}

theorem div_lt_half_iff (hpos : 0 < denominator) : (rest / denominator : ℚ) < 1 / 2 ↔ 2 * rest < denominator := by
  rw [div_lt_div_iff₀ (Nat.cast_pos.2 hpos) two_pos, one_mul, mul_comm]
  exact_mod_cast Iff.rfl

theorem half_lt_div_iff (hpos : 0 < denominator) : (1 / 2 : ℚ) < rest / denominator ↔ denominator < 2 * rest := by
  rw [div_lt_div_iff₀ two_pos (Nat.cast_pos.2 hpos), one_mul, mul_comm]
  exact_mod_cast Iff.rfl

theorem div_eq_half (hpos : 0 < denominator) (hlower : ¬ 2 * rest < denominator) (hupper : ¬ denominator < 2 * rest) :
    (rest / denominator : ℚ) = 1 / 2 :=
  le_antisymm (not_lt.1 ((half_lt_div_iff hpos).not.2 hupper)) (not_lt.1 ((div_lt_half_iff hpos).not.2 hlower))

end Half

theorem nearestInteger_divideToEven (numerator : Nat) {denominator : Nat} (hpos : 0 < denominator) :
    NearestInteger (numerator / denominator) (divideToEven numerator denominator) := by
  have hlt : ((numerator % denominator : Nat) / denominator : ℚ) < 1 :=
    (div_lt_one (Nat.cast_pos.2 hpos)).2 (Nat.cast_lt.2 (Nat.mod_lt numerator hpos))
  have hnonneg : (0 : ℚ) ≤ (numerator % denominator : Nat) / (denominator : ℚ) := by positivity
  rw [natCast_div_eq numerator hpos]
  unfold divideToEven
  dsimp only
  split
  · rename_i hless
    exact .below (by linarith) (add_lt_add_right ((div_lt_half_iff hpos).2 hless) _)
  · rename_i hge
    split
    · rename_i hmore
      exact .above (add_lt_add_right ((half_lt_div_iff hpos).2 hmore) _) (add_lt_add_right hlt _)
    · rename_i hle
      rw [div_eq_half hpos hge hle]
      exact .tie _

theorem nearestInteger_scaleToEven (s : Nat) (shift : Int) :
    NearestInteger (magnitude s shift) (scaleToEven s shift) := by
  match shift with
  | .ofNat k =>
    have hexact : (scaleToEven s (.ofNat k) : ℚ) = magnitude s (.ofNat k) := (magnitude_natCast s k).symm
    rw [← hexact]
    exact .natCast _
  | .negSucc k =>
    have hvalue : magnitude s (.negSucc k) = s / (2 ^ (k + 1) : Nat) := by
      unfold magnitude
      rw [zpow_negSucc, div_eq_mul_inv]
      push_cast
      rfl
    rw [hvalue]
    exact nearestInteger_divideToEven s (Nat.two_pow_pos (k + 1))

namespace FloatFormat

variable {f : FloatFormat} {q q' : ℚ} {s s' r r' : Nat} {e e' k k' : Int}

/-! ### The grid of a format -/

/-- A significand and an exponent as the format would keep them if its exponents had no upper end. -/
structure OnGrid (f : FloatFormat) (significand : Nat) (exponent : Int) : Prop where
  lt : significand < 2 ^ f.precision
  least_le : f.leastExponent ≤ exponent
  normal : 2 ^ f.fractionBits ≤ significand ∨ exponent = f.leastExponent

theorem Canonical.onGrid (h : f.Canonical s e) : f.OnGrid s e :=
  ⟨h.lt, h.least_le, h.normal⟩

private theorem two_pow_precision (hf : f.Regular) : 2 ^ f.precision = 2 ^ f.fractionBits * 2 := by
  rw [precision_eq hf, Nat.pow_succ]

namespace OnGrid

/-- A number of a lower exponent is less, because the significand of the other one is full. -/
theorem magnitude_lt (hf : f.Regular) (h : f.OnGrid s e) (h' : f.OnGrid s' e') (hlt : e' < e) :
    magnitude s' e' < magnitude s e := by
  have hleast := h'.least_le
  have hnormal := h.normal.resolve_right (by omega)
  obtain ⟨j, hj⟩ : ∃ j : Nat, e = e' + (j + 1 : Nat) := ⟨(e - e' - 1).toNat, by omega⟩
  rw [hj, ← magnitude_mul_two_pow, magnitude_lt_magnitude]
  calc
    s' < 2 ^ f.fractionBits * 2 := two_pow_precision hf ▸ h'.lt
    _ ≤ s * 2 ^ (j + 1) := Nat.mul_le_mul hnormal (Nat.le_self_pow (Nat.succ_ne_zero j) 2)

/-- A number is on the grid in one way only. -/
theorem eq_of_magnitude_eq (hf : f.Regular) (h : f.OnGrid s e) (h' : f.OnGrid s' e')
    (heq : magnitude s e = magnitude s' e') : s = s' ∧ e = e' := by
  have he : e = e' := by
    rcases lt_trichotomy e e' with hlt | he | hgt
    · exact absurd heq (h'.magnitude_lt hf h hlt).ne
    · exact he
    · exact absurd heq (h.magnitude_lt hf h' hgt).ne'
  subst he
  exact ⟨magnitude_inj.1 heq, rfl⟩

theorem zero (f : FloatFormat) : f.OnGrid 0 f.leastExponent :=
  ⟨Nat.two_pow_pos _, le_rfl, .inr rfl⟩

/-- The first number of an exponent above the least one has the least full significand. -/
theorem first (hf : f.Regular) (he : f.leastExponent ≤ e) : f.OnGrid (2 ^ f.fractionBits) e := by
  refine ⟨?_, he, .inl le_rfl⟩
  have := Nat.two_pow_pos f.fractionBits
  rw [two_pow_precision hf]
  omega

/-- A greater number is greater by a last place at least. -/
theorem succ_le (hf : f.Regular) (h : f.OnGrid s e) (h' : f.OnGrid s' e') (hlt : magnitude s e < magnitude s' e') :
    magnitude (s + 1) e ≤ magnitude s' e' := by
  have he : e ≤ e' := by
    by_contra he
    exact absurd hlt (h.magnitude_lt hf h' (not_le.1 he)).not_gt
  -- the greater number is a multiple of the last place of the other one
  obtain ⟨j, rfl⟩ : ∃ j : Nat, e' = e + j := ⟨(e' - e).toNat, by omega⟩
  rw [← magnitude_mul_two_pow] at hlt ⊢
  exact magnitude_le_magnitude.2 (Nat.succ_le_of_lt (magnitude_lt_magnitude.1 hlt))

/-- An even significand is not the last one of its exponent. -/
theorem succ_of_even (hf : f.Regular) (h : f.OnGrid s e) (heven : s % 2 = 0) : f.OnGrid (s + 1) e := by
  have hp := two_pow_precision hf
  have hlt := h.lt
  exact ⟨by omega, h.least_le, h.normal.imp_left Nat.le_succ_of_le⟩

/-- A significand that is not full can be shifted to the left, as far as the exponents go. -/
theorem exists_of_lt (hf : f.Regular) (hs : s < 2 ^ f.precision) (he : f.leastExponent ≤ e) :
    ∃ s' e', f.OnGrid s' e' ∧ magnitude s' e' = magnitude s e := by
  obtain ⟨j, hj⟩ : ∃ j : Nat, e = f.leastExponent + j := ⟨(e - f.leastExponent).toNat, by omega⟩
  induction j generalizing s e with
  | zero => exact ⟨s, e, ⟨hs, he, .inr (by omega)⟩, rfl⟩
  | succ j ih =>
    rcases Nat.lt_or_ge s (2 ^ f.fractionBits) with hsub | hnormal
    · have hdouble : s * 2 ^ 1 < 2 ^ f.precision := by
        rw [two_pow_precision hf]
        omega
      obtain ⟨s', e', hgrid, hsame⟩ := ih (e := e - 1) hdouble (by omega) (by omega)
      rw [magnitude_mul_two_pow, Nat.cast_one, sub_add_cancel] at hsame
      exact ⟨s', e', hgrid, hsame⟩
    · exact ⟨s, e, ⟨hs, he, .inl hnormal⟩, rfl⟩

/-- A last place above a number of the grid there is another one. -/
theorem exists_succ (hf : f.Regular) (h : f.OnGrid s e) :
    ∃ s' e', f.OnGrid s' e' ∧ magnitude s' e' = magnitude (s + 1) e := by
  have hlt := h.lt
  have hleast := h.least_le
  rcases (Nat.succ_le_of_lt hlt).lt_or_eq with hlt | hfull
  · exact ⟨s + 1, e, ⟨hlt, hleast, h.normal.imp_left Nat.le_succ_of_le⟩, rfl⟩
  · refine ⟨2 ^ f.fractionBits, e + 1, .first hf (by omega), ?_⟩
    rw [← Nat.succ_eq_add_one s, hfull, two_pow_precision hf]
    exact (magnitude_mul_two_pow _ 1 e).symm

end OnGrid

/-- The number of the grid that is nearest to `q`; of two it is the one with an even significand. -/
structure Nearest (f : FloatFormat) (q : ℚ) (significand : Nat) (exponent : Int) : Prop where
  onGrid : f.OnGrid significand exponent
  le : ∀ {s : Nat} {e : Int}, f.OnGrid s e → |q - magnitude significand exponent| ≤ |q - magnitude s e|
  even : ∀ {s : Nat} {e : Int}, f.OnGrid s e → magnitude s e ≠ magnitude significand exponent →
    |q - magnitude s e| = |q - magnitude significand exponent| → significand % 2 = 0

/-- A number of the grid is nearest to itself. -/
theorem OnGrid.nearest (h : f.OnGrid s e) : f.Nearest (magnitude s e) s e := by
  refine ⟨h, fun _ => ?_, fun _ hne heq => ?_⟩
  · rw [sub_self, abs_zero]
    exact abs_nonneg _
  · rw [sub_self, abs_zero, abs_eq_zero, sub_eq_zero] at heq
    exact absurd heq.symm hne

namespace Nearest

/-- No other number is nearest to a number of the grid. -/
theorem magnitude_eq (h : f.Nearest (magnitude s e) r k) (hs : f.OnGrid s e) : magnitude r k = magnitude s e := by
  have hle := h.le hs
  rw [sub_self, abs_zero] at hle
  exact (sub_eq_zero.1 (abs_eq_zero.1 (le_antisymm hle (abs_nonneg _)))).symm

/-- Two numbers of the grid are not both nearest to `q`: they would follow one another, both with even significands. -/
private theorem not_magnitude_lt (hf : f.Regular) (h : f.Nearest q r k) (h' : f.Nearest q r' k') :
    ¬ magnitude r k < magnitude r' k' := by
  intro hlt
  have hsame : |q - magnitude r' k'| = |q - magnitude r k| := le_antisymm (h'.le h.onGrid) (h.le h'.onGrid)
  have heven := h.even h'.onGrid hlt.ne' hsame
  have heven' := h'.even h.onGrid hlt.ne hsame.symm
  -- `q` lies in the middle, so that no number of the grid lies between the two
  have hmiddle : q - magnitude r k = magnitude r' k' - q := by
    rcases abs_eq_abs.1 hsame with heq | heq <;> linarith
  have hnext := h.onGrid.succ_of_even hf heven
  have hstep : magnitude r k < magnitude (r + 1) k := magnitude_lt_magnitude.2 (Nat.lt_succ_self r)
  have hge : magnitude r' k' ≤ magnitude (r + 1) k := by
    have hle := h.le hnext
    rw [abs_of_pos (by linarith)] at hle
    rcases abs_cases (q - magnitude (r + 1) k) with ⟨habs, _⟩ | ⟨habs, _⟩ <;> rw [habs] at hle <;> linarith
  have hle := h.onGrid.succ_le hf h'.onGrid hlt
  obtain ⟨rfl, _⟩ := h'.onGrid.eq_of_magnitude_eq hf hnext (le_antisymm hge hle)
  omega

/-- There is one nearest number. -/
theorem unique (hf : f.Regular) (h : f.Nearest q r k) (h' : f.Nearest q r' k') : r = r' ∧ k = k' :=
  h.onGrid.eq_of_magnitude_eq hf h'.onGrid (le_antisymm (not_lt.1 (h'.not_magnitude_lt hf h))
    (not_lt.1 (h.not_magnitude_lt hf h')))

/-- Rounding keeps the order. -/
theorem mono (hf : f.Regular) (h : f.Nearest q r k) (h' : f.Nearest q' r' k') (hle : q ≤ q') :
    magnitude r k ≤ magnitude r' k' := by
  by_contra hlt
  rw [not_le] at hlt
  -- `q` is not below the middle of the two rounded numbers, and `q'` is not above it
  have hupper : magnitude r k + magnitude r' k' ≤ 2 * q := by
    have hnear := h.le h'.onGrid
    rcases abs_cases (q - magnitude r k) with ⟨habs, _⟩ | ⟨habs, _⟩ <;>
      rcases abs_cases (q - magnitude r' k') with ⟨habs', _⟩ | ⟨habs', _⟩ <;> rw [habs, habs'] at hnear <;> linarith
  have hlower : 2 * q' ≤ magnitude r k + magnitude r' k' := by
    have hnear := h'.le h.onGrid
    rcases abs_cases (q' - magnitude r k) with ⟨habs, _⟩ | ⟨habs, _⟩ <;>
      rcases abs_cases (q' - magnitude r' k') with ⟨habs', _⟩ | ⟨habs', _⟩ <;> rw [habs, habs'] at hnear <;> linarith
  obtain rfl : q = q' := by linarith
  obtain ⟨rfl, rfl⟩ := h.unique hf h'
  exact lt_irrefl _ hlt

end Nearest

/-! ### Rounded significands -/

/-- The place at which a format rounds a number: the significand is full before it, or it is the least one. -/
structure RoundsAt (f : FloatFormat) (q : ℚ) (last : Int) : Prop where
  least_le : f.leastExponent ≤ last
  lt : q < magnitude (2 ^ f.precision) last
  full : magnitude (2 ^ f.fractionBits) last ≤ q ∨ last = f.leastExponent

private theorem distance_eq (q : ℚ) (y : Nat) (d : Int) : |q - magnitude y d| = |q / 2 ^ d - y| * 2 ^ d := by
  have hd : (0 : ℚ) < 2 ^ d := zpow_pos (by norm_num) d
  conv_lhs => rw [← div_mul_cancel₀ q hd.ne']
  show |q / 2 ^ d * 2 ^ d - y * 2 ^ d| = _
  rw [← sub_mul, abs_mul, abs_of_pos hd]

namespace RoundsAt

variable {last : Int} {m : Nat}

/-- A significand rounded at the last place is as near as any number of the grid, and even if another one is as near. -/
private theorem nearest_rounded (hf : f.Regular) (h : f.RoundsAt q last) (hm : NearestInteger (q / 2 ^ last) m)
    (hgrid : f.OnGrid s' e') :
    |q - magnitude m last| ≤ |q - magnitude s' e'| ∧
      (magnitude s' e' ≠ magnitude m last → |q - magnitude s' e'| = |q - magnitude m last| → m % 2 = 0) := by
  have hplace : (0 : ℚ) < 2 ^ last := zpow_pos (by norm_num) last
  -- the rounded significand is nearest among the multiples of the last place
  have hmultiple : ∀ y : Nat, |q - magnitude m last| ≤ |q - magnitude y last| := by
    intro y
    rw [distance_eq, distance_eq]
    exact mul_le_mul_of_nonneg_right (hm.le_other y) hplace.le
  rcases lt_or_ge e' last with hlt | hge
  · -- numbers of a lower exponent are below the numbers with a full significand
    have hbelow := hgrid.least_le
    have hle := h.full.resolve_right (by omega)
    have hless := (OnGrid.first hf h.least_le).magnitude_lt hf hgrid hlt
    have hstrict : |q - magnitude m last| < |q - magnitude s' e'| := by
      refine (hmultiple (2 ^ f.fractionBits)).trans_lt ?_
      rw [abs_of_nonneg (by linarith), abs_of_pos (by linarith)]
      linarith
    exact ⟨hstrict.le, fun _ heq => absurd heq hstrict.ne'⟩
  · obtain ⟨j, rfl⟩ : ∃ j : Nat, e' = last + j := ⟨(e' - last).toNat, by omega⟩
    rw [← magnitude_mul_two_pow]
    refine ⟨hmultiple _, ?_⟩
    intro hne heq
    rw [distance_eq, distance_eq] at heq
    refine hm.even_of_eq ?_ (mul_right_cancel₀ hplace.ne' heq)
    rintro rfl
    exact hne rfl

/-- A rounded significand fits the precision, or it is the next power of two; it is full above the least exponent. -/
private theorem rounded_bounds (h : f.RoundsAt q last) (hm : NearestInteger (q / 2 ^ last) m) :
    m ≤ 2 ^ f.precision ∧ (2 ^ f.fractionBits ≤ m ∨ last = f.leastExponent) := by
  have hplace : (0 : ℚ) < 2 ^ last := zpow_pos (by norm_num) last
  have hinteger := abs_le.1 hm.le
  refine ⟨?_, h.full.imp_left fun hfull => ?_⟩
  · have hupper := (div_lt_iff₀ hplace).2 h.lt
    have hlt : (m : ℚ) < (2 ^ f.precision + 1 : Nat) := by
      push_cast at hupper ⊢
      linarith [hinteger.1]
    exact Nat.lt_succ_iff.1 (Nat.cast_lt.1 hlt)
  · have hlower := (le_div_iff₀ hplace).2 hfull
    have hgt : ((2 ^ f.fractionBits : Nat) : ℚ) < (m + 1 : Nat) := by
      push_cast at hlower ⊢
      linarith [hinteger.2]
    exact Nat.lt_succ_iff.1 (Nat.cast_lt.1 hgt)

/-- A number is rounded to its significand at the last place, which may carry. -/
theorem exists_nearest (hf : f.Regular) (hp : 1 < f.precision) (h : f.RoundsAt q last)
    (hm : NearestInteger (q / 2 ^ last) m) :
    m < 2 ^ f.precision ∧ f.Nearest q m last ∨
      m = 2 ^ f.precision ∧ f.Nearest q (2 ^ f.fractionBits) (last + 1) := by
  have hleast := h.least_le
  have hnearest := fun {s' e'} (hgrid : f.OnGrid s' e') => h.nearest_rounded hf hm hgrid
  obtain ⟨hle, hnormal⟩ := h.rounded_bounds hm
  rcases hle.lt_or_eq with hlt | rfl
  · exact .inl ⟨hlt, ⟨hlt, hleast, hnormal⟩, fun hgrid => (hnearest hgrid).1, fun hgrid => (hnearest hgrid).2⟩
  · -- the significand has carried
    have hsame : magnitude (2 ^ f.fractionBits) (last + 1) = magnitude (2 ^ f.precision) last := by
      rw [two_pow_precision hf]
      exact (magnitude_mul_two_pow _ 1 last).symm
    have heven : 2 ^ f.fractionBits % 2 = 0 := by
      have hbits := precision_eq hf
      obtain ⟨j, hj⟩ : ∃ j, f.fractionBits = j + 1 := ⟨f.fractionBits - 1, by omega⟩
      rw [hj, Nat.pow_succ, Nat.mul_mod_left]
    refine .inr ⟨rfl, .first hf (by omega), ?_, fun _ _ _ => heven⟩
    intro s' e' hgrid
    rw [hsame]
    exact (hnearest hgrid).1

end RoundsAt

/-- A number below a power of two is rounded as many places below it as the format has. -/
theorem roundsAt_of_lt (hf : f.Regular) {top : Int} (hupper : q < 2 ^ top)
    (hlower : 2 ^ (top - 1) ≤ q ∨ top - f.precision ≤ f.leastExponent) :
    f.RoundsAt q (max (top - f.precision) f.leastExponent) := by
  have hp := precision_eq hf
  refine ⟨le_max_right _ _, ?_, ?_⟩
  · rw [magnitude_two_pow]
    exact hupper.trans_le (zpow_le_zpow_right₀ (by norm_num) (by omega))
  · rcases le_or_gt (top - f.precision) f.leastExponent with hle | hgt
    · exact .inr (max_eq_right hle)
    · left
      rw [max_eq_left hgt.le, magnitude_two_pow, show top - f.precision + f.fractionBits = top - 1 by omega]
      exact hlower.resolve_right (not_le.2 hgt)

private theorem roundsAt_lastPlace (hf : f.Regular) (hs : s ≠ 0) (e : Int) :
    f.RoundsAt (magnitude s e) (f.lastPlace s e) := by
  have hplace : (0 : ℚ) < 2 ^ e := zpow_pos (by norm_num) e
  refine roundsAt_of_lt hf ?_ (.inl ?_)
  · rw [show e + ((s.log2 : Int) + 1) = e + (s.log2 + 1 : Nat) by push_cast; ring, ← magnitude_two_pow,
      magnitude_lt_magnitude]
    exact Nat.lt_log2_self
  · rw [show e + ((s.log2 : Int) + 1) - 1 = e + (s.log2 : Nat) by ring, ← magnitude_two_pow]
    exact magnitude_le_magnitude.2 (Nat.log2_self_le hs)

/-- The pattern of a number is that of the nearest number of the grid. -/
private theorem exists_nearest (hf : f.Regular) (hp : 1 < f.precision) (hs : s ≠ 0) (e : Int) :
    ∃ r k, f.Nearest (magnitude s e) r k ∧ (k - f.leastExponent).toNat * 2 ^ f.fractionBits + r =
      (f.lastPlace s e - f.leastExponent).toNat * 2 ^ f.fractionBits + scaleToEven s (e - f.lastPlace s e) := by
  have hlast := roundsAt_lastPlace hf hs e
  have hleast := hlast.least_le
  have hinteger := nearestInteger_scaleToEven s (e - f.lastPlace s e)
  rw [show magnitude s (e - f.lastPlace s e) = magnitude s e / 2 ^ f.lastPlace s e by
    unfold magnitude
    rw [zpow_sub₀ (by norm_num), mul_div_assoc]] at hinteger
  rcases hlast.exists_nearest hf hp hinteger with ⟨_, hnearest⟩ | ⟨hm, hnearest⟩
  · exact ⟨_, _, hnearest, rfl⟩
  · refine ⟨_, _, hnearest, ?_⟩
    rw [hm, show (f.lastPlace s e + 1 - f.leastExponent).toNat = (f.lastPlace s e - f.leastExponent).toNat + 1 by omega,
      two_pow_precision hf]
    ring

private theorem read_write_infinite (f : FloatFormat) (negative : Bool) :
    f.read (f.write (.infinite negative)) = .infinite negative := by
  have hfraction := Nat.two_pow_pos f.fractionBits
  have hfield : f.infinityBits / 2 ^ f.fractionBits = f.topExponent := Nat.mul_div_cancel _ hfraction
  have hrest : f.infinityBits % 2 ^ f.fractionBits = 0 := Nat.mul_mod_left _ _
  show f.read (negative.toNat * f.signWeight + f.infinityBits) = _
  rw [f.read_sign_add negative f.infinityBits_lt, hfield, hrest, if_pos rfl, if_pos rfl]

/-- The first exponent that the format lacks. -/
def exponentEnd (f : FloatFormat) : Int :=
  f.leastExponent + f.topExponent - 1

theorem OnGrid.canonical (h : f.OnGrid s e) (he : e < f.exponentEnd) : f.Canonical s e := by
  unfold exponentEnd at he
  exact ⟨h.lt, h.least_le, h.normal, by omega⟩

private theorem least_lt_exponentEnd (hf : f.Regular) : f.leastExponent < f.exponentEnd := by
  have htop := one_lt_topExponent hf
  unfold exponentEnd
  omega

/-- A finite datum is written as the nearest number of the grid, or as an infinity if the format lacks its exponent. -/
private theorem read_write_nearest (hf : f.Regular) (hp : 1 < f.precision) (negative : Bool) (s : Nat) (e : Int) :
    ∃ r k, f.Nearest (magnitude s e) r k ∧ f.read (f.write (.finite negative s e)) =
      if k < f.exponentEnd then .finite negative r k else .infinite negative := by
  have hend := least_lt_exponentEnd hf
  rcases eq_or_ne s 0 with rfl | hs
  · refine ⟨0, f.leastExponent, ?_, ?_⟩
    · rw [(zero_magnitude e).trans (zero_magnitude f.leastExponent).symm]
      exact (OnGrid.zero f).nearest
    · rw [if_pos hend, write_zero f negative e f.leastExponent]
      exact read_write hf negative ((OnGrid.zero f).canonical hend)
  · obtain ⟨r, k, hnearest, hpattern⟩ := exists_nearest hf hp hs e
    have hbits : f.magnitudeBits s e =
        min ((k - f.leastExponent).toNat * 2 ^ f.fractionBits + r) f.infinityBits := by
      rw [hpattern]
      exact if_neg hs
    refine ⟨r, k, hnearest, ?_⟩
    split
    · rename_i hk
      have hcanonical := hnearest.onGrid.canonical hk
      have hsame := hcanonical.magnitudeBits_eq hf
      have hle := f.magnitudeBits_le r k
      rw [← hsame, Nat.min_eq_left hle] at hbits
      have hwrite : f.write (.finite negative s e) = f.write (.finite negative r k) :=
        congrArg (negative.toNat * f.signWeight + ·) hbits
      rw [hwrite]
      exact read_write hf negative hcanonical
    · -- the pattern would be beyond that of infinity
      rename_i hk
      have hnormal := hnearest.onGrid.normal.resolve_right (by omega)
      have hle : f.infinityBits ≤ (k - f.leastExponent).toNat * 2 ^ f.fractionBits + r := by
        have hfield : f.topExponent ≤ (k - f.leastExponent).toNat + 1 := by
          unfold exponentEnd at hk
          omega
        calc
          f.topExponent * 2 ^ f.fractionBits
            ≤ ((k - f.leastExponent).toNat + 1) * 2 ^ f.fractionBits := Nat.mul_le_mul_right _ hfield
          _ ≤ (k - f.leastExponent).toNat * 2 ^ f.fractionBits + r := by
            rw [Nat.succ_mul]
            omega
      rw [Nat.min_eq_right hle] at hbits
      have hwrite : f.write (.finite negative s e) = f.write (.infinite negative) :=
        congrArg (negative.toNat * f.signWeight + ·) hbits
      rw [hwrite]
      exact f.read_write_infinite negative

/-- The datum that another one is rounded to if exponents may be of any size. -/
inductive Rounds (f : FloatFormat) : Datum → Datum → Prop
  | nan : f.Rounds .nan .nan
  | infinite (negative : Bool) : f.Rounds (.infinite negative) (.infinite negative)
  | finite (negative : Bool) {s r : Nat} {e k : Int} (nearest : f.Nearest (magnitude s e) r k) :
    f.Rounds (.finite negative s e) (.finite negative r k)

theorem Rounds.unique (hf : f.Regular) {d d₁ d₂ : Datum} (h₁ : f.Rounds d d₁) (h₂ : f.Rounds d d₂) : d₁ = d₂ := by
  cases h₁ with
  | nan => cases h₂; rfl
  | infinite negative => cases h₂; rfl
  | finite negative h₁ =>
    cases h₂ with
    | finite _ h₂ =>
      obtain ⟨rfl, rfl⟩ := h₁.unique hf h₂
      rfl

/-- A number whose exponent the format lacks becomes an infinity. -/
def clamp (f : FloatFormat) : Datum → Datum
  | .finite negative s e => if e < f.exponentEnd then .finite negative s e else .infinite negative
  | d => d

theorem clamp_finite {negative : Bool} (he : e < f.exponentEnd) :
    f.clamp (.finite negative s e) = .finite negative s e :=
  if_pos he

theorem clamp_beyond {negative : Bool} (he : ¬ e < f.exponentEnd) :
    f.clamp (.finite negative s e) = .infinite negative :=
  if_neg he

theorem Rounds.clamp_ne_nan {d d' : Datum} (h : f.Rounds d d') (hd : d ≠ .nan) : f.clamp d' ≠ .nan := by
  cases h with
  | nan => exact absurd rfl hd
  | infinite negative => exact nofun
  | finite negative _ =>
    unfold clamp
    dsimp only
    split <;> exact nofun

/-- What is written and read back is rounded; what is out of range then is infinite. -/
theorem read_write_eq_clamp (hf : f.Regular) (hp : 1 < f.precision) {d : Datum} (hd : d ≠ .nan) :
    ∃ d', f.Rounds d d' ∧ f.read (f.write d) = f.clamp d' := by
  cases d with
  | nan => exact absurd rfl hd
  | infinite negative => exact ⟨_, .infinite negative, f.read_write_infinite negative⟩
  | finite negative s e =>
    obtain ⟨r, k, hnearest, hread⟩ := read_write_nearest hf hp negative s e
    exact ⟨_, .finite negative hnearest, hread⟩

/-- The numbers of the exponents that the format has are below the first number of another exponent. -/
theorem OnGrid.lt_exponentEnd_iff (hf : f.Regular) (h : f.OnGrid s e) :
    e < f.exponentEnd ↔ magnitude s e < magnitude (2 ^ f.fractionBits) f.exponentEnd := by
  have hend := least_lt_exponentEnd hf
  have hfirst := OnGrid.first hf hend.le
  refine ⟨fun hlt => hfirst.magnitude_lt hf h hlt, fun hlt => ?_⟩
  by_contra hge
  rcases (not_lt.1 hge).eq_or_lt with heq | hgt
  · have hnormal := h.normal.resolve_right (by omega)
    rw [heq, magnitude_lt_magnitude] at hlt
    omega
  · exact absurd hlt (h.magnitude_lt hf hfirst hgt).not_gt

/-- The last number of a format and the next one of the grid, half a unit below and above `middle`. -/
private theorem exists_last (hf : f.Regular) : ∃ s, f.OnGrid s (f.exponentEnd - 1) ∧ s + 1 = 2 ^ f.precision ∧
    magnitude s (f.exponentEnd - 1) =
      magnitude (2 * 2 ^ f.precision - 1) (f.exponentEnd - 2) - 2 ^ (f.exponentEnd - 2) ∧
    magnitude (2 ^ f.fractionBits) f.exponentEnd =
      magnitude (2 * 2 ^ f.precision - 1) (f.exponentEnd - 2) + 2 ^ (f.exponentEnd - 2) := by
  have hend := least_lt_exponentEnd hf
  have hpow := two_pow_precision hf
  have hpos := Nat.two_pow_pos f.fractionBits
  have hunit : ∀ s : Nat, magnitude s (f.exponentEnd - 1) = s * 2 * 2 ^ (f.exponentEnd - 2) := by
    intro s
    have hplace : f.exponentEnd - 1 = f.exponentEnd - 2 + (1 : Nat) := by omega
    rw [hplace, ← magnitude_mul_two_pow]
    unfold magnitude
    push_cast
    ring
  refine ⟨2 ^ f.precision - 1, ⟨by omega, by omega, .inl (by omega)⟩, by omega, ?_, ?_⟩
  · rw [hunit]
    unfold magnitude
    rw [Nat.cast_sub (by omega), Nat.cast_sub (by omega)]
    push_cast
    ring
  · have hplace : f.exponentEnd = f.exponentEnd - 1 + (1 : Nat) := by omega
    rw [hplace, ← magnitude_mul_two_pow, Nat.pow_one, ← hpow, ← hplace, hunit]
    unfold magnitude
    rw [Nat.cast_sub (by omega)]
    push_cast
    ring

/-- The middle between the last number of a format and the next one of the grid. -/
def overflow (f : FloatFormat) : ℚ :=
  magnitude (2 * 2 ^ f.precision - 1) (f.exponentEnd - 2)

/-- A number leaves the range of a format from the middle after its last number on. -/
theorem Nearest.exponentEnd_le_iff (hf : f.Regular) (h : f.Nearest q r k) : f.exponentEnd ≤ k ↔ f.overflow ≤ q := by
  unfold overflow
  obtain ⟨s, hlast, hodd, hlower, hupper⟩ := exists_last hf
  have hrange := h.onGrid.lt_exponentEnd_iff hf
  have hbeyond := OnGrid.first hf (least_lt_exponentEnd hf).le
  have hunit : (0 : ℚ) < 2 ^ (f.exponentEnd - 2) := zpow_pos (by norm_num) _
  generalize (2 : ℚ) ^ (f.exponentEnd - 2) = unit at *
  generalize magnitude (2 * 2 ^ f.precision - 1) (f.exponentEnd - 2) = middle at *
  rw [← not_lt, hrange, not_lt]
  constructor
  · -- below the middle, the last number of the format is nearer
    intro hge
    by_contra hlt
    have hle := h.le hlast
    rw [abs_of_neg (by linarith)] at hle
    rcases abs_cases (q - magnitude s (f.exponentEnd - 1)) with ⟨habs, _⟩ | ⟨habs, _⟩ <;> rw [habs] at hle <;> linarith
  · intro hge
    by_contra hlt
    have hk := hrange.2 (not_le.1 hlt)
    have hbelow : magnitude r k ≤ magnitude s (f.exponentEnd - 1) := by
      rcases (Int.le_sub_one_of_lt hk).lt_or_eq with hk | rfl
      · exact (hlast.magnitude_lt hf h.onGrid hk).le
      · have hr := h.onGrid.lt
        exact not_lt.1 fun hgt => absurd (magnitude_lt_magnitude.1 hgt) (by omega)
    have hle := h.le hbeyond
    rw [abs_of_nonneg (by linarith)] at hle
    have hnear : magnitude (2 ^ f.fractionBits) f.exponentEnd - q = q - magnitude r k := by
      rcases abs_cases (q - magnitude (2 ^ f.fractionBits) f.exponentEnd) with ⟨habs, _⟩ | ⟨habs, _⟩ <;>
        rw [habs] at hle <;> linarith
    -- in the middle, the significand of the last number is odd
    have hsame : magnitude r k = magnitude s (f.exponentEnd - 1) := by linarith
    have heven := h.even hbeyond (by linarith) (by rw [abs_sub_comm, abs_of_nonneg, abs_of_nonneg] <;> linarith)
    obtain ⟨rfl, _⟩ := h.onGrid.eq_of_magnitude_eq hf hlast hsame
    have hpow := two_pow_precision hf
    omega

end FloatFormat

end ShaderExpr
