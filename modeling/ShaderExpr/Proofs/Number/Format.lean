import Mathlib
import ShaderExpr.Number.Datum

/-!
# Reading what was written

A finite datum is canonical in a format if the format keeps all of its significand and if it is written with
the largest significand that the format has for it.  What is read is canonical, and what is canonical is
written exactly:

* `FloatFormat.read_write` reads back what was written of a canonical datum;
* `FloatFormat.write_read` writes back what was read of a pattern that is no NaN.

The pattern of a number depends on its value only (`FloatFormat.magnitudeBits_scale`), so every
single-precision number is written exactly in double precision, and back
(`FloatFormat.binary32_write_widened`).
-/

namespace ShaderExpr

theorem divideToEven_mul {numerator denominator c : Nat} (hc : 0 < c) :
    divideToEven (numerator * c) (denominator * c) = divideToEven numerator denominator := by
  unfold divideToEven
  have hrest : 2 * (numerator * c % (denominator * c)) = 2 * (numerator % denominator) * c := by
    rw [Nat.mul_mod_mul_right, Nat.mul_assoc]
  dsimp only
  rw [Nat.mul_div_mul_right _ _ hc, hrest]
  simp only [Nat.mul_lt_mul_right hc]

private theorem divideToEven_double (s : Nat) : divideToEven (s * 2) 2 = s := by
  unfold divideToEven
  simp

/-- Doubling a significand makes up for one place less. -/
private theorem scaleToEven_double (s : Nat) (shift : Int) :
    scaleToEven (s * 2) (shift - 1) = scaleToEven s shift := by
  match shift with
  | .ofNat 0 => exact (divideToEven_double s).trans (Nat.mul_one s).symm
  | .ofNat (j + 1) =>
    rw [show Int.ofNat (j + 1) - 1 = Int.ofNat j by simp]
    show s * 2 * 2 ^ j = s * 2 ^ (j + 1)
    ring
  | .negSucc j =>
    rw [show Int.negSucc j - 1 = Int.negSucc (j + 1) by omega]
    show divideToEven (s * 2) (2 ^ (j + 1) * 2) = _
    exact divideToEven_mul (by decide)

theorem scaleToEven_zero (s : Nat) : scaleToEven s 0 = s :=
  Nat.mul_one s

namespace FloatFormat

private theorem log2_double {s : Nat} (hs : s ≠ 0) : (s * 2).log2 = s.log2 + 1 := by
  rw [Nat.mul_comm]
  exact Nat.log2_two_mul hs

theorem magnitudeBits_zero (f : FloatFormat) (e : Int) : f.magnitudeBits 0 e = 0 :=
  if_pos rfl

private theorem magnitudeBits_double (f : FloatFormat) (s : Nat) (e : Int) :
    f.magnitudeBits (s * 2) (e - 1) = f.magnitudeBits s e := by
  rcases Nat.eq_zero_or_pos s with rfl | hs
  · rw [Nat.zero_mul, magnitudeBits_zero, magnitudeBits_zero]
  · have hs0 : s ≠ 0 := Nat.pos_iff_ne_zero.1 hs
    have hlast : f.lastPlace (s * 2) (e - 1) = f.lastPlace s e := by
      unfold lastPlace
      rw [log2_double hs0]
      congr 1
      push_cast
      ring
    unfold magnitudeBits
    rw [if_neg hs0, if_neg (Nat.mul_ne_zero hs0 (by decide)), hlast]
    dsimp only
    rw [show e - 1 - f.lastPlace s e = e - f.lastPlace s e - 1 by ring, scaleToEven_double]

/-- The pattern of a number depends on its value only. -/
theorem magnitudeBits_scale (f : FloatFormat) (s k : Nat) (e : Int) :
    f.magnitudeBits (s * 2 ^ k) (e - k) = f.magnitudeBits s e := by
  induction k with
  | zero => simp
  | succ k ih =>
    rw [← ih, ← f.magnitudeBits_double (s * 2 ^ k), Nat.mul_assoc, ← Nat.pow_succ]
    congr 1
    push_cast
    ring

/-- A format has significands, and exponents for numbers of every kind. -/
structure Regular (f : FloatFormat) : Prop where
  precision_pos : 0 < f.precision
  one_lt_exponentBits : 1 < f.exponentBits

theorem regular_binary32 : binary32.Regular := ⟨by decide, by decide⟩

theorem regular_binary64 : binary64.Regular := ⟨by decide, by decide⟩

/-- A significand and an exponent as the format keeps them. -/
structure Canonical (f : FloatFormat) (significand : Nat) (exponent : Int) : Prop where
  lt : significand < 2 ^ f.precision
  least_le : f.leastExponent ≤ exponent
  normal : 2 ^ f.fractionBits ≤ significand ∨ exponent = f.leastExponent
  exponent_lt : exponent - f.leastExponent + 1 < f.topExponent

variable {f : FloatFormat} {s : Nat} {e : Int}

theorem precision_eq (hf : f.Regular) : f.precision = f.fractionBits + 1 := by
  have := hf.precision_pos
  unfold fractionBits
  omega

private theorem Canonical.eq_least (h : f.Canonical s e) (hsub : s < 2 ^ f.fractionBits) : e = f.leastExponent :=
  h.normal.resolve_left (Nat.not_le_of_lt hsub)

private theorem Canonical.lastPlace_eq (h : f.Canonical s e) (hf : f.Regular) (hs : s ≠ 0) :
    f.lastPlace s e = e := by
  have hp := precision_eq hf
  have hlt := h.lt
  have hleast := h.least_le
  unfold lastPlace
  rcases Nat.lt_or_ge s (2 ^ f.fractionBits) with hsub | hnormal
  · have he := h.eq_least hsub
    have hlog := (Nat.log2_lt hs).2 hsub
    omega
  · -- a full significand is as long as the precision
    rw [hp] at hlt
    have hlog := (Nat.log2_eq_iff hs).2 ⟨hnormal, hlt⟩
    omega

/-- A canonical datum is written exactly. -/
theorem Canonical.magnitudeBits_eq (h : f.Canonical s e) (hf : f.Regular) :
    f.magnitudeBits s e = (e - f.leastExponent).toNat * 2 ^ f.fractionBits + s := by
  have hleast := h.least_le
  have htop := h.exponent_lt
  unfold magnitudeBits
  split
  · rename_i hs
    rw [h.eq_least (hs ▸ Nat.two_pow_pos f.fractionBits), hs]
    simp
  · rename_i hs
    dsimp only
    rw [h.lastPlace_eq hf hs, Int.sub_self, scaleToEven_zero]
    -- the pattern of a canonical number is below that of infinity
    refine Nat.min_eq_left ?_
    have hlt := h.lt
    rw [precision_eq hf, Nat.pow_succ] at hlt
    have hfield : (e - f.leastExponent).toNat + 2 ≤ f.topExponent := by omega
    calc
      (e - f.leastExponent).toNat * 2 ^ f.fractionBits + s
        ≤ ((e - f.leastExponent).toNat + 2) * 2 ^ f.fractionBits := by
          rw [Nat.add_mul]
          omega
      _ ≤ f.topExponent * 2 ^ f.fractionBits := Nat.mul_le_mul_right _ hfield

/-! ### Patterns -/

private theorem topExponent_lt (f : FloatFormat) : f.topExponent < 2 ^ f.exponentBits :=
  Nat.sub_one_lt_of_lt (Nat.two_pow_pos f.exponentBits)

theorem one_lt_topExponent (hf : f.Regular) : 1 < f.topExponent := by
  have hpow : 2 ^ 2 ≤ 2 ^ f.exponentBits := Nat.pow_le_pow_right (by decide) hf.one_lt_exponentBits
  show 1 < 2 ^ f.exponentBits - 1
  omega

theorem signWeight_eq (f : FloatFormat) : f.signWeight = 2 ^ f.exponentBits * 2 ^ f.fractionBits :=
  Nat.pow_add 2 f.exponentBits f.fractionBits

theorem infinityBits_lt (f : FloatFormat) : f.infinityBits < f.signWeight := by
  rw [signWeight_eq]
  exact Nat.mul_lt_mul_of_pos_right f.topExponent_lt (Nat.two_pow_pos f.fractionBits)

theorem magnitudeBits_le (f : FloatFormat) (s : Nat) (e : Int) : f.magnitudeBits s e ≤ f.infinityBits := by
  unfold magnitudeBits
  split
  · exact Nat.zero_le _
  · exact Nat.min_le_right _ _

private theorem exponentField_lt {m : Nat} (hm : m < f.signWeight) :
    m / 2 ^ f.fractionBits < 2 ^ f.exponentBits := by
  rw [signWeight_eq] at hm
  exact Nat.div_lt_of_lt_mul (by rwa [Nat.mul_comm])

/-- What is read of a sign and a magnitude. -/
theorem read_sign_add (f : FloatFormat) (negative : Bool) {m : Nat} (hm : m < f.signWeight) :
    f.read (negative.toNat * f.signWeight + m) =
      if m / 2 ^ f.fractionBits = f.topExponent then
        if m % 2 ^ f.fractionBits = 0 then .infinite negative else .nan
      else if m / 2 ^ f.fractionBits = 0 then .finite negative (m % 2 ^ f.fractionBits) f.leastExponent
      else .finite negative (2 ^ f.fractionBits + m % 2 ^ f.fractionBits)
        (f.leastExponent + ((m / 2 ^ f.fractionBits : Nat) - 1)) := by
  have hweight := f.signWeight_eq
  have hfraction := Nat.two_pow_pos f.fractionBits
  have hfield := exponentField_lt hm
  -- the sign is beyond both fields
  have hlow : (negative.toNat * f.signWeight + m) % 2 ^ f.fractionBits = m % 2 ^ f.fractionBits := by
    rw [hweight, ← Nat.mul_assoc, Nat.add_comm, Nat.add_mul_mod_self_right]
  have hhigh : (negative.toNat * f.signWeight + m) / 2 ^ f.fractionBits % 2 ^ f.exponentBits =
      m / 2 ^ f.fractionBits := by
    rw [hweight, ← Nat.mul_assoc, Nat.add_comm, Nat.add_mul_div_right _ _ hfraction, Nat.add_mul_mod_self_right]
    exact Nat.mod_eq_of_lt hfield
  have hsign : (negative.toNat * f.signWeight + m) / f.signWeight = negative.toNat := by
    rw [Nat.add_comm, Nat.add_mul_div_right _ _ (Nat.lt_of_le_of_lt (Nat.zero_le m) hm), Nat.div_eq_of_lt hm]
    exact Nat.zero_add _
  unfold read
  simp only [Nat.pow_eq, hlow, hhigh, hsign]
  cases negative <;> rfl

/-- A canonical datum is read back. -/
theorem read_write (hf : f.Regular) (negative : Bool) (h : f.Canonical s e) :
    f.read (f.write (.finite negative s e)) = .finite negative s e := by
  have hfraction := Nat.two_pow_pos f.fractionBits
  have hmagnitude := h.magnitudeBits_eq hf
  have hleast := h.least_le
  have htop := h.exponent_lt
  have hlt := h.lt
  have hbits : f.magnitudeBits s e < f.signWeight :=
    Nat.lt_of_le_of_lt (f.magnitudeBits_le s e) f.infinityBits_lt
  rw [precision_eq hf, Nat.pow_succ] at hlt
  show f.read (negative.toNat * f.signWeight + f.magnitudeBits s e) = _
  rw [f.read_sign_add negative hbits, hmagnitude]
  rcases Nat.lt_or_ge s (2 ^ f.fractionBits) with hsub | hnormal
  · -- a subnormal number has 0 in the exponent field
    have he := h.eq_least hsub
    subst he
    rw [Int.sub_self, Int.toNat_zero, Nat.zero_mul, Nat.zero_add, Nat.div_eq_of_lt hsub, Nat.mod_eq_of_lt hsub]
    rw [if_neg (Nat.ne_of_lt (Nat.zero_lt_of_lt (one_lt_topExponent hf))), if_pos rfl]
  · -- the leading bit of a normal number, which is not stored, carries into the exponent field
    obtain ⟨r, rfl⟩ := Nat.exists_eq_add_of_le hnormal
    have hr : r < 2 ^ f.fractionBits := by omega
    have hpattern : (e - f.leastExponent).toNat * 2 ^ f.fractionBits + (2 ^ f.fractionBits + r) =
        r + ((e - f.leastExponent).toNat + 1) * 2 ^ f.fractionBits := by ring
    rw [hpattern, Nat.add_mul_div_right _ _ hfraction, Nat.add_mul_mod_self_right, Nat.div_eq_of_lt hr,
      Nat.mod_eq_of_lt hr, Nat.zero_add, if_neg (by omega), if_neg (Nat.succ_ne_zero _)]
    congr 1
    omega

/-- A pattern is a sign and a magnitude. -/
theorem exists_sign_add {bits : Nat} (hbits : bits < 2 * f.signWeight) :
    ∃ (negative : Bool) (m : Nat), m < f.signWeight ∧ bits = negative.toNat * f.signWeight + m := by
  rcases Nat.lt_or_ge bits f.signWeight with hlt | hge
  · exact ⟨false, bits, hlt, by simp⟩
  · exact ⟨true, bits - f.signWeight, by omega, by simp; omega⟩

/-- A pattern is that of a NaN, of an infinity, or of a canonical datum. -/
theorem read_cases (hf : f.Regular) {bits : Nat} (hbits : bits < 2 * f.signWeight) :
    f.read bits = .nan ∨ (∃ negative, f.read bits = .infinite negative ∧ bits = f.write (.infinite negative)) ∨
      ∃ negative s e, f.read bits = .finite negative s e ∧ f.Canonical s e ∧
        bits = f.write (.finite negative s e) := by
  obtain ⟨negative, m, hm, rfl⟩ := exists_sign_add hbits
  have hfraction := Nat.two_pow_pos f.fractionBits
  have hrest : m % 2 ^ f.fractionBits < 2 ^ f.fractionBits := Nat.mod_lt m hfraction
  have hsplit := Nat.div_add_mod' m (2 ^ f.fractionBits)
  have htop := one_lt_topExponent hf
  have hfield := exponentField_lt hm
  have hexact : ∀ {s e}, f.Canonical s e → (e - f.leastExponent).toNat * 2 ^ f.fractionBits + s = m →
      negative.toNat * f.signWeight + m = f.write (.finite negative s e) := by
    intro s e hcanonical hs
    show _ = negative.toNat * f.signWeight + f.magnitudeBits s e
    rw [hcanonical.magnitudeBits_eq hf, hs]
  rw [f.read_sign_add negative hm]
  split
  · rename_i hinfinite
    split
    · rename_i hzero
      refine .inr (.inl ⟨negative, rfl, ?_⟩)
      show _ = negative.toNat * f.signWeight + f.topExponent * 2 ^ f.fractionBits
      rw [← hinfinite]
      omega
    · exact .inl rfl
  · rename_i hfinite
    have hlt : m / 2 ^ f.fractionBits < f.topExponent := by
      show _ < 2 ^ f.exponentBits - 1
      have : m / 2 ^ f.fractionBits ≠ 2 ^ f.exponentBits - 1 := hfinite
      omega
    split
    · rename_i hzero
      have hcanonical : f.Canonical (m % 2 ^ f.fractionBits) f.leastExponent := by
        refine ⟨?_, Int.le_refl _, .inr rfl, by omega⟩
        rw [precision_eq hf, Nat.pow_succ]
        omega
      refine .inr (.inr ⟨negative, _, _, rfl, hcanonical, hexact hcanonical ?_⟩)
      rw [Int.sub_self, Int.toNat_zero]
      rw [hzero] at hsplit
      exact hsplit
    · rename_i hnormal
      obtain ⟨k, hk⟩ := Nat.exists_eq_succ_of_ne_zero hnormal
      rw [hk] at hsplit hlt ⊢
      have hcanonical : f.Canonical (2 ^ f.fractionBits + m % 2 ^ f.fractionBits)
          (f.leastExponent + ((k.succ : Nat) - 1)) := by
        refine ⟨?_, by omega, .inl (Nat.le_add_right _ _), by omega⟩
        rw [precision_eq hf, Nat.pow_succ]
        omega
      refine .inr (.inr ⟨negative, _, _, rfl, hcanonical, hexact hcanonical ?_⟩)
      rw [show (f.leastExponent + ((k.succ : Nat) - 1) - f.leastExponent).toNat = k by omega]
      rw [Nat.succ_mul] at hsplit
      omega

/-- What was read of a pattern is written back, unless it was a NaN. -/
theorem write_read (hf : f.Regular) {bits : Nat} (hbits : bits < 2 * f.signWeight) (hnan : f.read bits ≠ .nan) :
    f.write (f.read bits) = bits := by
  rcases read_cases hf hbits with h | ⟨negative, h, heq⟩ | ⟨negative, s, e, h, _, heq⟩
  · exact absurd h hnan
  · rw [h, ← heq]
  · rw [h, ← heq]

theorem write_zero (f : FloatFormat) (negative : Bool) (e e' : Int) :
    f.write (.finite negative 0 e) = f.write (.finite negative 0 e') := by
  show negative.toNat * f.signWeight + f.magnitudeBits 0 e = negative.toNat * f.signWeight + f.magnitudeBits 0 e'
  rw [magnitudeBits_zero, magnitudeBits_zero]

private theorem write_scale (f : FloatFormat) (negative : Bool) (s k : Nat) (e : Int) :
    f.write (.finite negative (s * 2 ^ k) (e - k)) = f.write (.finite negative s e) := by
  show negative.toNat * f.signWeight + f.magnitudeBits (s * 2 ^ k) (e - k) = _
  rw [magnitudeBits_scale]
  rfl

/-- With a full significand, a single-precision number is canonical in double precision. -/
private theorem Canonical.widened (h : binary32.Canonical s e) (hs : s ≠ 0) :
    binary64.Canonical (s * 2 ^ (52 - s.log2)) (e - (52 - s.log2 : Nat)) := by
  have hleast32 : binary32.leastExponent = -149 := by decide
  have hleast64 : binary64.leastExponent = -1074 := by decide
  have htop32 : binary32.topExponent = 255 := by decide
  have htop64 : binary64.topExponent = 2047 := by decide
  have hlog : s.log2 < 24 := (Nat.log2_lt hs).2 h.lt
  have hleast := h.least_le
  have htop := h.exponent_lt
  have hpow : 2 ^ s.log2 * 2 ^ (52 - s.log2) = 2 ^ 52 := by
    rw [← Nat.pow_add, Nat.add_sub_of_le (by omega)]
  refine ⟨?_, by omega, .inl ?_, by omega⟩
  · show s * 2 ^ (52 - s.log2) < 2 ^ 53
    calc
      s * 2 ^ (52 - s.log2) < 2 ^ (s.log2 + 1) * 2 ^ (52 - s.log2) :=
        Nat.mul_lt_mul_of_pos_right Nat.lt_log2_self (Nat.two_pow_pos _)
      _ = 2 * (2 ^ s.log2 * 2 ^ (52 - s.log2)) := by ring
      _ = 2 ^ 53 := by rw [hpow, ← Nat.pow_succ']
  · show 2 ^ 52 ≤ s * 2 ^ (52 - s.log2)
    rw [← hpow]
    exact Nat.mul_le_mul_right _ (Nat.log2_self_le hs)

/-- A single-precision number is written exactly in double precision, and back. -/
theorem binary32_write_widened (negative : Bool) (h : binary32.Canonical s e) :
    ∃ s' e', binary64.read (binary64.write (.finite negative s e)) = .finite negative s' e' ∧
      binary32.write (.finite negative s' e') = binary32.write (.finite negative s e) := by
  by_cases hs : s = 0
  · subst hs
    have hzero : binary64.Canonical 0 binary64.leastExponent :=
      ⟨Nat.two_pow_pos _, Int.le_refl _, .inr rfl, by decide⟩
    refine ⟨0, binary64.leastExponent, ?_, write_zero binary32 negative _ _⟩
    rw [write_zero binary64 negative e binary64.leastExponent]
    exact read_write regular_binary64 negative hzero
  · refine ⟨_, _, ?_, write_scale binary32 negative s (52 - s.log2) e⟩
    rw [← write_scale binary64 negative s (52 - s.log2) e]
    exact read_write regular_binary64 negative (h.widened hs)

end FloatFormat

end ShaderExpr
