import ShaderExpr.Proofs.Number.Values

/-!
# Unpacked floats

Machine floats are computed with as unpacked floats: signs, significands and exponents, which are packed into bits
afterwards.  An unpacked float of single precision is a datum (`Datum.ofUnpacked`), and the datum of a float is that of
its unpacked form (`Datum.ofFloat32_eq_ofUnpacked`).  An unpacked float on the grid of the format is packed exactly, or
as an infinity if it is out of range (`Datum.ofFloat32_pack`).

Finite floats compare as the numbers that they stand for (`Datum.lt_iff`, `Datum.le_iff`).
-/

namespace ShaderExpr

open Float.Model (Format)
open Float.Model.UnpackedFloat
open FloatFormat (binary32 regular_binary32)

namespace Datum

/-- The datum that an unpacked float of single precision stands for. -/
def ofUnpacked : Float.Model.UnpackedFloat → Datum
  | .notANumber => nan
  | .infinity sign => infinite (sign == .negative)
  | .zero sign => finite (sign == .negative) 0 binary32.leastExponent
  | .finite sign significand exponent _ => finite (sign == .negative) significand exponent

theorem leastExponent_binary32 : binary32.leastExponent = -149 := by
  decide

theorem exponentEnd_binary32 : binary32.exponentEnd = 105 := by
  decide

private theorem sign_ofBitVec (b : BitVec 1) : (Sign.ofBitVec b == .negative) = (b.toNat == 1) := by
  revert b
  decide

private theorem toNat_unpackSign (b : BitVec Format.binary32.numBits) :
    (unpackSign b).toNat = b.toNat / 2 ^ 31 % 2 := by
  rw [unpackSign_def, BitVec.extractLsb'_toNat, Nat.shiftRight_eq_div_pow]
  rfl

private theorem toNat_append_mantissa {k : Nat} (m : BitVec k) : (1#1 ++ m).toNat = 2 ^ k + m.toNat := by
  rw [BitVec.toNat_append, ← Nat.shiftLeft_add_eq_or_of_lt m.isLt]
  simp [Nat.shiftLeft_eq]

/-- A pattern is read as the datum of its unpacked form, field by field. -/
private theorem read_toNat (b : BitVec Format.binary32.numBits) :
    binary32.read b.toNat = ofUnpacked (unpack Format.binary32 b) := by
  have hsign := sign_ofBitVec (unpackSign b)
  rw [toNat_unpackSign] at hsign
  have hweight : binary32.signWeight = 2 ^ 31 := rfl
  have hfraction : b.toNat % Nat.pow 2 binary32.fractionBits = (unpackMantissa b).toNat :=
    (toNat_unpackMantissa b).symm
  have hexponent : b.toNat / Nat.pow 2 binary32.fractionBits % Nat.pow 2 binary32.exponentBits =
      (unpackExponent b).toNat := (toNat_unpackExponent b).symm
  have htop : (unpackExponent b).toNat = binary32.topExponent ↔ unpackExponent b = -1#_ := by
    rw [← BitVec.toNat_inj]
    rfl
  have hleast : (unpackExponent b).toNat = 0 ↔ unpackExponent b = 0#_ := by
    rw [← BitVec.toNat_inj]
    rfl
  have hzero : (unpackMantissa b).toNat = 0 ↔ unpackMantissa b = 0#_ := by
    rw [← BitVec.toNat_inj]
    rfl
  have hmantissa := toNat_append_mantissa (unpackMantissa b)
  unfold FloatFormat.read unpack
  rw [hfraction, hexponent, hweight, ← hsign]
  dsimp only
  by_cases hinfinite : unpackExponent b = -1#_
  · rw [if_pos (htop.2 hinfinite), if_pos hinfinite]
    by_cases hm : unpackMantissa b = 0#_
    · rw [if_pos (hzero.2 hm), if_pos hm]
      rfl
    · rw [if_neg (hzero.not.2 hm), if_neg hm]
      rfl
  · rw [if_neg (htop.not.2 hinfinite), if_neg hinfinite]
    by_cases hsub : unpackExponent b = 0#_
    · rw [if_pos (hleast.2 hsub), if_pos hsub]
      by_cases hm : unpackMantissa b = 0#_
      · rw [dif_pos hm, hzero.2 hm]
        rfl
      · rw [dif_neg hm, hsub]
        rfl
    · -- a normal number has a leading bit that is not stored
      rw [if_neg (hleast.not.2 hsub), if_neg hsub]
      show _ = finite _ _ _
      rw [hmantissa, leastExponent_binary32]
      congr 1
      show _ = _ - ((127 : Int) + 23)
      ring

theorem ofFloat32_eq_ofUnpacked (x : Float32) : ofFloat32 x = ofUnpacked x.toModel.unpack :=
  read_toNat x.toModel.toBits.toBitVec

theorem onGrid_unpack (x : Float32) {negative : Bool} {s : Nat} {e : Int}
    (hx : ofUnpacked x.toModel.unpack = finite negative s e) : binary32.OnGrid s e :=
  (canonical_ofFloat32 ((ofFloat32_eq_ofUnpacked x).trans hx)).onGrid

private theorem unpack_packComponents {sign : Sign} {exponent : BitVec Format.binary32.exponentBits}
    (hexponent : exponent ≠ -1#_) {significand : BitVec Format.binary32.mantissaBitsWithoutImplicit} {s : Nat} {e : Int}
    (hs : 0 < s) (hfields : exponent = 0#_ ∧ significand.toNat = s ∧ e = -149 ∨
      exponent ≠ 0#_ ∧ 2 ^ 23 + significand.toNat = s ∧ e = exponent.toNat - 150) :
    unpack Format.binary32 (packComponents Format.binary32 sign exponent significand) = .finite sign s e hs := by
  have hsign : Sign.ofBitVec sign.toBitVec = sign := by
    cases sign <;> rfl
  unfold unpack
  dsimp only
  simp only [unpackExponent_packComponents, unpackMantissa_packComponents, unpackSign_packComponents, hsign]
  rw [if_neg hexponent]
  rcases hfields with ⟨rfl, rfl, rfl⟩ | ⟨hzero, rfl, rfl⟩
  · have hsignificand : significand ≠ 0#_ := by
      rintro rfl
      exact absurd hs (by decide)
    rw [if_pos rfl, dif_neg hsignificand]
    rfl
  · rw [if_neg hzero]
    congr 1
    exact toNat_append_mantissa significand

/-- A significand and an exponent that the format has are packed exactly. -/
private theorem unpack_pack {sign : Sign} {s : Nat} {e : Int} (hs : 0 < s) (h : binary32.Canonical s e) :
    unpack Format.binary32 (pack Format.binary32 (.finite sign s e hs)) = .finite sign s e hs := by
  have hlt : s < 2 ^ 24 := h.lt
  have hleast : -149 ≤ e := h.least_le
  have htop : e < 105 := by
    have := h.exponent_lt
    rw [leastExponent_binary32, show binary32.topExponent = 255 from rfl] at this
    omega
  have hsignificand : (BitVec.ofNat 23 s).toNat = s % 2 ^ 23 := BitVec.toNat_ofNat s 23
  unfold pack
  dsimp only
  rw [if_neg (by show ¬ 2 ^ 8 ≤ (e + (127 : Nat) + (23 : Nat)).toNat + 1; omega)]
  rcases Nat.lt_or_ge s (2 ^ 23) with hsub | hnormal
  · have he : e = -149 := h.normal.resolve_left (Nat.not_le_of_lt hsub)
    have hlog := (Nat.log2_lt hs.ne').2 hsub
    rw [if_neg (by show ¬ s.log2 + 1 = 24; omega)]
    exact unpack_packComponents (by decide) hs (.inl ⟨rfl, hsignificand.trans (Nat.mod_eq_of_lt hsub), he⟩)
  · have hlog : s.log2 = 23 := (Nat.log2_eq_iff hs.ne').2 ⟨hnormal, hlt⟩
    have hexponent : (BitVec.ofNat 8 (e + (127 : Nat) + (23 : Nat)).toNat).toNat = (e + 150).toNat := by
      rw [BitVec.toNat_ofNat]
      omega
    rw [if_pos (by show s.log2 + 1 = 24; omega)]
    refine unpack_packComponents ?_ hs (.inr ⟨?_, ?_, ?_⟩)
    · intro h
      have htoNat : (BitVec.ofNat 8 (e + (127 : Nat) + (23 : Nat)).toNat).toNat = 255 := congrArg BitVec.toNat h
      omega
    · intro h
      have htoNat : (BitVec.ofNat 8 (e + (127 : Nat) + (23 : Nat)).toNat).toNat = 0 := congrArg BitVec.toNat h
      omega
    · show 2 ^ 23 + (BitVec.ofNat 23 s).toNat = s
      omega
    · show e = ((BitVec.ofNat 8 (e + (127 : Nat) + (23 : Nat)).toNat).toNat : Int) - 150
      omega

private theorem unpack_pack_beyond {sign : Sign} {s : Nat} {e : Int} (hs : 0 < s) (he : binary32.exponentEnd ≤ e) :
    unpack Format.binary32 (pack Format.binary32 (.finite sign s e hs)) = .infinity sign := by
  rw [exponentEnd_binary32] at he
  unfold pack
  dsimp only
  rw [if_pos (by show 2 ^ 8 ≤ (e + (127 : Nat) + (23 : Nat)).toNat + 1; omega)]
  cases sign <;> rfl

/-- A rounded number is packed exactly, or as an infinity if it is out of range. -/
theorem ofFloat32_pack {u : Float.Model.UnpackedFloat} {negative : Bool} {s : Nat} {e : Int}
    (hu : ofUnpacked u = finite negative s e) (h : binary32.OnGrid s e) :
    ofFloat32 (.ofModel (.pack u)) = binary32.clamp (finite negative s e) := by
  rw [ofFloat32_eq_ofUnpacked]
  show ofUnpacked (unpack Format.binary32 (pack Format.binary32 u)) = _
  cases u with
  | notANumber | infinity => exact absurd hu nofun
  | zero sign =>
    cases hu
    cases sign <;> decide +kernel
  | finite sign s e hs =>
    cases hu
    rcases lt_or_ge e binary32.exponentEnd with hlt | hge
    · rw [unpack_pack hs (h.canonical hlt), FloatFormat.clamp_finite hlt]
      rfl
    · rw [unpack_pack_beyond hs hge, FloatFormat.clamp_beyond (not_lt.2 hge)]
      rfl

/-- Numbers on the grid compare by their exponents first, and then by their significands. -/
private theorem compare_onGrid {s s' : Nat} {e e' : Int} (h : binary32.OnGrid s e) (h' : binary32.OnGrid s' e') :
    (compare e e').then (compare s s') = compare (magnitude s e) (magnitude s' e') := by
  rcases lt_trichotomy e e' with hlt | rfl | hgt
  · rw [compare_lt_iff_lt.2 hlt, compare_lt_iff_lt.2 (h'.magnitude_lt regular_binary32 h hlt)]
    rfl
  · rw [compare_eq_iff_eq.2 rfl]
    show compare s s' = _
    rcases lt_trichotomy s s' with hlt | rfl | hgt
    · rw [compare_lt_iff_lt.2 hlt, compare_lt_iff_lt.2 (magnitude_lt_magnitude.2 hlt)]
    · rw [compare_eq_iff_eq.2 rfl, compare_eq_iff_eq.2 rfl]
    · rw [compare_gt_iff_gt.2 hgt, compare_gt_iff_gt.2 (magnitude_lt_magnitude.2 hgt)]
  · rw [compare_gt_iff_gt.2 hgt, compare_gt_iff_gt.2 (h.magnitude_lt regular_binary32 h' hgt)]
    rfl

private theorem magnitude_pos {s : Nat} (hs : 0 < s) (e : Int) : 0 < magnitude s e :=
  mul_pos (Nat.cast_pos.2 hs) (zpow_pos (by norm_num) e)

theorem value?_zero (sign : Sign) : (ofUnpacked (.zero sign)).value? = some 0 := by
  cases sign
  · exact congrArg some ((congrArg (-·) (zero_magnitude _)).trans neg_zero)
  · exact congrArg some (zero_magnitude _)

private theorem compare_neg (p q : ℚ) : compare (-p) (-q) = (compare p q).swap := by
  rcases lt_trichotomy p q with hlt | rfl | hgt
  · rw [compare_lt_iff_lt.2 hlt, compare_gt_iff_gt.2 (neg_lt_neg hlt)]
    rfl
  · rw [compare_eq_iff_eq.2 rfl, compare_eq_iff_eq.2 rfl]
    rfl
  · rw [compare_gt_iff_gt.2 hgt, compare_lt_iff_lt.2 (neg_lt_neg hgt)]
    rfl

/-- Unpacked floats compare as the numbers that they stand for, zeros of either sign being one number. -/
private theorem compare_unpack {x y : Float32} {p q : ℚ} (hp : (ofFloat32 x).value? = some p)
    (hq : (ofFloat32 y).value? = some q) : x.toModel.unpack.compare y.toModel.unpack = some (compare p q) := by
  have hx := @onGrid_unpack x
  have hy := @onGrid_unpack y
  rw [ofFloat32_eq_ofUnpacked] at hp hq
  generalize x.toModel.unpack = u at *
  generalize y.toModel.unpack = v at *
  cases u with
  | notANumber | infinity => exact absurd hp nofun
  | zero sign =>
    cases (value?_zero sign).symm.trans hp
    cases v with
    | notANumber | infinity => exact absurd hq nofun
    | zero sign' =>
      cases (value?_zero sign').symm.trans hq
      exact congrArg some (compare_eq_iff_eq.2 rfl).symm
    | finite sign' s' e' hs' =>
      have hpos := magnitude_pos hs' e'
      cases sign' <;> cases hq
      · exact congrArg some (compare_gt_iff_gt.2 (neg_neg_of_pos hpos)).symm
      · exact congrArg some (compare_lt_iff_lt.2 hpos).symm
  | finite sign s e hs =>
    have hpos := magnitude_pos hs e
    have hgrid := hx rfl
    cases v with
    | notANumber | infinity => exact absurd hq nofun
    | zero sign' =>
      cases (value?_zero sign').symm.trans hq
      cases sign <;> cases hp
      · exact congrArg some (compare_lt_iff_lt.2 (neg_neg_of_pos hpos)).symm
      · exact congrArg some (compare_gt_iff_gt.2 hpos).symm
    | finite sign' s' e' hs' =>
      have hpos' := magnitude_pos hs' e'
      have hcompare := compare_onGrid hgrid (hy rfl)
      cases sign <;> cases sign' <;> cases hp <;> cases hq
      · show some ((compare e e').then (compare s s')).swap = some (compare (-_) (-_))
        rw [hcompare, compare_neg]
      · exact congrArg some (compare_lt_iff_lt.2 ((neg_neg_of_pos hpos).trans hpos')).symm
      · exact congrArg some (compare_gt_iff_gt.2 ((neg_neg_of_pos hpos').trans hpos)).symm
      · exact congrArg some hcompare

section Comparison

variable {x y : Float32} {p q : ℚ}

theorem lt_iff (hp : (ofFloat32 x).value? = some p) (hq : (ofFloat32 y).value? = some q) : x < y ↔ p < q := by
  have hlt : x < y ↔ (x.toModel.unpack.compare y.toModel.unpack == some .lt) = true := decide_eq_true_iff
  rw [hlt, compare_unpack hp hq, beq_iff_eq, Option.some.injEq, compare_lt_iff_lt]

theorem le_iff (hp : (ofFloat32 x).value? = some p) (hq : (ofFloat32 y).value? = some q) : x ≤ y ↔ p ≤ q := by
  have hle : x ≤ y ↔ (x.toModel.unpack.compare y.toModel.unpack).any (·.isLE) = true := decide_eq_true_iff
  rw [hle, compare_unpack hp hq, Option.any_some, ← compare_le_iff_le, Ordering.isLE_iff_ne_gt]

end Comparison

theorem isFinite_eq (x : Float32) : x.isFinite = (ofFloat32 x).isFinite := by
  rw [ofFloat32_eq_ofUnpacked]
  show x.toModel.unpack.isFinite = _
  cases x.toModel.unpack <;> rfl

end Datum

end ShaderExpr
