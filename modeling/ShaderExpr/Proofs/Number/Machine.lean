import ShaderExpr.Literal
import ShaderExpr.Proofs.Number.Format

/-!
# Machine floats and their data

A machine float is its bit pattern, except that all NaNs are one.  So the pattern that a float is made from is
read back if it is no NaN (`Datum.toBits_float32_ofBits`, and the same in double precision), and every float
is made again from its bits (`Datum.float32_ofBits_toBits`).

With the exactness of the formats this gives `Literal.float?_ofFloat32`: a single-precision float that is used
as a literal is the same float again, infinities and NaNs included.
-/

namespace ShaderExpr

open Float.Model (Format)
open Float.Model.UnpackedFloat

section Packing

variable {spec : Format}

theorem toNat_unpackMantissa (b : BitVec spec.numBits) :
    (unpackMantissa b).toNat = b.toNat % 2 ^ spec.mantissaBitsWithoutImplicit := by
  have hm := spec.hm
  unfold unpackMantissa
  rw [BitVec.toNat_cast, BitVec.extractLsb_toNat, Nat.shiftRight_zero]
  congr 2
  omega

theorem toNat_unpackExponent (b : BitVec spec.numBits) :
    (unpackExponent b).toNat = b.toNat / 2 ^ spec.mantissaBitsWithoutImplicit % 2 ^ spec.exponentBits := by
  have he := spec.he
  unfold unpackExponent
  rw [BitVec.toNat_cast, BitVec.extractLsb_toNat, Nat.shiftRight_eq_div_pow]
  congr 2
  omega

variable (spec) in
/-- A pattern is read as a NaN if its exponent is the last one and its significand is not zero. -/
private theorem read_eq_nan_iff {f : FloatFormat} (hfraction : f.fractionBits = spec.mantissaBitsWithoutImplicit)
    (hexponent : f.exponentBits = spec.exponentBits) (b : BitVec spec.numBits) :
    f.read b.toNat = .nan ↔ unpackExponent b = -1#_ ∧ unpackMantissa b ≠ 0#_ := by
  have htop : (unpackExponent b).toNat = f.topExponent ↔ unpackExponent b = -1#_ := by
    rw [← BitVec.toNat_inj, BitVec.neg_one_eq_allOnes, BitVec.toNat_allOnes]
    unfold FloatFormat.topExponent
    rw [hexponent]
    rfl
  have hzero : (unpackMantissa b).toNat = 0 ↔ unpackMantissa b = 0#_ := by
    rw [← BitVec.toNat_inj, BitVec.toNat_zero]
  unfold FloatFormat.read
  rw [hfraction, hexponent, Nat.pow_eq, Nat.pow_eq, ← toNat_unpackMantissa, ← toNat_unpackExponent]
  dsimp only
  split
  · rename_i h
    split
    · rename_i hm
      simp [hzero.1 hm]
    · rename_i hm
      simp [htop.1 h, hzero.not.1 hm]
  · rename_i h
    split <;> simp [htop.not.1 h]

variable (spec) in
private theorem pack_unpack_of_read {f : FloatFormat}
    (hfraction : f.fractionBits = spec.mantissaBitsWithoutImplicit) (hexponent : f.exponentBits = spec.exponentBits)
    (hbits : 1 < spec.exponentBits) {b : BitVec spec.numBits}
    (hnan : f.read b.toNat ≠ .nan) : pack spec (unpack spec b) = b := by
  have h := (read_eq_nan_iff spec hfraction hexponent b).not.1 hnan
  exact (pack_unpack b hbits).trans (if_neg (decide_eq_true_iff.not.2 h))

end Packing

namespace Datum

/-- The bits that a float is made from are read back, if they are no NaN. -/
theorem toBits_float32_ofBits {w : UInt32} (hnan : FloatFormat.binary32.read w.toNat ≠ .nan) :
    (Float32.ofBits w).toBits = w :=
  congrArg UInt32.ofBitVec (pack_unpack_of_read Format.binary32 rfl rfl (by decide) hnan)

/-- The bits that a float is made from are read back, if they are no NaN. -/
theorem toBits_float_ofBits {w : UInt64} (hnan : FloatFormat.binary64.read w.toNat ≠ .nan) :
    (Float.ofBits w).toBits = w :=
  congrArg UInt64.ofBitVec (pack_unpack_of_read Format.binary64 rfl rfl (by decide) hnan)

/-- A float is made again from its bits. -/
theorem float32_ofBits_toBits (x : Float32) : Float32.ofBits x.toBits = x := by
  obtain ⟨bits, hvalid⟩ := x
  have hpack : pack Format.binary32 (unpack Format.binary32 bits.toBitVec) = bits.toBitVec :=
    pack_unpack_of_valid hvalid
  refine congrArg Float32.ofModel ?_
  unfold Float32.Model.ofBits Float32.Model.pack
  congr 1
  exact congrArg UInt32.ofBitVec hpack

/-- NaNs are one float. -/
theorem float32_ofBits_nan {w : UInt32} (hnan : FloatFormat.binary32.read w.toNat = .nan) :
    Float32.ofBits w = toFloat32 .nan := by
  obtain ⟨htop, hm⟩ := (read_eq_nan_iff Format.binary32 rfl rfl w.toBitVec).1 hnan
  have hunpack : unpack Format.binary32 w.toBitVec = .notANumber := by
    rw [unpack, if_pos htop, if_neg hm]
  show Float32.ofModel (.pack (unpack Format.binary32 w.toBitVec)) = _
  rw [hunpack]
  rfl

private theorem write_lt (f : FloatFormat) {d : Datum} (hd : d ≠ .nan) : f.write d < 2 * f.signWeight := by
  have hinfinity := f.infinityBits_lt
  have hsigned : ∀ (negative : Bool) {m : Nat}, m ≤ f.infinityBits →
      negative.toNat * f.signWeight + m < 2 * f.signWeight := by
    intro negative m hm
    cases negative
    · rw [Bool.toNat_false]
      omega
    · rw [Bool.toNat_true]
      omega
  cases d with
  | nan => exact absurd rfl hd
  | infinite negative => exact hsigned negative le_rfl
  | finite negative s e => exact hsigned negative (f.magnitudeBits_le s e)

/-- A float that is made of a datum is read as single precision keeps the datum. -/
theorem ofFloat32_toFloat32_eq_read {d : Datum} (hd : d ≠ .nan)
    (hnan : FloatFormat.binary32.read (FloatFormat.binary32.write d) ≠ .nan) :
    ofFloat32 d.toFloat32 = FloatFormat.binary32.read (FloatFormat.binary32.write d) := by
  have hsize : 2 * FloatFormat.binary32.signWeight = UInt32.size := by decide
  have hbits : (FloatFormat.binary32.write d).toUInt32.toNat = FloatFormat.binary32.write d :=
    UInt32.toNat_ofNat_of_lt (hsize ▸ write_lt FloatFormat.binary32 hd)
  rw [← hbits] at hnan
  unfold ofFloat32 toFloat32
  rw [toBits_float32_ofBits hnan, hbits]

/-- A float that is made of a datum is read as double precision keeps the datum. -/
theorem ofFloat_toFloat_eq_read {d : Datum} (hd : d ≠ .nan)
    (hnan : FloatFormat.binary64.read (FloatFormat.binary64.write d) ≠ .nan) :
    ofFloat d.toFloat = FloatFormat.binary64.read (FloatFormat.binary64.write d) := by
  have hsize : 2 * FloatFormat.binary64.signWeight = UInt64.size := by decide
  have hbits : (FloatFormat.binary64.write d).toUInt64.toNat = FloatFormat.binary64.write d :=
    UInt64.toNat_ofNat_of_lt (hsize ▸ write_lt FloatFormat.binary64 hd)
  rw [← hbits] at hnan
  unfold ofFloat toFloat
  rw [toBits_float_ofBits hnan, hbits]

theorem ofFloat_toFloat_nan : ofFloat (toFloat .nan) = .nan := by
  decide +kernel

private theorem ofFloat_toFloat_infinite (negative : Bool) :
    ofFloat (toFloat (.infinite negative)) = .infinite negative := by
  cases negative <;> decide +kernel

/-- The float that a pattern is read of is made again of what is written like that pattern. -/
theorem toFloat32_of_write {x : Float32} {d : Datum} (h : x.toBits.toNat = FloatFormat.binary32.write d) :
    d.toFloat32 = x := by
  unfold toFloat32
  rw [← h]
  exact (congrArg Float32.ofBits UInt32.ofNat_toNat).trans (float32_ofBits_toBits x)

/-- A single-precision float survives double precision. -/
theorem ofFloat_toFloat_ofFloat32 (x : Float32) :
    (ofFloat (ofFloat32 x).toFloat).toFloat32 = x ∧
      (ofFloat (ofFloat32 x).toFloat).isFinite = (ofFloat32 x).isFinite := by
  have hsize : 2 * FloatFormat.binary32.signWeight = UInt32.size := by decide
  have hbits : x.toBits.toNat < 2 * FloatFormat.binary32.signWeight := hsize ▸ x.toBits.toNat_lt
  unfold ofFloat32
  rcases FloatFormat.read_cases FloatFormat.regular_binary32 hbits with
    h | ⟨negative, h, heq⟩ | ⟨negative, s, e, h, hcanonical, heq⟩
  · rw [h, ofFloat_toFloat_nan]
    exact ⟨(float32_ofBits_nan h).symm.trans (float32_ofBits_toBits x), rfl⟩
  · rw [h, ofFloat_toFloat_infinite]
    exact ⟨toFloat32_of_write heq, rfl⟩
  · -- the double-precision datum has another significand, but single precision writes the same pattern of it
    obtain ⟨s', e', hread, hsame⟩ := FloatFormat.binary32_write_widened negative hcanonical
    have hfinite : finite negative s e ≠ .nan := nofun
    have hnan : FloatFormat.binary64.read (FloatFormat.binary64.write (.finite negative s e)) ≠ .nan := by
      rw [hread]
      exact nofun
    rw [h, ofFloat_toFloat_eq_read hfinite hnan, hread]
    exact ⟨toFloat32_of_write (heq.trans hsame.symm), rfl⟩

end Datum

namespace Literal

/-- A single-precision float that is used as a literal is the same float again. -/
theorem float?_ofFloat32 (x : Float32) : (ofFloat32 x).float? = some x := by
  obtain ⟨hsame, hfinite⟩ := Datum.ofFloat_toFloat_ofFloat32 x
  unfold float? ofFloat32
  dsimp only
  rw [hsame, hfinite]
  exact if_neg fun h => h.2 h.1

theorem unify?_float_ofFloat32 (x : Float32) : (ofFloat32 x).unify? .float = some (.ofFloat x) := by
  unfold unify?
  dsimp only
  rw [float?_ofFloat32]
  rfl

end Literal

end ShaderExpr
