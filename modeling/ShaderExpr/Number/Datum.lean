/-!
# Floating-point data and their exact values

A datum of a binary interchange format is a NaN, an infinity, or a sign, a significand and an exponent
that stand for `± significand * 2 ^ exponent`.  Reading a bit pattern is exact; writing a finite datum
rounds its value to the nearest one of the format, a half going to the even neighbour, and to infinity
where the format ends.

All NaNs are one datum, so a pattern is read back from its datum up to the sign and payload of a NaN.

* `FloatFormat.read` and `FloatFormat.write` are the two directions;
* `Datum.ofFloat32`, `Datum.ofFloat` and `Datum.toFloat32`, `Datum.toFloat` apply them to machine
  floats;
* `Datum.truncate?` and `Datum.saturate` give integers.
-/

namespace ShaderExpr

/-- A floating-point number or NaN, read exactly. -/
inductive Datum where
  | nan
  | infinite (negative : Bool)
  /-- The number `significand * 2 ^ exponent`, or its negation. -/
  | finite (negative : Bool) (significand : Nat) (exponent : Int)
  deriving DecidableEq, Repr

/-- A binary format: `precision` significant bits, of which the first is implicit, and `exponentBits`
bits of exponent. -/
structure FloatFormat where
  precision : Nat
  exponentBits : Nat

/-- `numerator / denominator` rounded to the nearest integer, a half going to the even neighbour. -/
def divideToEven (numerator denominator : Nat) : Nat :=
  let quotient := numerator / denominator
  let rest := 2 * (numerator % denominator)
  if rest < denominator then quotient
  else if denominator < rest then quotient + 1
  else quotient + quotient % 2

/-- `significand * 2 ^ shift` rounded to the nearest integer, a half going to the even neighbour. -/
def scaleToEven (significand : Nat) (shift : Int) : Nat :=
  match shift with
  | .ofNat k => significand * Nat.pow 2 k
  | .negSucc k => divideToEven significand (Nat.pow 2 (k + 1))

namespace FloatFormat

def binary32 : FloatFormat := ⟨24, 8⟩

def binary64 : FloatFormat := ⟨53, 11⟩

def fractionBits (f : FloatFormat) : Nat :=
  f.precision - 1

/-- The exponent field of infinities and NaNs. -/
def topExponent (f : FloatFormat) : Nat :=
  Nat.pow 2 f.exponentBits - 1

/-- The exponent of the last place of the smallest numbers. -/
def leastExponent (f : FloatFormat) : Int :=
  3 - Nat.pow 2 (f.exponentBits - 1) - f.precision

def infinityBits (f : FloatFormat) : Nat :=
  f.topExponent * Nat.pow 2 f.fractionBits

def signWeight (f : FloatFormat) : Nat :=
  Nat.pow 2 (f.exponentBits + f.fractionBits)

def read (f : FloatFormat) (bits : Nat) : Datum :=
  let fraction := bits % Nat.pow 2 f.fractionBits
  let exponent := bits / Nat.pow 2 f.fractionBits % Nat.pow 2 f.exponentBits
  let negative := bits / f.signWeight % 2 == 1
  if exponent = f.topExponent then
    if fraction = 0 then .infinite negative else .nan
  else if exponent = 0 then .finite negative fraction f.leastExponent
  else .finite negative (Nat.pow 2 f.fractionBits + fraction) (f.leastExponent + (exponent - 1))

/-- The exponent of the last place that the format keeps of `significand * 2 ^ exponent`. -/
def lastPlace (f : FloatFormat) (significand : Nat) (exponent : Int) : Int :=
  max (exponent + (significand.log2 + 1) - f.precision) f.leastExponent

/-- The pattern of `significand * 2 ^ exponent`, rounded.  A significand that rounds up to the next
power of two carries into the exponent field, which is the pattern of that power of two. -/
def magnitudeBits (f : FloatFormat) (significand : Nat) (exponent : Int) : Nat :=
  if significand = 0 then 0
  else
    let last := f.lastPlace significand exponent
    let rounded := scaleToEven significand (exponent - last)
    min ((last - f.leastExponent).toNat * Nat.pow 2 f.fractionBits + rounded) f.infinityBits

def write (f : FloatFormat) : Datum → Nat
  | .nan => f.infinityBits + Nat.pow 2 (f.fractionBits - 1)
  | .infinite negative => negative.toNat * f.signWeight + f.infinityBits
  | .finite negative significand exponent =>
    negative.toNat * f.signWeight + f.magnitudeBits significand exponent

end FloatFormat

namespace Datum

def ofFloat32 (x : Float32) : Datum :=
  FloatFormat.binary32.read x.toBits.toNat

def ofFloat (x : Float) : Datum :=
  FloatFormat.binary64.read x.toBits.toNat

def toFloat32 (d : Datum) : Float32 :=
  Float32.ofBits (FloatFormat.binary32.write d).toUInt32

def toFloat (d : Datum) : Float :=
  Float.ofBits (FloatFormat.binary64.write d).toUInt64

def ofInt (i : Int) : Datum :=
  finite (i < 0) i.natAbs 0

def isFinite : Datum → Bool
  | finite .. => true
  | _ => false

def signed (negative : Bool) (magnitude : Nat) : Int :=
  if negative then -(magnitude : Int) else magnitude

/-- The integer that a finite datum equals, if it is one. -/
def toInt? : Datum → Option Int
  | finite negative significand (.ofNat k) => some (signed negative (significand * Nat.pow 2 k))
  | finite negative significand (.negSucc k) =>
    if significand % Nat.pow 2 (k + 1) = 0 then
      some (signed negative (significand / Nat.pow 2 (k + 1)))
    else none
  | _ => none

/-- The integer next to a finite datum in the direction of zero. -/
def truncate? : Datum → Option Int
  | finite negative significand (.ofNat k) => some (signed negative (significand * Nat.pow 2 k))
  | finite negative significand (.negSucc k) => some (signed negative (significand / Nat.pow 2 (k + 1)))
  | _ => none

/-- Truncation to the range from `low` to `high`: a number beyond it, or an infinity, gives the nearer
end, a NaN gives 0. -/
def saturate (low high : Int) : Datum → Int
  | nan => 0
  | infinite negative => if negative then low else high
  | d => max low (min high (d.truncate?.getD 0))

end Datum

end ShaderExpr
