import ShaderExpr.Number.Datum

/-!
# The shortest decimal of a float

A finite float is written with the fewest significant digits that still round to it, and among those
with the digits nearest to it; an exact tie goes away from zero.

The decimals that round to a float form an interval around it, half a unit in the last place wide on
either side (a quarter below a power of two), whose ends count when the significand is even.  On the
grid of the multiples of `10 ^ k` only the two neighbours of the float need to be tried, and the first
grid that has a hit, from coarse to fine, has the fewest digits.

How the digits are laid out is a `DecimalLayout`.
-/

namespace ShaderExpr

/-- The number `digits * 10 ^ exponent`. -/
structure Decimal where
  digits : Nat
  exponent : Int
  deriving DecidableEq, Repr

/-- A positive float as the interval of the numbers that round to it, in units of `1 / unit`. -/
structure RoundingInterval where
  low : Nat
  value : Nat
  high : Nat
  unit : Nat
  /-- Whether the ends round to the float too. -/
  closed : Bool

namespace RoundingInterval

/-- The interval of `significand * 2 ^ exponent` in a format. -/
def ofMagnitude (f : FloatFormat) (significand : Nat) (exponent : Int) : RoundingInterval :=
  let below := if significand = Nat.pow 2 f.fractionBits ∧ f.leastExponent < exponent then 1 else 2
  let factor := Nat.pow 2 (exponent - 2).toNat
  { low := (4 * significand - below) * factor
    value := 4 * significand * factor
    high := (4 * significand + 2) * factor
    unit := Nat.pow 2 (2 - exponent).toNat
    closed := significand % 2 = 0 }

/-- Whether `numerator / (denominator * unit)` lies in the interval. -/
def holds (r : RoundingInterval) (numerator denominator : Nat) : Bool :=
  if r.closed then r.low * denominator ≤ numerator ∧ numerator ≤ r.high * denominator
  else r.low * denominator < numerator ∧ numerator < r.high * denominator

/-- The multiple of `10 ^ k` that lies in the interval next to the float, if one does. -/
def onGrid? (r : RoundingInterval) (k : Int) : Option Nat :=
  let step := r.unit * Nat.pow 10 k.toNat
  let denominator := Nat.pow 10 (-k).toNat
  let value := r.value * denominator
  let below := value / step
  match r.holds (below * step) denominator, r.holds ((below + 1) * step) denominator with
  | true, true => if 2 * (value % step) < step then some below else some (below + 1)
  | true, false => some below
  | false, true => some (below + 1)
  | false, false => none

/-- The first grid with a hit among `10 ^ k, 10 ^ (k - 1), …`. -/
def search (r : RoundingInterval) : Nat → Int → Decimal
  | 0, k => ⟨r.value * Nat.pow 10 (-k).toNat / (r.unit * Nat.pow 10 k.toNat), k⟩
  | fuel + 1, k =>
    match r.onGrid? k with
    | some digits => ⟨digits, k⟩
    | none => search r fuel (k - 1)

end RoundingInterval

/-- The shortest decimal that rounds to `significand * 2 ^ exponent`.  The search starts at a power of
ten above the number (`30103 / 100000` exceeds `log 2`) and meets a hit within the digits that any
format up to double precision needs. -/
def shortestDecimal (f : FloatFormat) (significand : Nat) (exponent : Int) : Decimal :=
  (RoundingInterval.ofMagnitude f significand exponent).search 24
    ((exponent + significand.log2 + 2) * 30103 / 100000 + 1)

structure DecimalLayout where
  /-- Numbers of this decimal exponent and above are written positionally. -/
  leastPositional : Int
  /-- Numbers of this decimal exponent and above are written with an exponent. -/
  leastScientific : Int
  exponentMark : String
  nan : String
  infinity : String

namespace DecimalLayout

def zeros (n : Nat) : String :=
  String.ofList (List.replicate n '0')

/-- Digits and a point, with at least one digit on either side. -/
def positional (d : Decimal) : String :=
  let digits := (toString d.digits).toList
  match d.exponent with
  | .ofNat k => String.ofList digits ++ zeros k ++ ".0"
  | .negSucc k =>
    let places := k + 1
    if places < digits.length then
      String.ofList (digits.take (digits.length - places)) ++ "." ++
        String.ofList (digits.drop (digits.length - places))
    else "0." ++ zeros (places - digits.length) ++ String.ofList digits

/-- The first digit, a point before the others if there are any, and the decimal exponent. -/
def scientific (layout : DecimalLayout) (d : Decimal) (exponent : Int) : String :=
  match (toString d.digits).toList with
  | [] => ""
  | first :: [] => String.singleton first ++ layout.exponentMark ++ toString exponent
  | first :: rest =>
    String.singleton first ++ "." ++ String.ofList rest ++ layout.exponentMark ++ toString exponent

def magnitude (layout : DecimalLayout) (d : Decimal) : String :=
  let exponent := d.exponent + ((toString d.digits).length - 1 : Nat)
  if layout.leastPositional ≤ exponent ∧ exponent < layout.leastScientific then positional d
  else layout.scientific d exponent

def text (layout : DecimalLayout) (f : FloatFormat) : Datum → String
  | .nan => layout.nan
  | .infinite negative => sign negative ++ layout.infinity
  | .finite negative significand exponent =>
    sign negative ++
      if significand = 0 then "0.0" else layout.magnitude (shortestDecimal f significand exponent)
where
  sign (negative : Bool) : String := if negative then "-" else ""

end DecimalLayout

end ShaderExpr
