import Subtyping.Decimal.Double

/-!
# Shortest decimals

The decimal digits of a double: of all decimals that read back as the number, those with the
fewest digits, and of these the nearest; of two at the same distance, the larger in magnitude.
They are written without an exponent.
-/

namespace Subtyping.Decimal

/-- A decimal `digits * 10 ^ exponent`. -/
structure Digits where
  digits : Nat
  exponent : Int
deriving DecidableEq, Repr

namespace Double

/-- The reals that round to a positive number, as the ends of an interval in quarters of a unit of
the last place, and whether the ends belong to it. Below a power of two the numbers lie twice as
close. -/
def interval (d : Double) : Nat × Nat × Bool :=
  let below := if d.mantissa == Nat.pow 2 52 && 0 < d.shift then 1 else 2
  (4 * d.mantissa - below, 4 * d.mantissa + 2, d.mantissa % 2 == 0)

/-- The multiple of `10 ^ exponent` that reads back as a positive number, if there is one; of two,
the nearer, and the larger if they are equally near. -/
def onGrid? (d : Double) (exponent : Int) : Option Digits :=
  let (low, high, closed) := d.interval
  -- the number is `4 * mantissa * num / den` quarters of `10 ^ exponent`
  let num := Nat.pow 2 d.shift * Nat.pow 10 (-exponent).toNat
  let den := 4 * Nat.pow 2 1074 * Nat.pow 10 exponent.toNat
  let value := 4 * d.mantissa * num
  let readsBack (n : Nat) : Bool :=
    if closed then low * num ≤ n * den && n * den ≤ high * num
    else low * num < n * den && n * den < high * num
  let down := value / den
  let up := down + 1
  let nearer := if 2 * (value - down * den) < den then [down, up] else [up, down]
  (nearer.find? fun n => 0 < n && readsBack n).map (⟨·, exponent⟩)

/-- The exponent of a power of ten that has as many digits as a positive number has before its
point, or no more zeros than it has behind it. -/
def topExponent (d : Double) : Int :=
  let digitCount (n : Nat) : Int := (Nat.toDigits 10 n).length - 1
  if Nat.pow 2 1074 ≤ d.units then
    digitCount (d.units / Nat.pow 2 1074)
  else
    -digitCount (Nat.pow 2 1074 / d.units)

/-- The shortest decimal of a positive number: seventeen digits always suffice, after one grid that
may be too coarse for any. -/
def shortest (d : Double) : Digits :=
  let top := d.topExponent
  ((List.range 19).findSome? fun (count : Nat) => d.onGrid? (top - count)).getD ⟨0, 0⟩

end Double

/-- Digits without an exponent; a whole number gets `.0`. -/
def Digits.positional (d : Digits) : String :=
  let text := (Nat.toDigits 10 d.digits)
  if 0 ≤ d.exponent then
    String.ofList (text ++ List.replicate d.exponent.toNat '0') ++ ".0"
  else
    let places := (-d.exponent).toNat
    let padded := List.replicate (places + 1 - text.length) '0' ++ text
    let point := padded.length - places
    String.ofList (padded.take point ++ '.' :: padded.drop point)

/-- A number as text, always with a decimal point. -/
def Double.text (d : Double) : String :=
  let magnitude := if d.isZero then "0.0" else d.shortest.positional
  if d.negative then "-" ++ magnitude else magnitude

end Subtyping.Decimal
