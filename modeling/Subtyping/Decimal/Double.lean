/-!
# Double-precision numbers

A finite number of the binary64 format, held exactly as a sign, a mantissa and a power of two.
Arithmetic is exact on `Nat` and rounds once, to the nearest such number, a tie to the even
mantissa; a result beyond the format is `none`.
-/

namespace Subtyping.Decimal

/-- The number `± mantissa * 2 ^ (shift - 1074)`, where the mantissa is below `2 ^ 53` and is at
least `2 ^ 52` unless the shift is zero. -/
structure Double where
  negative : Bool := false
  mantissa : Nat
  shift : Nat
deriving DecidableEq, Repr

namespace Double

/-- The largest shift of the format. -/
def maxShift : Nat := 2045

/-- The nearest whole number to a quotient, a tie to the even one. -/
def divideToEven (num den : Nat) : Nat :=
  let q := num / den
  let r := num % den
  if 2 * r < den then q
  else if den < 2 * r then q + 1
  else q + q % 2

/-- The nearest number of the format to `num / den`, for a positive `den`. -/
def ofQuotient (num den : Nat) : Option Double :=
  -- in units of the smallest positive number
  let scaled := num * Nat.pow 2 1074
  let guess := (scaled / den).log2 - 52
  let rounded := divideToEven scaled (den * Nat.pow 2 guess)
  let (mantissa, shift) :=
    if rounded < Nat.pow 2 53 then (rounded, guess) else (rounded / 2, guess + 1)
  if shift ≤ maxShift then some { mantissa, shift } else none

/-- The nearest number of the format to a whole number. -/
def ofNat (n : Nat) : Option Double :=
  ofQuotient n 1

/-- The magnitude of a number, in units of the smallest positive number. -/
def units (d : Double) : Nat :=
  d.mantissa * Nat.pow 2 d.shift

def isZero (d : Double) : Bool :=
  d.mantissa == 0

/-- The product of two magnitudes, rounded. -/
def mul (a b : Double) : Option Double :=
  ofQuotient (a.units * b.units) (Nat.pow 2 1074 * Nat.pow 2 1074)

/-- The quotient of two magnitudes, rounded. -/
def div (a b : Double) : Option Double :=
  ofQuotient a.units b.units

def withSign (d : Double) (negative : Bool) : Double :=
  { d with negative }

end Double

end Subtyping.Decimal
