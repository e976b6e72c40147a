import Subtyping.Decimal.Shortest
import Subtyping.Json.Fault

/-!
# Numbers in JSON text

A whole number of at most 64 bits is kept as it is. Any other number becomes a double, made from
the leading digits that fit into 64 bits and a power of ten: the digits are rounded, and so is
their product or quotient with the power, which need not be the nearest double to the number
written.
-/

namespace Subtyping.Json

open Decimal (Double)

/-- A number that was read. -/
inductive Number where
  | nat (n : Nat)
  /-- The number `-(n + 1)`. -/
  | negSucc (n : Nat)
  | double (d : Double)
deriving DecidableEq, Repr

namespace Number

/-- The largest whole number that is kept as it is. -/
def natLimit : Nat := Nat.pow 2 64

/-- The largest power of ten that a double can be multiplied with at once. -/
def powerLimit : Nat := 308

/-- Divides by a power of ten, by the largest at hand first. -/
def scaleDown (d : Double) : (rounds : Nat) → (power : Nat) → Option Double
  | 0, _ => some d
  | rounds + 1, power =>
    if power ≤ powerLimit then
      (Double.ofNat (Nat.pow 10 power)).bind d.div
    else if d.isZero then
      some d
    else
      ((Double.ofNat (Nat.pow 10 powerLimit)).bind d.div).bind
        (scaleDown · rounds (power - powerLimit))

/-- The double made from digits and a power of ten. -/
def assemble (digits : Nat) (exponent : Int) : Except Fault Double := do
  let some d := Double.ofNat digits | throw .numberOutOfRange
  let scaled :=
    if 0 ≤ exponent then
      if exponent.toNat ≤ powerLimit then
        (Double.ofNat (Nat.pow 10 exponent.toNat)).bind d.mul
      else if d.isZero then
        some d
      else
        none
    else
      -- three divisions make any number of 64 bits vanish
      scaleDown d 5 (-exponent).toNat
  let some result := scaled | throw .numberOutOfRange
  return result

/-- Exponents stop counting here. -/
def exponentCap : Nat := 2147483647

def digitValue (c : Char) : Nat :=
  c.toNat - '0'.toNat

/-- The value of digits read after `start`. -/
def value (start : Nat) (digits : List Char) : Nat :=
  digits.foldl (fun n c => 10 * n + digitValue c) start

/-- The value of the longest beginning of some digits that stays below the limit, and how many
digits follow. -/
def leading (limit : Nat) (start : Nat) : List Char → Nat × Nat
  | [] => (start, 0)
  | c :: cs =>
    let next := 10 * start + digitValue c
    if next < limit then leading limit next cs else (start, cs.length + 1)

/-- Reads the exponent of a number, after its mark. -/
def readExponent (digits : Nat) (scale : Int) (cs : List Char) :
    Except Fault (Double × List Char) := do
  let (negative, cs) :=
    match cs with
    | '+' :: cs => (false, cs)
    | '-' :: cs => (true, cs)
    | cs => (false, cs)
  let exponent := cs.takeWhile Char.isDigit
  let rest := cs.dropWhile Char.isDigit
  if exponent.isEmpty then
    throw (if rest.isEmpty then .endInValue else .invalidNumber)
  let size := value 0 exponent
  if exponentCap < size then
    if digits ≠ 0 && !negative then
      throw .numberOutOfRange
    return ({ mantissa := 0, shift := 0 }, rest)
  let scale := if negative then scale - size else scale + size
  return (← assemble digits (max (-exponentCap) (min exponentCap scale)), rest)

/-- Reads what may follow the digits of a double: an exponent. -/
def readScale (digits : Nat) (scale : Int) : List Char → Except Fault (Double × List Char)
  | 'e' :: cs | 'E' :: cs => readExponent digits scale cs
  | cs => return (← assemble digits scale, cs)

/-- Reads the digits behind the point. -/
def readFraction (digits : Nat) (dropped : Nat) (cs : List Char) :
    Except Fault (Double × List Char) := do
  let fraction := cs.takeWhile Char.isDigit
  let rest := cs.dropWhile Char.isDigit
  let (digits, ignored) := leading natLimit digits fraction
  let scale : Int := dropped - (fraction.length - ignored : Nat)
  if fraction.isEmpty then
    throw (if rest.isEmpty then .endInValue else .invalidNumber)
  readScale digits scale rest

/-- A number with the sign that was written before it. -/
def signed (negative : Bool) (n : Nat) : Number :=
  if !negative then
    .nat n
  else if 0 < n && n ≤ Nat.pow 2 63 then
    .negSucc (n - 1)
  else
    .double (((Double.ofNat n).getD { mantissa := 0, shift := 0 }).withSign true)

/-- Reads a number without its sign. -/
def readUnsigned (negative : Bool) (cs : List Char) : Except Fault (Number × List Char) := do
  let digits := cs.takeWhile Char.isDigit
  let rest := cs.dropWhile Char.isDigit
  match digits with
  | [] => throw (if rest.isEmpty then .endInValue else .invalidNumber)
  | '0' :: _ :: _ => throw .invalidNumber
  | _ =>
    let (significand, dropped) := leading natLimit 0 digits
    let double (x : Double × List Char) : Number × List Char :=
      (.double (x.1.withSign negative), x.2)
    match rest with
    | '.' :: cs => return double (← readFraction significand dropped cs)
    | 'e' :: _ | 'E' :: _ => return double (← readScale significand dropped rest)
    | _ =>
      if dropped = 0 then
        return (signed negative significand, rest)
      else
        return double (← readScale significand dropped rest)

/-- Reads a number. -/
def read : List Char → Except Fault (Number × List Char)
  | '-' :: cs => readUnsigned true cs
  | cs => readUnsigned false cs

end Number

end Subtyping.Json
