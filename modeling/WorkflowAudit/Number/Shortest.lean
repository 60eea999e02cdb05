import WorkflowAudit.Number.Binary64

/-!
The shortest decimal text of a double. Of all decimals that read back as the number, the one with the
fewest digits is taken, and of those the nearest; it is written without an exponent.
-/

namespace WorkflowAudit.Binary64

/-- A positive decimal `digits · 10 ^ exponent`. -/
structure Decimal where
  digits : Nat
  exponent : Int
  deriving DecidableEq, Repr

/-- The reals that round to a positive finite double, as multiples of a common unit: the value, the
    two ends, and whether the ends belong to it. The unit is `unit / den`. -/
structure Rounding where
  value : Nat
  low : Nat
  high : Nat
  unit : Nat
  den : Nat
  closed : Bool

/-- The reals that round to `mantissa · 2 ^ exponent`. Below a power of two the neighbours are twice
    as dense. The ends belong to it when the mantissa is even. -/
def roundingOf (mantissa : Nat) (exponent : Int) : Rounding :=
  let below := if mantissa = Nat.pow 2 52 && leastExponent < exponent then 1 else 2
  let power := exponent - 2
  { value := 4 * mantissa
    low := 4 * mantissa - below
    high := 4 * mantissa + 2
    unit := if 0 ≤ power then Nat.pow 2 power.toNat else 1
    den := if 0 ≤ power then 1 else Nat.pow 2 (-power).toNat
    closed := mantissa % 2 = 0 }

namespace Rounding

/-- `digits · 10 ^ exponent` in units of the interval, as a quotient. -/
def ofDecimal (r : Rounding) (d : Decimal) : Nat × Nat :=
  if 0 ≤ d.exponent then (d.digits * Nat.pow 10 d.exponent.toNat * r.den, r.unit)
  else (d.digits * r.den, r.unit * Nat.pow 10 (-d.exponent).toNat)

/-- Whether the decimal rounds to the double. -/
def admits (r : Rounding) (d : Decimal) : Bool :=
  let (n, q) := r.ofDecimal d
  if r.closed then r.low * q ≤ n && n ≤ r.high * q
  else r.low * q < n && n < r.high * q

/-- The distance of the decimal from the value, in units of the interval over a common divisor. -/
def distance (r : Rounding) (d : Decimal) : Nat :=
  let (n, q) := r.ofDecimal d
  if n ≤ r.value * q then r.value * q - n else n - r.value * q

/-- The exponent of the leading decimal place, plus one: the value lies in `[10 ^ (p-1), 10 ^ p)`. -/
def places (r : Rounding) : Int :=
  let num := r.value * r.unit
  if r.den ≤ num then digitCount (num / r.den)
  else
    let inverse := (r.den + num - 1) / num
    1 - (digitCount (inverse - 1) : Int)

/-- The greatest multiple of `10 ^ exponent` that is at most the value. -/
def floorAt (r : Rounding) (exponent : Int) : Decimal :=
  let num := r.value * r.unit
  if 0 ≤ exponent then ⟨num / (r.den * Nat.pow 10 exponent.toNat), exponent⟩
  else ⟨num * Nat.pow 10 (-exponent).toNat / r.den, exponent⟩

/-- The decimal nearest to the value among those with last place `10 ^ exponent` that round to it;
    of two at the same distance the greater. -/
def nearestAt (r : Rounding) (exponent : Int) : Option Decimal :=
  let below := r.floorAt exponent
  let above : Decimal := ⟨below.digits + 1, exponent⟩
  match r.admits below, r.admits above with
  | true, true => some (if r.distance below < r.distance above then below else above)
  | true, false => some below
  | false, true => some above
  | false, false => none

/-- The decimal of the fewest digits, at most seventeen, that rounds to the value. -/
def shortest (r : Rounding) : Decimal :=
  let p := r.places
  let tries := (List.range 17).filterMap fun n => r.nearestAt (p - (n + 1 : Nat))
  tries.headD (r.floorAt (p - 17))

end Rounding

/-- A decimal written by places, without an exponent and without zeros after the last digit of a
    fraction. -/
def Decimal.text (d : Decimal) : String :=
  let digits := Nat.toDigits 10 d.digits
  if 0 ≤ d.exponent then String.ofList (digits ++ List.replicate d.exponent.toNat '0')
  else
    let shift := (-d.exponent).toNat
    let padded := List.replicate (shift + 1 - digits.length) '0' ++ digits
    let whole := padded.take (padded.length - shift)
    let fraction := (padded.drop (padded.length - shift)).reverse.dropWhile (· = '0') |>.reverse
    String.ofList (if fraction.isEmpty then whole else whole ++ '.' :: fraction)

/-- The text of a double: its shortest decimal, with `inf` for infinities and a sign for negative
    numbers, zero included. -/
def text : Binary64 → String
  | .infinite negative => (if negative then "-" else "") ++ "inf"
  | .finite negative mantissa exponent =>
    (if negative then "-" else "") ++
      (if mantissa = 0 then "0" else (roundingOf mantissa exponent).shortest.text)

end WorkflowAudit.Binary64
