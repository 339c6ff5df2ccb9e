/-!
# The shortest decimal of a binary fraction

A finite double is `significand · 2 ^ exponent`.  The reals that round to it
form an interval, closed exactly when the significand is even.  The decimal
chosen for it lies in that interval, has the fewest digits a decimal in it can
have, and of those is the nearest to the value; of two equally near ones the
larger is chosen.  All comparisons are made exactly, on natural numbers.
-/

namespace Chronicle.Decimal

/-- The decimal `digits · 10 ^ exponent`. -/
structure Numeral where
  digits : Nat
  exponent : Int
deriving DecidableEq, Repr

/-- A positive double, taken apart: `significand · 2 ^ exponent`. -/
structure Binary where
  significand : Nat
  exponent : Int
  /-- Whether the next smaller double is only half as far as the next larger one. -/
  narrowBelow : Bool
deriving DecidableEq, Repr

/--
The reals that round to a double, as fractions over one denominator.  The
bounds themselves belong to them if `closed` is set.
-/
structure Rounding where
  low : Nat
  value : Nat
  high : Nat
  denominator : Nat
  closed : Bool
deriving DecidableEq, Repr

namespace Rounding

/--
The rounding interval of a double: half the way to its neighbours.  In
quarters of a unit of the significand it reaches two above and two, or at the
foot of a binade one, below.
-/
def ofBinary (x : Binary) : Rounding :=
  let scale := Nat.pow 2 (x.exponent - 2).toNat
  { low := (4 * x.significand - if x.narrowBelow then 1 else 2) * scale
    value := 4 * x.significand * scale
    high := (4 * x.significand + 2) * scale
    denominator := Nat.pow 2 (2 - x.exponent).toNat
    closed := x.significand % 2 = 0 }

/-- The interval divided by `10 ^ exponent`. -/
def scaleDown
    (r : Rounding)
    (exponent : Int) :
    Rounding :=
  let up := Nat.pow 10 (-exponent).toNat
  { r with
    low := r.low * up
    value := r.value * up
    high := r.high * up
    denominator := r.denominator * Nat.pow 10 exponent.toNat }

/-- Whether the integer `n` lies in the interval. -/
def Contains
    (r : Rounding)
    (n : Nat) :
    Prop :=
  let point := n * r.denominator
  (r.low < point ∧ point < r.high) ∨ (r.closed = true ∧ (point = r.low ∨ point = r.high))

instance
    (r : Rounding)
    (n : Nat) :
    Decidable (r.Contains n) := by
  unfold Contains
  infer_instance

/--
The integer in the interval that is nearest to the value, if one of the
value's two neighbours lies in it; of two equally near ones the larger.
-/
def nearest? (r : Rounding) : Option Nat :=
  let below := r.value / r.denominator
  let above := below + 1
  if r.Contains below then
    if r.Contains above
        ∧ above * r.denominator - r.value ≤ r.value - below * r.denominator then
      some above
    else
      some below
  else if r.Contains above then
    some above
  else
    none

/-- The place of the value's first decimal digit: it is at least `10` to this power. -/
def leadingPlace (r : Rounding) : Int :=
  let places (n : Nat) : Nat := (Nat.toDigits 10 n).length
  if r.denominator ≤ r.value then
    (places (r.value / r.denominator) : Int) - 1
  else
    -(places ((r.denominator + r.value - 1) / r.value - 1) : Int)

end Rounding

/--
The first of the grids `10 ^ place`, `10 ^ (place - 1)`, … that has a point in
the interval, and that point; after `steps` grids the value's lower neighbour
on the next one.
-/
def search
    (r : Rounding) :
    (steps : Nat) →
    (place : Int) →
    Numeral
  | 0, place =>
    let scaled := r.scaleDown place
    ⟨scaled.value / scaled.denominator, place⟩
  | steps + 1, place =>
    match (r.scaleDown place).nearest? with
    | some digits => ⟨digits, place⟩
    | none => search r steps (place - 1)

/-- The same decimal without a zero at its end. -/
def Numeral.trim (d : Numeral) : Numeral :=
  if d.digits % 10 = 0 then ⟨d.digits / 10, d.exponent + 1⟩ else d

/-- The shortest decimal that rounds to a double.  Seventeen digits always suffice. -/
def shortest (x : Binary) : Numeral :=
  let r := Rounding.ofBinary x
  (search r 17 r.leadingPlace).trim

/-- What the bits of a double stand for. -/
inductive Parts
  | notANumber
  | infinite (negative : Bool)
  | zero (negative : Bool)
  | finite (negative : Bool) (magnitude : Binary)
deriving DecidableEq, Repr

/--
Takes the bits of a double apart: one bit of sign, eleven of exponent, and
fifty-two of fraction, with the leading one left out unless the exponent is
zero.
-/
def Parts.ofBits (bits : UInt64) : Parts :=
  let negative : Bool := bits >>> 63 = 1
  let exponent : Nat := (bits >>> 52 &&& 0x7FF).toNat
  let fraction : Nat := (bits &&& 0xFFFFFFFFFFFFF).toNat
  if exponent = 0x7FF then
    if fraction = 0 then .infinite negative else .notANumber
  else if exponent = 0 then
    if fraction = 0 then .zero negative else .finite negative ⟨fraction, -1074, false⟩
  else
    .finite negative ⟨0x10000000000000 + fraction, (exponent : Int) - 1075, fraction = 0 ∧ 1 < exponent⟩

end Chronicle.Decimal
