import Chronicle.Decimal.Shortest

/-!
# Positional text of doubles

A double is written with the digits of its shortest decimal and never with an
exponent: zeros fill up to the point on either side.  A whole number has no
point, and zero keeps its sign.
-/

namespace Chronicle.Decimal

/-- The digits of a decimal with a point where it belongs. -/
def Numeral.positional (d : Numeral) : String :=
  let digits := Nat.toDigits 10 d.digits
  let places := (-d.exponent).toNat
  let chars :=
    if places = 0 then
      digits ++ List.replicate d.exponent.toNat '0'
    else if places < digits.length then
      digits.take (digits.length - places) ++ '.' :: digits.drop (digits.length - places)
    else
      '0' :: '.' :: List.replicate (places - digits.length) '0' ++ digits
  String.ofList chars

/-- The sign that is written in front. -/
def sign (negative : Bool) : String :=
  if negative then "-" else ""

/-- The text of a double. -/
def Parts.text : Parts → String
  | .notANumber => "NaN"
  | .infinite negative => sign negative ++ "inf"
  | .zero negative => sign negative ++ "0"
  | .finite negative magnitude => sign negative ++ (shortest magnitude).positional

/-- The text of the double with the given bits. -/
def textOfBits (bits : UInt64) : String :=
  (Parts.ofBits bits).text

example : textOfBits 0x3FB999999999999A = "0.1" := by decide +kernel
example : textOfBits 0x8000000000000000 = "-0" := by decide +kernel
example : textOfBits 0x44B52D02C7E14AF6 = "100000000000000000000000" := by decide +kernel
example : textOfBits 0x3E60000000000000 = "0.000000029802322387695313" := by decide +kernel

end Chronicle.Decimal
