import ModuleGraph.Decimal.Double
import ModuleGraph.Decimal.Shortest

/-! # Number text

The text of a number has the fewest digits that read back. It is positional while the leading
digit stands between `10 ^ -6` and `10 ^ 20` and scientific outside, with a signed exponent. Both
zeros are `0`. -/

namespace ModuleGraph

open Decimal

namespace Decimal

/-- The exponents of the leading digit that are written positionally. -/
def positionalFrom : Int := -6

def positionalBelow : Int := 21

def zeros (n : Nat) : String := String.ofList (List.replicate n '0')

/-- The point of `digits` stands after `count` of them. -/
def pointAfter (digits : String) (count : Nat) : String :=
  String.ofList (digits.toList.take count) ++ "." ++ String.ofList (digits.toList.drop count)

/-- Lays out a positive decimal without trailing zeros. -/
def layout (d : Numeral) : String :=
  let digits := toString d.digits
  let count := digits.length
  let top := d.exponent + count - 1
  if positionalFrom ≤ top ∧ top < positionalBelow then
    if 0 ≤ d.exponent then digits ++ zeros d.exponent.toNat
    else if 0 ≤ top then pointAfter digits (top.toNat + 1)
    else "0." ++ zeros (-top - 1).toNat ++ digits
  else
    let mark := if 0 ≤ top then "e+" else "e-"
    let mantissa := if count = 1 then digits else pointAfter digits 1
    mantissa ++ mark ++ toString top.natAbs

end Decimal

def Double.text (d : Double) : String :=
  match d.form with
  | .nan => "NaN"
  | .infinite negative => if negative then "-Infinity" else "Infinity"
  | .finite negative mantissa exponent =>
    if mantissa = 0 then "0"
    else (if negative then "-" else "") ++ layout (shortest mantissa exponent)

/-- The sixteen lower-case hexadecimal digits of the bits. -/
def Double.hex (d : Double) : String :=
  let digits := Nat.toDigits 16 d.bits.toNat
  String.ofList (List.replicate (16 - digits.length) '0' ++ digits)

end ModuleGraph
