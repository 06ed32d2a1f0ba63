/-! # Doubles by their bits

A number is kept as its 64 bits, so two numbers are the same value exactly when their bits agree.
A finite magnitude is read as `mantissa * 2 ^ exponent`. -/

namespace ModuleGraph

/-- A number of double precision, given by its bits. -/
structure Double where
  bits : UInt64
  deriving DecidableEq, Repr, Inhabited

namespace Double

inductive Form where
  | nan
  | infinite (negative : Bool)
  | finite (negative : Bool) (mantissa : Nat) (exponent : Int)
  deriving DecidableEq, Repr

/-- Splits the bits into sign, exponent and mantissa; the hidden bit is written out. -/
def form (d : Double) : Form :=
  let word : Nat := d.bits.toNat
  let negative := word / Nat.pow 2 63 = 1
  let field : Nat := word / Nat.pow 2 52 % Nat.pow 2 11
  let fraction : Nat := word % Nat.pow 2 52
  if field = 2047 then
    if fraction = 0 then .infinite negative else .nan
  else if field = 0 then .finite negative fraction (-1074)
  else .finite negative (Nat.pow 2 52 + fraction) ((field : Int) - 1075)

/-- The one bit pattern that answers show for every value that is not a number. -/
def quietNaN : Double := ⟨0x7ff8000000000000⟩

def canonical (d : Double) : Double := if d.form = .nan then quietNaN else d

/-- The double nearest to `mantissa * 10 ^ exponent`, a tie going to the even one. -/
def ofDecimal (negative : Bool) (mantissa : Nat) (exponent : Int) : Double :=
  let magnitude := Float.ofScientific mantissa (exponent < 0) exponent.natAbs
  let bits := magnitude.toBits
  ⟨if negative then bits ||| 0x8000000000000000 else bits⟩

def ofNat (n : Nat) : Double := ofDecimal false n 0

end Double

end ModuleGraph
