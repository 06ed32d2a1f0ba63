/-! # Shortest decimals

The reals that round to a double form an interval around it; its ends belong to it exactly when the
mantissa is even. A decimal of few digits is looked for on coarser and coarser grids: the first
grid with a point in the interval gives the digits, the nearer point wins and a tie goes to the
even one. -/

namespace ModuleGraph.Decimal

/-- The positive number `digits * 10 ^ exponent`. -/
structure Numeral where
  digits : Nat
  exponent : Int
  deriving DecidableEq, Repr

structure Ratio where
  num : Nat
  den : Nat
  deriving DecidableEq, Repr

def Ratio.scaled (n b : Nat) (e : Int) : Ratio :=
  if 0 ≤ e then ⟨n * Nat.pow b e.toNat, 1⟩ else ⟨n, Nat.pow b (-e).toNat⟩

def Ratio.lt (x y : Ratio) : Bool := x.num * y.den < y.num * x.den

def Ratio.le (x y : Ratio) : Bool := x.num * y.den ≤ y.num * x.den

/-- The reals that round to `mantissa * 2 ^ exponent`, in quarters of its last place. -/
structure Interval where
  low : Ratio
  high : Ratio
  closed : Bool
  deriving DecidableEq, Repr

/-- The lower gap is half as wide where the mantissa is a power of two that is not the least. -/
def Interval.around (mantissa : Nat) (exponent : Int) : Interval :=
  let below := if mantissa = Nat.pow 2 52 ∧ exponent ≠ -1074 then 1 else 2
  { low := .scaled (4 * mantissa - below) 2 (exponent - 2)
    high := .scaled (4 * mantissa + 2) 2 (exponent - 2)
    closed := mantissa % 2 = 0 }

def Interval.contains (i : Interval) (d : Numeral) : Bool :=
  let x := Ratio.scaled d.digits 10 d.exponent
  if i.closed then i.low.le x && x.le i.high else i.low.lt x && x.lt i.high

/-- The two points of the grid `10 ^ exponent` beside `x`, the lower one first. -/
def neighbours (x : Ratio) (exponent : Int) : Numeral × Numeral :=
  let unit := Ratio.scaled 1 10 exponent
  let n := x.num * unit.den / (x.den * unit.num)
  (⟨n, exponent⟩, ⟨n + 1, exponent⟩)

/-- Of the two points beside `x`, the nearer; of two equally near ones the even one. -/
def nearer (x : Ratio) (low high : Numeral) : Numeral :=
  let unit := Ratio.scaled 1 10 low.exponent
  let twice := 2 * x.num * unit.den
  let middle := (low.digits + high.digits) * unit.num * x.den
  if twice < middle then low
  else if middle < twice then high
  else if low.digits % 2 = 0 then low else high

/-- The point of the grid `10 ^ exponent` that stands for `x`, if one lies in the interval. -/
def onGrid (i : Interval) (x : Ratio) (exponent : Int) : Option Numeral :=
  let (low, high) := neighbours x exponent
  match i.contains low, i.contains high with
  | true, true => some (nearer x low high)
  | true, false => some low
  | false, true => some high
  | false, false => none

def width (n : Nat) : Nat := (Nat.toDigits 10 n).length

def leading (x : Ratio) : Int :=
  if x.den ≤ x.num then (width (x.num / x.den) : Int) - 1
  else
    let k := width (x.den / x.num)
    if x.den ≤ x.num * Nat.pow 10 (k - 1) then 1 - (k : Int) else -(k : Int)

/-- Moves trailing zeros of the digits into the exponent; `fuel` bounds their number. -/
def stripZeros : Nat → Numeral → Numeral
  | 0, d => d
  | fuel + 1, d =>
    if d.digits ≠ 0 ∧ d.digits % 10 = 0 then stripZeros fuel ⟨d.digits / 10, d.exponent + 1⟩ else d

/-- The decimal with the fewest digits that rounds to `mantissa * 2 ^ exponent`. Seventeen digits
always suffice. -/
def shortest (mantissa : Nat) (exponent : Int) : Numeral :=
  let x := Ratio.scaled mantissa 2 exponent
  let i := Interval.around mantissa exponent
  let top := leading x
  let found := (List.range 18).findSome? fun (count : Nat) => onGrid i x (top - (count : Int))
  stripZeros 20 (found.getD ⟨mantissa * Nat.pow 5 (-exponent).toNat, exponent⟩)

end ModuleGraph.Decimal
