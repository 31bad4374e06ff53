/-
The shortest decimal of a float: of the decimals that read back as the float, one with the fewest digits, and of those
the nearest to its value.

For 1, 2, ... digits the two neighbours of the value on the grid of that many digits are tried, in exact arithmetic.
The first grid with a neighbour inside the rounding interval gives the digits; of two neighbours inside it the nearer
is taken, and the even one when both are equally near. Seventeen digits always suffice.
-/
import Ouroboros.Decimal.Binary64

namespace Ouroboros.Decimal

/-- the decimal c · 10^e -/
structure Numeral where
  coefficient : Nat
  exponent : Int
deriving DecidableEq, Repr

/-- the number of digits of a positive number -/
def digitCount (n : Nat) : Nat := (Nat.toDigits 10 n).length

/-- the power k with 10^(k-1) ≤ num / den < 10^k, for a positive quotient -/
def magnitude (num den : Nat) : Int :=
  if den ≤ num then digitCount (num / den)
  else 1 - (digitCount ((den + num - 1) / num - 1) : Int)

/-- a grid of decimals: all multiples of 10^u -/
structure Grid where
  u : Int
deriving DecidableEq, Repr

namespace Grid

/-- the factor of numerators when lengths are measured in steps of the grid -/
def up (g : Grid) : Nat := Nat.pow 10 (-g.u).toNat

/-- the factor of denominators when lengths are measured in steps of the grid -/
def down (g : Grid) : Nat := Nat.pow 10 g.u.toNat

/-- whether the grid's point number `c` lies in the interval -/
def holds (g : Grid) (i : Interval) (c : Nat) : Bool :=
  let at' := c * i.den * g.down
  if i.closed then decide (i.low * g.up ≤ at') && decide (at' ≤ i.high * g.up)
  else decide (i.low * g.up < at') && decide (at' < i.high * g.up)

/-- the grid's point in the interval that is nearest to the value, if one of the value's neighbours is inside -/
def nearest? (g : Grid) (i : Interval) : Option Nat :=
  let step := i.den * g.down
  let value := i.value * g.up
  let below := value / step
  let above := below + 1
  match g.holds i below, g.holds i above with
  | false, false => none
  | true, false => some below
  | false, true => some above
  | true, true =>
    if 2 * value < (below + above) * step then some below
    else if (below + above) * step < 2 * value then some above
    else if below % 2 = 0 then some below else some above

end Grid

/-- the coefficient without its trailing zeros -/
def stripZeros : Nat → Numeral → Numeral
  | 0, d => d
  | fuel + 1, d =>
    if d.coefficient % 10 = 0 then stripZeros fuel ⟨d.coefficient / 10, d.exponent + 1⟩ else d

/-- tries grids of `n`, `n + 1`, ... digits, `fuel` of them -/
def searchGrids (i : Interval) (k : Int) : Nat → Nat → Option Numeral
  | 0, _ => none
  | fuel + 1, n =>
    match Grid.nearest? ⟨k - n⟩ i with
    | some c => some (stripZeros (digitCount c) ⟨c, k - n⟩)
    | none => searchGrids i k fuel (n + 1)

/-- the shortest decimal that reads back as m · 2^q, for positive m -/
def shortest (m : Nat) (q : Int) : Numeral :=
  let i := roundingInterval m q
  let k := magnitude i.value i.den
  (searchGrids i k 17 1).getD ⟨0, 0⟩

end Ouroboros.Decimal
