/-
Layouts of a decimal: positional, with a point where one is needed and zeros up to it, or scientific, with one digit in
front of the point and a signed exponent.
-/
import Ouroboros.Text.Bytes
import Ouroboros.Decimal.Shortest

namespace Ouroboros.Decimal

/-- which decimals are written positionally, by the power of ten of their first digit, and how wide an exponent is -/
structure Layout where
  /-- least power written positionally -/
  least : Int
  /-- least power above those -/
  bound : Int
  /-- least number of exponent digits -/
  exponentWidth : Nat
deriving DecidableEq, Repr

namespace Numeral

/-- the digits of the coefficient -/
def digits (d : Numeral) : Bytes := Bytes.ofNat d.coefficient

/-- the power of ten of the first digit -/
def leadingPower (d : Numeral) : Int := d.digits.length + d.exponent - 1

/-- the decimal with all its places -/
def positional (d : Numeral) : Bytes :=
  match d.exponent with
  | .ofNat zeros => d.digits ++ List.replicate zeros Bytes.zero
  | .negSucc n =>
    let places := n + 1
    let digits := List.replicate (places + 1 - d.digits.length) Bytes.zero ++ d.digits
    let whole := digits.length - places
    digits.take whole ++ [Bytes.point] ++ digits.drop whole

/-- the decimal with one digit in front of the point, and an exponent of at least `width` digits -/
def scientific (width : Nat) (d : Numeral) : Bytes :=
  let fraction := d.digits.drop 1
  let power := d.leadingPower
  let numeral := Bytes.ofNat power.natAbs
  d.digits.take 1 ++ (if fraction = [] then [] else Bytes.point :: fraction) ++
    (if power < 0 then text "e-" else text "e+") ++
    List.replicate (width - numeral.length) Bytes.zero ++ numeral

def layOut (l : Layout) (d : Numeral) : Bytes :=
  if l.least ≤ d.leadingPower ∧ d.leadingPower < l.bound then d.positional
  else d.scientific l.exponentWidth

end Numeral

end Ouroboros.Decimal
