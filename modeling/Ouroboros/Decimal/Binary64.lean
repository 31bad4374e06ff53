/-
What a float denotes. A finite float is a sign and the exact value m · 2^q; from it come the integer a float is, the
integer it truncates to, and the interval of reals that are nearer to it than to its neighbours.
-/

namespace Ouroboros.Decimal

inductive Reading where
  | notANumber
  | infinite (negative : Bool)
  /-- the value m · 2^q with its sign; zeros have m = 0 -/
  | finite (negative : Bool) (m : Nat) (q : Int)
deriving DecidableEq, Repr

open Float.Model in
/-- what a float denotes, exactly -/
def read (f : Float) : Reading :=
  match f.toModel.unpack with
  | .notANumber => .notANumber
  | .infinity s => .infinite (s == .negative)
  | .zero s => .finite (s == .negative) 0 0
  | .finite s m q _ => .finite (s == .negative) m q

def signed (negative : Bool) (n : Nat) : Int := if negative then -(n : Int) else n

abbrev binaryPower (n : Nat) : Nat := Nat.pow 2 n

/-- the integer a float is, when it is finite and has no fraction -/
def integer? (f : Float) : Option Int :=
  match read f with
  | .finite negative m (.ofNat q) => some (signed negative (m * binaryPower q))
  | .finite negative m (.negSucc q) =>
    if m % binaryPower (q + 1) = 0 then some (signed negative (m / binaryPower (q + 1))) else none
  | _ => none

/-- whether a float is finite and has no fraction -/
def isIntegral (f : Float) : Bool := (integer? f).isSome

/-- 2^63, the least positive integer that is no signed 64-bit integer -/
def int64Bound : Int := 9223372036854775808

/-- the integer a float is, when that is a signed 64-bit integer -/
def int64? (f : Float) : Option Int :=
  match integer? f with
  | some n => if -int64Bound ≤ n ∧ n < int64Bound then some n else none
  | none => none

/-- a finite float without its fraction; other floats give zero -/
def truncate (f : Float) : Int :=
  match read f with
  | .finite negative m (.ofNat q) => signed negative (m * binaryPower q)
  | .finite negative m (.negSucc q) => signed negative (m / binaryPower (q + 1))
  | _ => 0

/-- an interval of non-negative reals around a value, all over one denominator -/
structure Interval where
  low : Nat
  value : Nat
  high : Nat
  den : Nat
  /-- whether the two ends belong to it -/
  closed : Bool
deriving DecidableEq, Repr

/-- least exponent of a float's last binary place -/
def leastExponent : Int := -1074

/-- the reals that round to m · 2^q. The neighbour below is only half as far away when m is the least mantissa of its
binary order; the ends belong to the interval when m is even. -/
def roundingInterval (m : Nat) (q : Int) : Interval :=
  let low := if m = binaryPower 52 ∧ leastExponent < q then 4 * m - 1 else 4 * m - 2
  match q - 2 with
  | .ofNat s => ⟨low * binaryPower s, 4 * m * binaryPower s, (4 * m + 2) * binaryPower s, 1, m % 2 = 0⟩
  | .negSucc s => ⟨low, 4 * m, 4 * m + 2, binaryPower (s + 1), m % 2 = 0⟩

end Ouroboros.Decimal
