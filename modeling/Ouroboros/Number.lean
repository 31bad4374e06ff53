/-
Numbers of the language: a float with a mark that says whether it counts as an integer. Arithmetic keeps the mark while
both operands carry it and the result has no fraction, so an overflow to an infinity loses it.

`Number.text` is the form in which programs print numbers. `readNumeral` is the value of a numeral in source text.
-/
import Ouroboros.Text.Bytes
import Ouroboros.Decimal.Layout

namespace Ouroboros

/-- a float, and whether it counts as an integer -/
structure Number where
  value : Float
  isInt : Bool
deriving DecidableEq

namespace Number

/-- a float that counts as an integer when `wanted` and when it is one -/
def make (value : Float) (wanted : Bool) : Number := ⟨value, wanted && Decimal.isIntegral value⟩

/-- an integer of 64 bits with a sign, rounded to the nearest float -/
def ofInt (n : Int) : Number := ⟨Float.ofModel (Float.Model.ofInt64 (Int64.ofInt n)), true⟩

/-- a float that does not count as an integer -/
def ofFloat (value : Float) : Number := ⟨value, false⟩

def add (a b : Number) : Number := make (a.value + b.value) (a.isInt && b.isInt)

def sub (a b : Number) : Number := make (a.value - b.value) (a.isInt && b.isInt)

def mul (a b : Number) : Number := make (a.value * b.value) (a.isInt && b.isInt)

def div (a b : Number) : Number := make (a.value / b.value) (a.isInt && b.isInt)

/-- whether the number is a zero, of either sign -/
def isZero (a : Number) : Bool := a.value == 0.0

/-- floats are written positionally from 0.0001 up to, not including, one million, and scientifically elsewhere, with
at least two exponent digits -/
def layout : Decimal.Layout := ⟨-4, 6, 2⟩

/-- integers are written positionally below this size -/
def positionalBound : Float := 1e21

/-- a minus sign when it is due -/
def signText (negative : Bool) : Bytes := if negative then [Bytes.minus] else []

/-- the shortest decimal of m · 2^q -/
def decimal (m : Nat) (q : Int) : Decimal.Numeral := if m = 0 then ⟨0, 0⟩ else Decimal.shortest m q

/-- a float written by `write`, with its sign -/
def floatText (write : Decimal.Numeral → Bytes) (value : Float) : Bytes :=
  match Decimal.read value with
  | .notANumber => Ouroboros.text "NaN"
  | .infinite negative => if negative then Ouroboros.text "-Inf" else Ouroboros.text "+Inf"
  | .finite negative m q => signText negative ++ write (decimal m q)

/-- whether a text shows that it is no integer: it has a point or an exponent, or names no finite number -/
def showsFloat (t : Bytes) : Bool := t.any fun b => (Ouroboros.text ".eEIN").contains b

/-- the number as programs print it: integers positionally, and other numbers so that they show a point or an
exponent -/
def text (n : Number) : Bytes :=
  if n.isInt && n.value.abs < positionalBound then floatText Decimal.Numeral.positional n.value
  else
    let t := floatText (Decimal.Numeral.layOut layout) n.value
    if showsFloat t then t else t ++ Ouroboros.text ".0"

end Number

/-- the number that a run of digits stands for -/
def digitsValue (digits : Bytes) : Nat := digits.foldl (fun n b => 10 * n + (b.toNat - 48)) 0

/-- the value of a numeral: digits, and possibly a point and more digits -/
def readNumeral (t : Bytes) : Float :=
  let whole := t.takeWhile Bytes.isDigit
  let fraction := (t.dropWhile Bytes.isDigit).drop 1
  Float.ofScientific (digitsValue (whole ++ fraction)) true fraction.length

end Ouroboros
