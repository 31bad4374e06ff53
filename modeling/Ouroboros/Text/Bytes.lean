/-
Byte text. Source, names, messages and the strings of a running program are all sequences of bytes: lengths and
columns count bytes, order compares bytes, and bytes that are no valid UTF-8 pass through untouched.

`text` writes a literal of this library as its UTF-8 bytes. The other definitions are the few ways in which text is
built and cut: decimal numerals, joining, splitting into lines, padding.
-/

namespace Ouroboros

/-- text as a sequence of bytes -/
abbrev Bytes := List UInt8

def text (s : String) : Bytes := s.toList.flatMap String.utf8EncodeChar

namespace Bytes

abbrev newline : UInt8 := 10
abbrev carriageReturn : UInt8 := 13
abbrev space : UInt8 := 32
abbrev zero : UInt8 := 48

/-- the decimal point, and half of the range sign -/
abbrev point : UInt8 := 46

abbrev minus : UInt8 := 45
abbrev quote : UInt8 := 34
abbrev backslash : UInt8 := 92
abbrev slash : UInt8 := 47
abbrev equals : UInt8 := 61

def isDigit (b : UInt8) : Bool := 48 ≤ b && b ≤ 57

/-- a letter or an underscore -/
def isLetter (b : UInt8) : Bool := (97 ≤ b && b ≤ 122) || (65 ≤ b && b ≤ 90) || b == 95

/-- a character of a name after its first -/
def isNameByte (b : UInt8) : Bool := isLetter b || isDigit b

def ofNat (n : Nat) : Bytes := (Nat.toDigits 10 n).map fun c => c.toNat.toUInt8

/-- the decimal numeral of an integer, with a minus sign when it is negative -/
def ofInt : Int → Bytes
  | .ofNat n => ofNat n
  | .negSucc n => minus :: ofNat (n + 1)

/-- the texts in order, with `sep` between neighbours -/
def join (sep : Bytes) : List Bytes → Bytes
  | [] => []
  | [t] => t
  | t :: rest => t ++ sep ++ join sep rest

/-- the lines of a text: its pieces between line feeds, so that an empty text has one empty line -/
def lines : Bytes → List Bytes
  | [] => [[]]
  | b :: rest =>
    if b = newline then [] :: lines rest
    else
      match lines rest with
      | [] => [[b]]
      | line :: others => (b :: line) :: others

/-- the text without the bytes of `cut` at its end -/
def trimRight (cut : UInt8 → Bool) (t : Bytes) : Bytes := (t.reverse.dropWhile cut).reverse

/-- `t` moved to the right by spaces until it is `width` bytes wide -/
def padLeft (width : Nat) (t : Bytes) : Bytes := List.replicate (width - t.length) space ++ t

/-- what is left of `t` after `part`, when `part` stands at its start -/
def dropStart? : Bytes → Bytes → Option Bytes
  | [], t => some t
  | p :: part, b :: t => if p = b then dropStart? part t else none
  | _ :: _, [] => none

end Bytes

end Ouroboros
