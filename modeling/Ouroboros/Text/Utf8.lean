/-
UTF-8. `decode` reads byte text as glyphs: a well-formed sequence is one character, and a byte that starts none is a
stray byte on its own. Overlong forms, surrogates and values above U+10FFFF are not well formed.
-/
import Ouroboros.Text.Bytes

namespace Ouroboros.Text

/-- what one position of byte text shows: a character, or a byte that belongs to none -/
inductive Glyph where
  | char (c : Char)
  | stray (b : UInt8)
deriving DecidableEq, Repr

/-- the replacement character, U+FFFD -/
def replacement : Char := Char.ofNat 0xFFFD

namespace Glyph

/-- the character shown for a glyph: a stray byte is shown as the replacement character -/
def shown : Glyph → Char
  | .char c => c
  | .stray _ => replacement

/-- whether the glyph is a well-formed character -/
def isChar : Glyph → Bool
  | .char _ => true
  | .stray _ => false

end Glyph

def encode (c : Char) : Bytes := String.utf8EncodeChar c

/-- the low six bits of a continuation byte -/
def continuation? (b : UInt8) : Option Nat :=
  if 0x80 ≤ b && b < 0xC0 then some (b.toNat - 0x80) else none

/-- a scalar value of at least `least`, as a character -/
def scalar? (least n : Nat) : Option Char :=
  if least ≤ n ∧ (n < 0xD800 ∨ 0xDFFF < n) ∧ n ≤ 0x10FFFF then some (Char.ofNat n) else none

/-- the character at the start of the text, with the number of its bytes -/
def first? : Bytes → Option (Char × Nat)
  | [] => none
  | a :: rest =>
    if a < 0x80 then some (Char.ofNat a.toNat, 1)
    else if a < 0xC0 then none
    else if a < 0xE0 then
      match rest with
      | b :: _ => do
        let low ← continuation? b
        let c ← scalar? 0x80 ((a.toNat - 0xC0) * 64 + low)
        return (c, 2)
      | _ => none
    else if a < 0xF0 then
      match rest with
      | b :: c :: _ => do
        let mid ← continuation? b
        let low ← continuation? c
        let c ← scalar? 0x800 (((a.toNat - 0xE0) * 64 + mid) * 64 + low)
        return (c, 3)
      | _ => none
    else if a < 0xF8 then
      match rest with
      | b :: c :: d :: _ => do
        let high ← continuation? b
        let mid ← continuation? c
        let low ← continuation? d
        let c ← scalar? 0x10000 ((((a.toNat - 0xF0) * 64 + high) * 64 + mid) * 64 + low)
        return (c, 4)
      | _ => none
    else none

/-- the glyphs of a text, the first `skip` bytes of which belong to a glyph already read -/
def decodeFrom : Nat → Bytes → List Glyph
  | _, [] => []
  | skip + 1, _ :: rest => decodeFrom skip rest
  | 0, b :: rest =>
    match first? (b :: rest) with
    | some (c, size) => .char c :: decodeFrom (size - 1) rest
    | none => .stray b :: decodeFrom 0 rest

def decode (t : Bytes) : List Glyph := decodeFrom 0 t

def isUtf8 (t : Bytes) : Bool := (decode t).all Glyph.isChar

/-- the characters of a text, stray bytes shown as the replacement character -/
def shownChars (t : Bytes) : List Char := (decode t).map Glyph.shown

/-! ## Blank characters -/

/-- a character with the White_Space property -/
def isBlank (c : Char) : Bool :=
  let n := c.toNat
  (9 ≤ n && n ≤ 13) || n == 0x20 || n == 0x85 || n == 0xA0 || n == 0x1680 || (0x2000 ≤ n && n ≤ 0x200A) ||
    n == 0x2028 || n == 0x2029 || n == 0x202F || n == 0x205F || n == 0x3000

/-- whether nothing but blank characters stands in the text -/
def isBlankText (t : Bytes) : Bool := (shownChars t).all isBlank

/-- the characters of the text without the blank ones at its ends -/
def trim (t : Bytes) : List Char :=
  (((shownChars t).dropWhile isBlank).reverse.dropWhile isBlank).reverse

end Ouroboros.Text
