/-
Reading source text into tokens.

Blanks and comments separate tokens; each token is the longest that can be read where it starts. A character that
starts no token, an escape that means nothing and a string that does not end on its line are recorded, and reading goes
on after them, so one pass can show several faults. Only a string that meets the end of the text could be mended by
more text.

`scan` gives the tokens, closed by one end-of-input token, and the diagnostics in the order in which they were found.
-/
import Ouroboros.Token
import Ouroboros.Diagnostic

namespace Ouroboros

namespace Pos

def start : Pos := ⟨1, 1⟩

def next (p : Pos) (b : UInt8) : Pos :=
  if b = Bytes.newline then ⟨p.line + 1, 1⟩ else ⟨p.line, p.col + 1⟩

def after (p : Pos) (t : Bytes) : Pos := t.foldl next p

end Pos

namespace Token

/-- a byte that only separates tokens -/
def isBlankByte (b : UInt8) : Bool := b == 32 || b == 9 || b == 13 || b == 10

/-- the place and text after blanks and comments; `comment` says whether the text starts inside a comment -/
def skipBlanks : Bool → Pos → Bytes → Pos × Bytes
  | _, p, [] => (p, [])
  | true, p, b :: rest => skipBlanks (b != Bytes.newline) (p.next b) rest
  | false, p, b :: rest =>
    if isBlankByte b then skipBlanks false (p.next b) rest
    else if b = Bytes.slash ∧ rest.head? = some Bytes.slash then skipBlanks true (p.next b) rest
    else (p, b :: rest)

/-- what the byte after a backslash stands for in a string literal -/
def unescape? (b : UInt8) : Option UInt8 :=
  if b = 110 then some 10
  else if b = 116 then some 9
  else if b = Bytes.backslash then some Bytes.backslash
  else if b = Bytes.quote then some Bytes.quote
  else none

/-- how a string literal ends: by its closing quote, at the end of its line, or at the end of the text -/
inductive StringEnd where
  | closed
  | line
  | text
deriving DecidableEq, Repr

/-- a string literal from its opening quote on -/
structure StringBody where
  /-- its text, without quotes and escapes -/
  payload : Bytes
  /-- its bytes after the opening quote, the closing one included -/
  raw : Bytes
  /-- escapes that mean nothing -/
  faults : List Diagnostic
  ending : StringEnd
  /-- the place after it -/
  pos : Pos
  /-- the text after it -/
  rest : Bytes

/-- reads a string literal after its opening quote -/
def stringBody : Pos → Bytes → StringBody
  | p, [] => ⟨[], [], [], .text, p, []⟩
  | p, b :: rest =>
    if b = Bytes.quote then ⟨[], [b], [], .closed, p.next b, rest⟩
    else if b = Bytes.newline then ⟨[], [], [], .line, p, b :: rest⟩
    else if b = Bytes.backslash then
      match rest with
      | [] => ⟨[], [b], [], .text, p.next b, []⟩
      | e :: rest =>
        let body := stringBody ((p.next b).next e) rest
        match unescape? e with
        | some c => { body with payload := c :: body.payload, raw := b :: e :: body.raw }
        | none => { body with raw := b :: e :: body.raw, faults := ⟨.badEscape e p.line, p, [], false⟩ :: body.faults }
    else
      let body := stringBody (p.next b) rest
      { body with payload := b :: body.payload, raw := b :: body.raw }

/-- what is read at a place where no blank stands -/
structure Piece where
  token? : Option Token
  faults : List Diagnostic
  /-- the place after it -/
  pos : Pos
  /-- the text after it -/
  rest : Bytes

/-- a token without faults, from its bytes -/
def piece (kind : TokenKind) (lexeme : Bytes) (literal : Literal) (p : Pos) (rest : Bytes) : Piece :=
  ⟨some ⟨kind, lexeme, literal, p⟩, [], p.after lexeme, rest⟩

/-- a name or a keyword -/
def wordPiece (p : Pos) (b : UInt8) (rest : Bytes) : Piece :=
  let word := b :: rest.takeWhile Bytes.isNameByte
  let kind := TokenKind.ofWord word
  let literal := if kind = .identifier then Literal.text word else Literal.none
  piece kind word literal p (rest.dropWhile Bytes.isNameByte)

/-- the fraction of a numeral with the text after it: a point counts only when a digit follows it -/
def fraction : Bytes → Bytes × Bytes
  | dot :: d :: rest =>
    if dot = Bytes.point ∧ Bytes.isDigit d then
      (dot :: d :: rest.takeWhile Bytes.isDigit, rest.dropWhile Bytes.isDigit)
    else ([], dot :: d :: rest)
  | t => ([], t)

def numeralPiece (p : Pos) (b : UInt8) (rest : Bytes) : Piece :=
  let whole := b :: rest.takeWhile Bytes.isDigit
  let (decimals, rest) := fraction (rest.dropWhile Bytes.isDigit)
  let lexeme := whole ++ decimals
  piece .number lexeme (.number (readNumeral lexeme)) p rest

/-- a string literal; one that does not end properly is no token -/
def stringPiece (p : Pos) (b : UInt8) (rest : Bytes) : Piece :=
  let body := stringBody (p.next b) rest
  match body.ending with
  | .closed => ⟨some ⟨.stringLiteral, b :: body.raw, .text body.payload, p⟩, body.faults, body.pos, body.rest⟩
  | .line => ⟨none, body.faults ++ [⟨.newlineInString, p, [], false⟩], body.pos, body.rest⟩
  | .text => ⟨none, body.faults ++ [⟨.openString, p, [], true⟩], body.pos, body.rest⟩

/-- a character that starts no token; it takes one column whatever its size -/
def strayPiece (p : Pos) (b : UInt8) (rest : Bytes) : Piece :=
  let (c, size) := (Text.first? (b :: rest)).getD (Text.replacement, 1)
  ⟨none, [⟨.strayCharacter c p.line, p, [], false⟩], ⟨p.line, p.col + 1⟩, rest.drop (size - 1)⟩

/-- a sign of two bytes -/
def longSign? (b : UInt8) (rest : Bytes) : Option TokenKind :=
  if b = Bytes.minus ∧ rest.head? = some 62 then some .arrow
  else if b = Bytes.point ∧ rest.head? = some Bytes.point then some .dots
  else none

def signPiece (p : Pos) (b : UInt8) (rest : Bytes) : Piece :=
  match longSign? b rest with
  | some kind => piece kind (b :: rest.take 1) .none p (rest.drop 1)
  | none =>
    match TokenKind.ofSign? b with
    | some kind => piece kind [b] .none p rest
    | none => strayPiece p b rest

/-- reads one piece of text that starts with `b` -/
def nextPiece (p : Pos) (b : UInt8) (rest : Bytes) : Piece :=
  if Bytes.isLetter b then wordPiece p b rest
  else if Bytes.isDigit b then numeralPiece p b rest
  else if b = Bytes.quote then stringPiece p b rest
  else signPiece p b rest

/-! ## Progress: every piece takes at least its first byte -/

theorem length_skipBlanks_le (comment : Bool) (p : Pos) (t : Bytes) :
    (skipBlanks comment p t).2.length ≤ t.length := by
  fun_induction skipBlanks comment p t <;> grind

theorem length_dropWhile_le (f : UInt8 → Bool) (t : Bytes) : (t.dropWhile f).length ≤ t.length :=
  (List.dropWhile_suffix f).length_le

theorem length_stringBody_le (p : Pos) (t : Bytes) : (stringBody p t).rest.length ≤ t.length := by
  fun_induction stringBody p t <;> grind

theorem length_fraction_le (t : Bytes) : (fraction t).2.length ≤ t.length := by
  unfold fraction
  split
  · rename_i dot d rest
    split
    · have := length_dropWhile_le Bytes.isDigit rest
      simp only [List.length_cons]
      omega
    · simp
  · simp

theorem length_nextPiece_le (p : Pos) (b : UInt8) (rest : Bytes) : (nextPiece p b rest).rest.length ≤ rest.length := by
  unfold nextPiece
  split
  · exact length_dropWhile_le _ _
  · split
    · exact Nat.le_trans (length_fraction_le _) (length_dropWhile_le _ _)
    · split
      · unfold stringPiece
        have := length_stringBody_le (p.next b) rest
        dsimp only
        split <;> exact this
      · unfold signPiece strayPiece
        repeat' split
        all_goals simp [piece]

/-! ## The whole text -/

/-- the tokens of a text and what is wrong with it -/
structure Scan where
  tokens : List Token
  errors : List Diagnostic

/-- the text from a place on -/
def scanFrom (p : Pos) (t : Bytes) : Scan :=
  match _h : skipBlanks false p t with
  | (q, []) => ⟨[.finish q], []⟩
  | (q, b :: rest) =>
    let one := nextPiece q b rest
    let others := scanFrom one.pos one.rest
    ⟨one.token?.toList ++ others.tokens, one.faults ++ others.errors⟩
termination_by t.length
decreasing_by
  have h₁ := length_skipBlanks_le false p t
  have h₂ := length_nextPiece_le q b rest
  rw [_h] at h₁
  simp only [List.length_cons] at h₁
  omega

/-- the tokens of a text and what is wrong with it -/
def scan (t : Bytes) : Scan := scanFrom .start t

end Token

end Ouroboros
