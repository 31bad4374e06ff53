/-
What a token says apart from its place.

`Spelled` lists, kind by kind, the texts and payloads that tokens can have: words and signs have one text each, names
and numerals carry their text, and a string literal has a payload that may be written in several ways. `Token.plain`
forgets the place of a token and writes a string literal in its canonical form, so two tokens have the same plain form
when they differ only in place and in the way a string is written.
-/
import Ouroboros.Proofs.Grammar
import Ouroboros.Text.Quoted

namespace Ouroboros

namespace TokenKind

/-- the text of a word or sign; names, literals and the end of input have no fixed one -/
def spelling? : TokenKind → Option Bytes
  | .letWord => some (text "let")
  | .fnWord => some (text "fn")
  | .ifWord => some (text "if")
  | .elseWord => some (text "else")
  | .returnWord => some (text "return")
  | .forWord => some (text "for")
  | .inWord => some (text "in")
  | .asyncWord => some (text "async")
  | .awaitWord => some (text "await")
  | .gpuWord => some (text "gpu")
  | .intType => some (text "int")
  | .floatType => some (text "float")
  | .stringType => some (text "string")
  | .colon => some (text ":")
  | .equals => some (text "=")
  | .leftParen => some (text "(")
  | .rightParen => some (text ")")
  | .leftBrace => some (text "\x7b")
  | .rightBrace => some (text "\x7d")
  | .semicolon => some (text ";")
  | .comma => some (text ",")
  | .arrow => some (text "->")
  | .dots => some (text "..")
  | .plus => some (text "+")
  | .minus => some (text "-")
  | .star => some (text "*")
  | .slash => some (text "/")
  | .greater => some (text ">")
  | .endOfInput | .identifier | .number | .stringLiteral | .unknown _ => none

/-- a word or sign as a token at no place -/
def token (k : TokenKind) : Token := ⟨k, k.spelling?.getD [], .none, .unknown⟩

end TokenKind

/-- the texts and payloads of tokens of a kind -/
inductive Spelled : TokenKind → Bytes → Literal → Prop where
  | fixed {k : TokenKind} {w : Bytes} (h : k.spelling? = some w) : Spelled k w .none
  | name {b : UInt8} {w : Bytes} (hb : Bytes.isLetter b = true) (hw : ∀ x ∈ w, Bytes.isNameByte x = true)
    (hk : TokenKind.ofWord (b :: w) = .identifier) : Spelled .identifier (b :: w) (.text (b :: w))
  | whole {b : UInt8} {w : Bytes} (hb : Bytes.isDigit b = true) (hw : ∀ x ∈ w, Bytes.isDigit x = true) :
    Spelled .number (b :: w) (.number (readNumeral (b :: w)))
  | decimal {b d : UInt8} {w v : Bytes} (hb : Bytes.isDigit b = true) (hw : ∀ x ∈ w, Bytes.isDigit x = true)
    (hd : Bytes.isDigit d = true) (hv : ∀ x ∈ v, Bytes.isDigit x = true) :
    Spelled .number (b :: (w ++ Bytes.point :: d :: v)) (.number (readNumeral (b :: (w ++ Bytes.point :: d :: v))))
  | string {w s : Bytes} : Spelled .stringLiteral w (.text s)

namespace Token

/-- the token has a text and a payload of its kind -/
def IsSpelled (t : Token) : Prop := Spelled t.kind t.lexeme t.literal

theorem IsSpelled.ne_end {t : Token} (h : t.IsSpelled) : t.kind ≠ .endOfInput := by
  obtain ⟨k, lexeme, literal, pos⟩ := t
  simp only [IsSpelled] at h
  cases h with
  | fixed h =>
    rintro rfl
    cases h
  | name | whole | decimal | string => simp

/-- the token at no place, a string literal in its canonical form -/
def plain (t : Token) : Token :=
  ⟨t.kind, if t.kind = .stringLiteral then Text.literal t.payload else t.lexeme, t.literal, .unknown⟩

/-- the plain form of a word or sign depends on its kind only -/
theorem plain_of_fixed {t : Token} (h : t.IsSpelled) {w : Bytes} (hw : t.kind.spelling? = some w) :
    t.plain = t.kind.token := by
  obtain ⟨k, lexeme, literal, pos⟩ := t
  simp only [IsSpelled] at h hw
  cases h with
  | fixed h =>
    have hk : k ≠ .stringLiteral := by
      rintro rfl
      exact absurd hw (by simp [TokenKind.spelling?])
    simp [plain, TokenKind.token, hk, h]
  | name | whole | decimal | string => exact absurd hw (by simp [TokenKind.spelling?])

/-- a name is its own payload -/
theorem literal_of_identifier {t : Token} (h : t.IsSpelled) (hk : t.kind = .identifier) :
    t.literal = .text t.lexeme := by
  obtain ⟨k, lexeme, literal, pos⟩ := t
  simp only [IsSpelled] at h hk ⊢
  subst hk
  cases h with
  | fixed h => exact absurd h (by simp [TokenKind.spelling?])
  | name => rfl

/-- the payload of a numeral is its value -/
theorem literal_of_number {t : Token} (h : t.IsSpelled) (hk : t.kind = .number) :
    t.literal = .number t.value := by
  obtain ⟨k, lexeme, literal, pos⟩ := t
  simp only [IsSpelled] at h hk
  subst hk
  cases h with
  | fixed h => exact absurd h (by simp [TokenKind.spelling?])
  | whole | decimal => rfl

/-- the payload of a string literal is its text -/
theorem literal_of_string {t : Token} (h : t.IsSpelled) (hk : t.kind = .stringLiteral) :
    t.literal = .text t.payload := by
  obtain ⟨k, lexeme, literal, pos⟩ := t
  simp only [IsSpelled] at h hk
  subst hk
  cases h with
  | fixed h => exact absurd h (by simp [TokenKind.spelling?])
  | string => rfl

end Token

end Ouroboros
