/-
Tokens of source text: their kinds, the words and signs that stand for a kind, and how messages name them.

A token keeps the bytes it was read from, the payload of a literal, and its position. Positions count lines and bytes
from 1; line 0 means that a position is not known.
-/
import Ouroboros.Text.Quoted

namespace Ouroboros

/-- a place in source text: line and column, both counted from 1 -/
structure Pos where
  line : Int
  col : Int
deriving DecidableEq, Repr

namespace Pos

def unknown : Pos := ⟨0, 0⟩

/-- the place as messages write it -/
def text (p : Pos) : Bytes := Bytes.ofInt p.line ++ Ouroboros.text ":" ++ Bytes.ofInt p.col

/-- earlier in the text: on a line before, or before it in the same line -/
def before (p q : Pos) : Bool := p.line < q.line || (p.line == q.line && p.col < q.col)

end Pos

inductive TokenKind where
  | endOfInput
  | letWord
  | fnWord
  | ifWord
  | elseWord
  | returnWord
  | forWord
  | inWord
  | asyncWord
  | awaitWord
  | gpuWord
  | intType
  | floatType
  | stringType
  | identifier
  | number
  | stringLiteral
  | colon
  | equals
  | leftParen
  | rightParen
  | leftBrace
  | rightBrace
  | semicolon
  | comma
  | arrow
  | dots
  | plus
  | minus
  | star
  | slash
  | greater
  /-- a kind that no text produces -/
  | unknown (code : Int)
deriving DecidableEq, Repr

namespace TokenKind

/-- the kinds that text produces, in the order of their codes -/
def listed : List TokenKind :=
  [.endOfInput, .letWord, .fnWord, .ifWord, .elseWord, .returnWord, .forWord, .inWord, .asyncWord, .awaitWord,
   .gpuWord, .intType, .floatType, .stringType, .identifier, .number, .stringLiteral, .colon, .equals, .leftParen,
   .rightParen, .leftBrace, .rightBrace, .semicolon, .comma, .arrow, .dots, .plus, .minus, .star, .slash, .greater]

def ofCode : Int → TokenKind
  | .ofNat n => listed.getD n (.unknown n)
  | .negSucc n => .unknown (.negSucc n)

def code : TokenKind → Int
  | .unknown n => n
  | k => listed.idxOf k

/-- the words of the language that cannot be names, with their kinds -/
def keywords : List (Bytes × TokenKind) :=
  [(Ouroboros.text "let", .letWord), (Ouroboros.text "fn", .fnWord), (Ouroboros.text "if", .ifWord),
   (Ouroboros.text "else", .elseWord), (Ouroboros.text "return", .returnWord), (Ouroboros.text "for", .forWord),
   (Ouroboros.text "in", .inWord), (Ouroboros.text "async", .asyncWord), (Ouroboros.text "await", .awaitWord),
   (Ouroboros.text "gpu", .gpuWord), (Ouroboros.text "int", .intType), (Ouroboros.text "float", .floatType),
   (Ouroboros.text "string", .stringType)]

/-- the kind of a word: that of a keyword, or a name -/
def ofWord (word : Bytes) : TokenKind := (keywords.lookup word).getD .identifier

/-- the kind of a sign of one byte -/
def ofSign? (b : UInt8) : Option TokenKind :=
  if b = 58 then some .colon
  else if b = 61 then some .equals
  else if b = 40 then some .leftParen
  else if b = 41 then some .rightParen
  else if b = 123 then some .leftBrace
  else if b = 125 then some .rightBrace
  else if b = 59 then some .semicolon
  else if b = 44 then some .comma
  else if b = 43 then some .plus
  else if b = 45 then some .minus
  else if b = 42 then some .star
  else if b = 47 then some .slash
  else if b = 62 then some .greater
  else none

/-- the kind as messages name it -/
def name : TokenKind → Bytes
  | .endOfInput => text "end of input"
  | .letWord => text "'let'"
  | .fnWord => text "'fn'"
  | .ifWord => text "'if'"
  | .elseWord => text "'else'"
  | .returnWord => text "'return'"
  | .forWord => text "'for'"
  | .inWord => text "'in'"
  | .asyncWord => text "'async'"
  | .awaitWord => text "'await'"
  | .gpuWord => text "'gpu'"
  | .intType => text "'int'"
  | .floatType => text "'float'"
  | .stringType => text "'string'"
  | .identifier => text "identifier"
  | .number => text "number"
  | .stringLiteral => text "string literal"
  | .colon => text "':'"
  | .equals => text "'='"
  | .leftParen => text "'('"
  | .rightParen => text "')'"
  | .leftBrace => text "'\x7b'"
  | .rightBrace => text "'\x7d'"
  | .semicolon => text "';'"
  | .comma => text "','"
  | .arrow => text "'->'"
  | .dots => text "'..'"
  | .plus => text "'+'"
  | .minus => text "'-'"
  | .star => text "'*'"
  | .slash => text "'/'"
  | .greater => text "'>'"
  | .unknown n => text "TokenType(" ++ Bytes.ofInt n ++ text ")"

/-- whether the kind is a word that names a type -/
def isTypeWord : TokenKind → Bool
  | .intType | .floatType | .stringType => true
  | _ => false

/-- whether an expression can start with a token of this kind -/
def startsExpression : TokenKind → Bool
  | .number | .stringLiteral | .identifier | .leftParen | .awaitWord => true
  | _ => false

end TokenKind

/-- what a token stands for beside its kind -/
inductive Literal where
  | none
  /-- the value of a numeral -/
  | number (value : Float)
  /-- the name of an identifier, or the text of a string literal without quotes and escapes -/
  | text (t : Bytes)
deriving DecidableEq

structure Token where
  kind : TokenKind
  /-- the bytes it was read from -/
  lexeme : Bytes
  literal : Literal
  pos : Pos
deriving DecidableEq

namespace Token

def finish (pos : Pos) : Token := ⟨.endOfInput, [], .none, pos⟩

/-- the token as messages about the text name it -/
def described (t : Token) : Bytes :=
  match t.kind with
  | .identifier | .number => t.kind.name ++ text " '" ++ t.lexeme ++ text "'"
  | .stringLiteral => text "string " ++ t.lexeme
  | kind => kind.name

/-- the token with all that identifies it -/
def text (t : Token) : Bytes :=
  match t.kind with
  | .endOfInput => Ouroboros.text "EOF"
  | kind => kind.name ++ Ouroboros.text "(" ++ Text.quoted t.lexeme ++ Ouroboros.text ") at " ++ t.pos.text

end Token

end Ouroboros
