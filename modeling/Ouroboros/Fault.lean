/-
Faults: everything that can go wrong while text is read or a program runs, as causes with their data.

`Fault.kind` sorts the causes into the categories that users see, `ErrorKind.phase` says which stage a category belongs
to, and `Fault.message` is the only place where a cause is put into words. A host that extends the language may report
a category and a message of its own.
-/
import Ouroboros.Token
import Ouroboros.Number

namespace Ouroboros

/-- the stage that finds a fault -/
inductive Phase where
  | lexing
  | parsing
  | running
deriving DecidableEq, Repr

namespace Phase

def name : Phase → Bytes
  | .lexing => text "lex"
  | .parsing => text "parse"
  | .running => text "runtime"

end Phase

inductive ErrorKind where
  | unexpectedCharacter
  | unterminatedString
  | unexpectedToken
  | expectedExpression
  | expectedStatement
  | undefinedVariable
  | typeError
  | notCallable
  | notIterable
  | arityMismatch
  | divisionByZero
  | unsupported
  | stackOverflow
  | ioError
  /-- a category that only a host reports -/
  | unknown (code : Int)
deriving DecidableEq, Repr

namespace ErrorKind

/-- the categories of the language itself, in the order of their codes -/
def listed : List ErrorKind :=
  [.unexpectedCharacter, .unterminatedString, .unexpectedToken, .expectedExpression, .expectedStatement,
   .undefinedVariable, .typeError, .notCallable, .notIterable, .arityMismatch, .divisionByZero, .unsupported,
   .stackOverflow, .ioError]

def ofCode : Int → ErrorKind
  | .ofNat n => listed.getD n (.unknown n)
  | .negSucc n => .unknown (.negSucc n)

def name : ErrorKind → Bytes
  | .unexpectedCharacter => text "UnexpectedCharacter"
  | .unterminatedString => text "UnterminatedString"
  | .unexpectedToken => text "UnexpectedToken"
  | .expectedExpression => text "ExpectedExpression"
  | .expectedStatement => text "ExpectedStatement"
  | .undefinedVariable => text "UndefinedVariable"
  | .typeError => text "TypeError"
  | .notCallable => text "NotCallable"
  | .notIterable => text "NotIterable"
  | .arityMismatch => text "ArityMismatch"
  | .divisionByZero => text "DivisionByZero"
  | .unsupported => text "Unsupported"
  | .stackOverflow => text "StackOverflow"
  | .ioError => text "IOError"
  | .unknown n => text "ErrorKind(" ++ Bytes.ofInt n ++ text ")"

/-- the stage that finds faults of the category; unknown categories below all others count as lexical, unknown
categories above them as found at run time -/
def phase : ErrorKind → Phase
  | .unexpectedCharacter | .unterminatedString => .lexing
  | .unexpectedToken | .expectedExpression | .expectedStatement => .parsing
  | .unknown n => if n < 0 then .lexing else .running
  | _ => .running

end ErrorKind

inductive BinaryOp where
  | add
  | sub
  | mul
  | div
  | greater
  /-- an operator that no text produces -/
  | unknown
deriving DecidableEq, Repr

namespace BinaryOp

/-- the operator as source text writes it -/
def sign : BinaryOp → Bytes
  | .add => text "+"
  | .sub => text "-"
  | .mul => text "*"
  | .div => text "/"
  | .greater => text ">"
  | .unknown => text "?"

end BinaryOp

inductive Fault where
  /-- a character that starts no token -/
  | strayCharacter (c : Char) (line : Int)
  /-- a backslash before a byte that makes no escape -/
  | badEscape (b : UInt8) (line : Int)
  /-- the text ends inside a string literal -/
  | openString
  /-- a line ends inside a string literal -/
  | newlineInString
  /-- another token stands where one of this kind is needed -/
  | expectedToken (kind : TokenKind) (found : Token)
  /-- another token stands where a type is needed -/
  | expectedType (found : Token)
  /-- no statement starts with this token -/
  | expectedStatement (found : Token)
  /-- no expression starts with this token -/
  | expectedExpression (found : Token)
  /-- a name that nothing binds -/
  | undefinedVariable (name : Bytes)
  /-- an assignment to a name that nothing binds -/
  | undefinedTarget (name : Bytes)
  /-- an assignment to a builtin -/
  | builtinTarget (name : Bytes)
  /-- operands that the operator does not take, by their types -/
  | operandTypes (op : BinaryOp) (left right : Bytes)
  /-- bounds of a range that are no integers, as described -/
  | rangeBounds (low high : Bytes)
  /-- a range whose start is greater than its end -/
  | rangeOrder (low high : Number)
  /-- a range bound that is no 64-bit integer -/
  | rangeSize (low high : Number)
  /-- an argument that a builtin does not take -/
  | badArgument (function wanted got : Bytes)
  /-- an argument of a builtin that is no function -/
  | badCallback (function wanted got : Bytes)
  /-- an argument that is no 64-bit integer -/
  | argumentSize (function : Bytes) (n : Number)
  /-- a call of something that is no function -/
  | notCallable (type : Bytes)
  /-- a loop over something that is no range -/
  | notIterable (type : Bytes)
  /-- a call with the wrong number of arguments -/
  | arity (function : Bytes) (wanted got : Nat)
  /-- a function with parameters handed to `spawn` -/
  | spawnArity (params : Nat)
  | divisionByZero
  /-- a return with no call to return from -/
  | returnOutside
  /-- a graphics builtin without a backend -/
  | noGraphics (function : Bytes)
  /-- a `spawn` after the session was closed -/
  | spawnClosed
  /-- more nested calls than the limit -/
  | callDepth (limit : Int)
  /-- the outside world failed an operation -/
  | outside (operation reason : Bytes)
  /-- a host's own report -/
  | reported (kind : ErrorKind) (message : Bytes)
deriving DecidableEq

namespace Fault

def kind : Fault → ErrorKind
  | .strayCharacter .. | .badEscape .. => .unexpectedCharacter
  | .openString | .newlineInString => .unterminatedString
  | .expectedToken .. | .expectedType .. => .unexpectedToken
  | .expectedStatement .. => .expectedStatement
  | .expectedExpression .. => .expectedExpression
  | .undefinedVariable .. | .undefinedTarget .. => .undefinedVariable
  | .builtinTarget .. | .operandTypes .. | .rangeBounds .. | .rangeOrder .. | .rangeSize .. | .badArgument ..
  | .argumentSize .. => .typeError
  | .badCallback .. | .notCallable .. => .notCallable
  | .notIterable .. => .notIterable
  | .arity .. | .spawnArity .. => .arityMismatch
  | .divisionByZero => .divisionByZero
  | .returnOutside | .noGraphics .. | .spawnClosed => .unsupported
  | .callDepth .. => .stackOverflow
  | .outside .. => .ioError
  | .reported kind _ => kind

/-- the letter that makes a noun plural -/
def plural (n : Nat) : Bytes := if n = 1 then [] else text "s"

def message : Fault → Bytes
  | .strayCharacter c line =>
    text "unexpected character " ++ Text.quotedChar c ++ text " on line " ++ Bytes.ofInt line
  | .badEscape b line =>
    text "invalid escape sequence \\" ++ Text.encode (Char.ofNat b.toNat) ++ text " on line " ++ Bytes.ofInt line
  | .openString => text "unterminated string"
  | .newlineInString => text "unterminated string (newline in string literal)"
  | .expectedToken kind found =>
    text "unexpected token: expected " ++ kind.name ++ text ", got " ++ found.described
  | .expectedType found => text "unexpected token: expected type name, got " ++ found.described
  | .expectedStatement found => text "expected statement, got " ++ found.described
  | .expectedExpression found => text "expected expression, got " ++ found.described
  | .undefinedVariable name => text "undefined variable: " ++ name
  | .undefinedTarget name => text "cannot assign to undefined variable: " ++ name
  | .builtinTarget name => text "cannot assign to builtin: " ++ name
  | .operandTypes op left right =>
    text "unsupported operand types for " ++ op.sign ++ text ": " ++ left ++ text " and " ++ right
  | .rangeBounds low high => text "range bounds must be integers, got " ++ low ++ text " and " ++ high
  | .rangeOrder low high =>
    text "range start " ++ low.text ++ text " is greater than end " ++ high.text
  | .rangeSize low high =>
    text "range bounds out of 64-bit integer range: " ++ low.text ++ text ".." ++ high.text
  | .badArgument function wanted got | .badCallback function wanted got =>
    function ++ text " expects " ++ wanted ++ text ", got " ++ got
  | .argumentSize function n => function ++ text ": " ++ n.text ++ text " is out of 64-bit integer range"
  | .notCallable type => text "value of type " ++ type ++ text " is not callable"
  | .notIterable type => text "value of type " ++ type ++ text " is not iterable"
  | .arity function wanted got =>
    function ++ text " expects " ++ Bytes.ofNat wanted ++ text " argument" ++ plural wanted ++ text ", got " ++
      Bytes.ofNat got
  | .spawnArity params => text "spawn expects a function of 0 arguments, got " ++ Bytes.ofNat params
  | .divisionByZero => text "division by zero"
  | .returnOutside => text "return outside of a function"
  | .noGraphics function => function ++ text ": no graphics backend linked"
  | .spawnClosed => text "spawn: interpreter is closed"
  | .callDepth limit => text "maximum call depth " ++ Bytes.ofInt limit ++ text " exceeded"
  | .outside operation reason => operation ++ text ": " ++ reason
  | .reported _ message => message

end Fault

end Ouroboros
