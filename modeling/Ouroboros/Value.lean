/-
Values of running programs, and how they are named, printed and tested.

A function keeps the scope it was declared in by its number, so that values stay finite while functions and scopes
refer to each other. A builtin is a name, the number of arguments it takes, and what it does: one of the language's own
operations, or one that a host registered.
-/
import Ouroboros.Program
import Ouroboros.Text.Quoted

namespace Ouroboros

abbrev ScopeId := Nat

/-- a function declared in a program, with the scope that its body sees -/
structure Closure where
  sig : Signature
  body : List Stmt
  scope : ScopeId

/-- the operations of the language itself -/
inductive Primitive where
  | print
  | len
  | stringLength
  | toString
  | stringConcat
  | typeOf
  | isAsync
  | isGpu
  | getInput
  | spawn
  | sleep
  | setTimeout
  | clock
  | graphicsInit
  | createWindow
  | clear
  | swapBuffers
  | graphicsShutdown
  | registerEvent
  | triggerEvent
  | httpGet
deriving DecidableEq, Repr

inductive Routine where
  | primitive (p : Primitive)
  /-- the host's operation with this number -/
  | host (index : Nat)
deriving DecidableEq, Repr

/-- a function that is not declared in a program -/
structure Builtin where
  name : Bytes
  /-- the number of arguments, unless any number will do -/
  arity : Option Nat
  routine : Routine
deriving DecidableEq, Repr

inductive Value where
  | unit
  | number (n : Number)
  | string (t : Bytes)
  | bool (b : Bool)
  | function (f : Closure)
  | builtin (b : Builtin)
  /-- the integers from `low` up to, not including, `high` -/
  | range (low high : Int)
  /-- a value of a sort that no program produces -/
  | unknown (sort : Int)

namespace Value

/-- the names of the sorts of values, in the order of their codes -/
def sortNames : List Bytes :=
  [text "unit", text "number", text "string", text "bool", text "function", text "builtin", text "range"]

/-- the name of the sort with a code -/
def sortName (code : Int) : Bytes :=
  let other := text "ValueTag(" ++ Bytes.ofInt code ++ text ")"
  if code < 0 then other else sortNames.getD code.toNat other

/-- the code of a value's sort -/
def sort : Value → Int
  | .unit => 0
  | .number _ => 1
  | .string _ => 2
  | .bool _ => 3
  | .function _ => 4
  | .builtin _ => 5
  | .range .. => 6
  | .unknown n => n

/-- the type of a value as programs see it -/
def typeName : Value → Bytes
  | .number n => if n.isInt then text "int" else text "float"
  | .function _ | .builtin _ => text "function"
  | v => sortName v.sort

/-- whether a value counts as true: all do but unit, false, zero and the empty string -/
def isTrue : Value → Bool
  | .unit => false
  | .bool b => b
  | .number n => !n.isZero
  | .string t => !t.isEmpty
  | _ => true

/-- the value as programs print it -/
def shown : Value → Bytes
  | .unit => text "()"
  | .number n => n.text
  | .string t => t
  | .bool b => if b then text "true" else text "false"
  | .function f => text "<fn " ++ f.sig.name ++ text ">"
  | .builtin b => text "<builtin " ++ b.name ++ text ">"
  | .range low high => Bytes.ofInt low ++ text ".." ++ Bytes.ofInt high
  | .unknown _ => text "<unknown>"

/-- the value as it is echoed: strings are written as literals -/
def echoed : Value → Bytes
  | .string t => Text.literal t
  | v => v.shown

/-- the value as messages describe it: its type, and for numbers and strings what it is -/
def described : Value → Bytes
  | .number n => typeName (.number n) ++ text " " ++ n.text
  | .string t => text "string " ++ Text.literal t
  | v => v.typeName

/-- the name of a function, and the type of any other value -/
def callName : Value → Bytes
  | .function f => f.sig.name
  | .builtin b => b.name
  | v => v.typeName

def isFunction : Value → Bool
  | .function _ | .builtin _ => true
  | _ => false

end Value

end Ouroboros
