/-
What a host adds to the language: operations of its own, written in the host's language and called like builtins.

Such an operation is given its arguments and the interpreter that calls it. It does what it likes with the values that it
has, and asks the interpreter for the rest: to call a function, to run a program, to register, define, set or look up a
name, for a scope of its own. What it does next may depend on the answers, failures included. Between its calls it can
keep values. So an operation is a tree of questions with a value or a failure at its leaves.
-/
import Ouroboros.Diagnostic
import Ouroboros.Value

namespace Ouroboros

/-- what an operation of a session gives: a value, or what is wrong -/
abbrev Outcome := Except (List Diagnostic) Value

/-- what a host's operation asks of the interpreter that calls it -/
inductive HostRequest where
  | call (f : Value) (args : List Value)
  /-- runs a program in a scope, or in the global one when none is given -/
  | exec (p : Program) (scope : Option ScopeId)
  | execSource (name source : Bytes)
  /-- registers the host's operation with a number under a name -/
  | register (name : Bytes) (arity : Option Nat) (index : Nat)
  | define (scope : ScopeId) (name : Bytes) (v : Value)
  /-- gives the binding that a scope sees a new value -/
  | set (scope : ScopeId) (name : Bytes) (v : Value)
  | lookUp (scope : ScopeId) (name : Bytes)
  /-- the scope of the builtins -/
  | core
  | global
  | newScope (parent : ScopeId)
  /-- the values that the host keeps -/
  | kept
  | remember (vs : List Value)

/-- what the interpreter answers -/
def HostRequest.Answer : HostRequest → Type
  | .call .. => Except Diagnostic Value
  | .exec .. | .execSource .. => Outcome
  | .set .. => Bool
  | .lookUp .. => Option Value
  | .core | .global | .newScope _ => ScopeId
  | .kept => List Value
  | .register .. | .define .. | .remember _ => Unit

/-- what a host's operation does: it ends with a value or fails, or asks something and goes on with the answer -/
inductive HostAction where
  | answer (v : Value)
  | fail (d : Diagnostic)
  | ask (r : HostRequest) (next : r.Answer → HostAction)

/-- a host's operation, for all arguments -/
abbrev HostOperation := List Value → HostAction

end Ouroboros
