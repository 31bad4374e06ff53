/-
The state in which programs run: an interpreter, and the world it shares with the interpreters of spawned work.

An interpreter has its two outermost scopes, the active calls, the event handlers and a limit on nested calls. The
world has all scopes, the input, the clock, the outside services, what the host keeps, and the record of everything that
was done to the outside. Work that was spawned and has not run yet waits in the world.

A table is copied for spawned work in any order. The world has these orders, one for each path of spawns, so nothing is
known of them but that each is some order.
-/
import Ouroboros.Action
import Ouroboros.Machine.Host
import Ouroboros.Scope

namespace Ouroboros

/-- a line of the debug log: a message and named texts -/
structure LogEntry where
  message : Bytes
  fields : List (Bytes × Bytes)
deriving DecidableEq, Repr

/-- what a program asks of a graphics backend -/
inductive GraphicsCall where
  | init (api : Bytes)
  | window (width height : Int) (title : Bytes)
  | clear (red green blue alpha : Float)
  | swap
  | shutdown
deriving DecidableEq

/-- a service outside: what it answers may depend on what it was asked before, the latest first -/
structure Service (Q A : Type) where
  past : List Q
  respond : List Q → Q → A

/-- a question to a service: the answer, and the service that has been asked -/
def Service.ask {Q A : Type} (s : Service Q A) (q : Q) : A × Service Q A :=
  (s.respond s.past q, { s with past := q :: s.past })

/-- why a graphics backend refuses a call: a reason, or a diagnostic of its own -/
inductive Refusal where
  | reason (t : Bytes)
  | diagnostic (d : Diagnostic)

/-- a graphics backend: whether it refuses a call -/
abbrev GraphicsBackend := Service GraphicsCall (Option Refusal)

/-- the web: the status and the body for an address, or the reason why there is no answer -/
abbrev Web := Service Bytes (Except Bytes (Nat × Bytes))

/-- something done to the outside -/
inductive Effect where
  | out (t : Bytes)
  | err (t : Bytes)
  | log (entry : LogEntry)
  | draw (call : GraphicsCall)
  | sleep (nanoseconds : Int)
deriving DecidableEq

/-- input still to be read, and the reason for which reading fails behind it, if it does not just end -/
structure Input where
  rest : Bytes
  failure : Option Bytes
deriving DecidableEq, Repr

/-- an output that fails after some more writes -/
structure Sink where
  left : Nat
  reason : Bytes
deriving DecidableEq, Repr

/-- the order in which a table is copied: where each binding goes among those behind it, by the number of scopes that
were copied before and of the bindings behind -/
abbrev CopyOrder := Nat → Nat → Nat

/-- a spawn, by the spawns that the interpreter made before it, and those that led to the interpreter -/
abbrev SpawnPath := List Bool

structure Interpreter where
  /-- the scope of the builtins -/
  core : ScopeId
  /-- the scope in which programs run -/
  global : ScopeId
  /-- the greatest number of nested calls -/
  limit : Int
  /-- the active calls, innermost first -/
  frames : List Frame
  /-- the handlers of events, in the order of their registration -/
  handlers : List (Bytes × List Value)
  /-- the next spawn -/
  path : SpawnPath

/-- spawned work: a function without parameters, and the interpreter that will call it -/
structure Job where
  interpreter : Interpreter
  work : Value
  name : Bytes

/-- what interpreters share -/
structure World where
  store : Store
  input : Input
  /-- how standard output fails, if it does -/
  sink : Option Sink
  /-- nanoseconds since the epoch -/
  clock : Int
  /-- whether the debug log is kept -/
  logging : Bool
  graphics : Option GraphicsBackend
  web : Web
  /-- the host's operations -/
  hosts : Array HostOperation
  /-- the values that the host keeps -/
  memory : List Value
  /-- the orders in which tables are copied -/
  orders : SpawnPath → CopyOrder
  /-- spawned work that has not run yet, in the order of spawning -/
  jobs : List Job
  /-- whether no more work is taken -/
  closed : Bool
  /-- what was done to the outside, in order -/
  record : Array Effect

/-- an interpreter in the world -/
structure Machine where
  interpreter : Interpreter
  world : World

/-- a step of a running program -/
abbrev Eval := Action Machine

/-- how a call is carried out: the function, its arguments, and the place of the call -/
abbrev Call := Value → List Value → Pos → Eval Value

namespace World

/-- a world in which nothing has happened -/
def fresh : World where
  store := .empty
  input := ⟨[], none⟩
  sink := none
  clock := 0
  logging := false
  graphics := none
  web := ⟨[], fun _ _ => .error (text "no such host")⟩
  hosts := #[]
  memory := []
  orders _ _ _ := 0
  jobs := []
  closed := false
  record := #[]

end World

namespace Eval

/-- fails with a fault whose place is not known yet -/
def raise {α : Type} (fault : Fault) : Eval α := Action.failAt .unknown fault

@[inline]
def changeWorld (f : World → World) : Eval Unit := Action.change fun m => { m with world := f m.world }

@[inline]
def changeInterpreter (f : Interpreter → Interpreter) : Eval Unit :=
  Action.change fun m => { m with interpreter := f m.interpreter }

@[inline]
def changeStore (f : Store → Store) : Eval Unit :=
  changeWorld fun w => { w with store := f w.store }

/-- records something done to the outside -/
def perform (e : Effect) : Eval Unit := changeWorld fun w => { w with record := w.record.push e }

/-- writes a line of the debug log, if one is kept; `entry` sees the machine -/
def log (entry : Machine → LogEntry) : Eval Unit := Action.change fun m =>
  if m.world.logging then { m with world := { m.world with record := m.world.record.push (.log (entry m)) } } else m

def newScope (parent : ScopeId) : Eval ScopeId := Action.exchange fun m =>
  let (id, store) := m.world.store.push (some parent)
  (id, { m with world := { m.world with store } })

def define (scope : ScopeId) (name : Bytes) (v : Value) : Eval Unit := changeStore fun s => s.define scope name v

def store : Eval Store := Action.asks fun m => m.world.store

end Eval

end Ouroboros
