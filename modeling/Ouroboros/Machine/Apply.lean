/-
Calls.

A call opens a scope inside the one that the function was declared in, so evaluation goes on in a tree that is no part of
the caller's; what decreases there is the room for nested calls: `applyWithin room` carries out calls in which at most
`room` calls are nested, and its body makes calls by `applyWithin (room - 1)`. So every run ends.

A builtin is one of the language's own, or an operation of the host, whose questions the interpreter answers one after the
other.

A failure inside a call gets the place of the call when it has none, and the active calls when it has none recorded.
-/
import Ouroboros.Machine.Eval
import Ouroboros.Machine.Primitives

namespace Ouroboros

/-- a builtin that is an operation of the host -/
def Builtin.ofHost (name : Bytes) (arity : Option Nat) (index : Nat) : Builtin := ⟨name, arity, .host index⟩

/-! ## Operations of the host -/

namespace Eval

/-- binds a name to a builtin in the scope of the builtins -/
def register (b : Builtin) : Eval Unit := do
  define (← Action.asks fun m => m.interpreter.core) b.name (.builtin b)

/-- gives the binding that a scope sees a new value; gives whether there is one -/
def setVisible (scope : ScopeId) (name : Bytes) (v : Value) : Eval Bool := do
  match (← store).owner? scope name with
  | none => return false
  | some owner =>
    define owner name v
    return true

def answer (call : Call) : (r : HostRequest) → Eval r.Answer
  | .call f args => Action.attempt (call f args .unknown)
  | .exec p scope => exec call p scope
  | .execSource name source => execSource call name source
  | .register name arity index => register (.ofHost name arity index)
  | .define scope name v => define scope name v
  | .set scope name v => setVisible scope name v
  | .lookUp scope name => Action.asks fun m => m.world.store.lookup? scope name
  | .core => Action.asks fun m => m.interpreter.core
  | .global => Action.asks fun m => m.interpreter.global
  | .newScope parent => newScope parent
  | .kept => Action.asks fun m => m.world.memory
  | .remember vs => changeWorld fun w => { w with memory := vs }

end Eval

def HostAction.run (call : Call) : HostAction → Eval Value
  | .answer v => return v
  | .fail d => Action.fail d
  | .ask r next => do
    let a ← Eval.answer call r
    (next a).run call

/-- what a builtin does with its arguments -/
def Builtin.run (call : Call) (b : Builtin) (args : List Value) : Eval Value :=
  match b.routine with
  | .primitive p => p.run call args
  | .host index => do
    match ← Action.asks fun m => m.world.hosts[index]? with
    | some operation => (operation args).run call
    | none => return .unit

/-! ## Carrying out calls -/

namespace Eval

inductive Callee where
  | declared (f : Closure)
  | builtin (b : Builtin)

def Callee.of? : Value → Option Callee
  | .function f => some (.declared f)
  | .builtin b => some (.builtin b)
  | _ => none

def Callee.name : Callee → Bytes
  | .declared f => f.sig.name
  | .builtin b => b.name

/-- the number of arguments, unless any number will do -/
def Callee.arity : Callee → Option Nat
  | .declared f => some f.sig.params.length
  | .builtin b => b.arity

def enter (frame : Frame) : Eval Unit := changeInterpreter fun i => { i with frames := frame :: i.frames }

def leave : Eval Unit := changeInterpreter fun i => { i with frames := i.frames.tail }

/-- the failure of a call's body, with the place of the call when it has none, and with the active calls when none are
recorded -/
def annotate (pos : Pos) (frames : List Frame) (d : Diagnostic) : Diagnostic :=
  { d with
    pos := if d.pos.line = 0 then pos else d.pos
    trace := if d.trace = [] then frames.map TraceLine.call else d.trace }

def bindAll (scope : ScopeId) : List Param → List Value → Eval Unit
  | p :: params, v :: args => do
    define scope p.name v
    bindAll scope params args
  | _, _ => return

def body (call : Call) (args : List Value) : Callee → Eval Completion
  | .builtin b => do
    let v ← b.run call args
    return .returned v
  | .declared f => do
    let scope ← newScope f.scope
    bindAll scope f.sig.params args
    stmts call scope f.body .unit

/-- carries out a call in which calls are carried out by `inner`; without one, no further call may be nested -/
def applyWith (inner : Option Call) : Call := fun f args pos => do
  match Callee.of? f with
  | none => Action.failAt pos (.notCallable f.typeName)
  | some callee =>
    match callee.arity with
    | some n => if args.length ≠ n then Action.failAt pos (.arity callee.name n args.length)
    | none => pure ()
    match inner with
    | none => Action.failAt pos (.callDepth (← Action.asks fun m => m.interpreter.limit))
    | some call =>
      enter ⟨callee.name, pos⟩
      trace callee.name .bodyExecuting
      match ← Action.attempt (body call args callee) with
      | .error d =>
        let frames ← Action.asks fun m => m.interpreter.frames
        leave
        Action.fail (annotate pos frames d)
      | .ok (.returned v) =>
        leave
        trace callee.name .returnSignal
        trace callee.name .completed
        return v
      | .ok (.normal _) =>
        leave
        trace callee.name .normalEnd
        trace callee.name .completed
        return .unit

/-- carries out calls in which at most `room` calls are nested, the call itself included -/
def applyWithin : Nat → Call
  | 0 => applyWith none
  | room + 1 => applyWith (some (applyWithin room))

/-- the number of calls that can be nested in the active ones -/
def room (i : Interpreter) : Nat := (i.limit - i.frames.length).toNat

def apply : Call := fun f args pos => do
  let n ← Action.asks fun m => room m.interpreter
  applyWithin n f args pos

end Eval

end Ouroboros
