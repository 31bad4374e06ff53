/-
What the language's own builtins do.

Arguments are checked here by type and value; their number is checked by the caller. A builtin fails with a fault whose
place is not known; whoever called it adds the place. Builtins that call functions do it through `call`, and such a
call has no place in the source.
-/
import Ouroboros.Machine.Outside
import Ouroboros.Machine.Snapshot

namespace Ouroboros

namespace Primitive

open Eval

def refuse {α : Type} (p : Primitive) (wanted : String) (got : Bytes) : Eval α :=
  raise (.badArgument p.name (text wanted) got)

def stringArg (p : Primitive) (wanted : String) : Value → Eval Bytes
  | .string t => return t
  | v => p.refuse wanted v.typeName

def numberArg (p : Primitive) (wanted : String) : Value → Eval Number
  | .number n => return n
  | v => p.refuse wanted v.typeName

def intArg (p : Primitive) (v : Value) : Eval Int :=
  match v with
  | .number n =>
    match Decimal.integer? n.value, Decimal.int64? n.value with
    | some _, some i => return i
    | some _, none => raise (.argumentSize p.name n)
    | none, _ => p.refuse "an integer" v.described
  | v => p.refuse "an integer" v.described

def functionArg (p : Primitive) (wanted : String) (v : Value) : Eval Unit :=
  if v.isFunction then return else raise (.badCallback p.name (text wanted) v.typeName)

def second : Float := 1e9

/-- a time as the clock shows it: its nanoseconds are counted in 64 bits with a sign, and start over when they run out -/
def clockReading (nanoseconds : Int) : Int := nanoseconds.bmod 18446744073709551616

/-- an argument that is a number of seconds, in whole nanoseconds -/
def secondsArg (p : Primitive) (v : Value) : Eval Int := do
  let n ← p.numberArg "a number of seconds" v
  if n.value < 0.0 || !n.value.isFinite then p.refuse "a non-negative finite duration" n.text
  else return Decimal.truncate (n.value * second)

/-- a mark of a declared function; builtins have none -/
def markArg (p : Primitive) (mark : Signature → Bool) : Value → Eval Value
  | .function f => return .bool (mark f.sig)
  | .builtin _ => return .bool false
  | v => p.refuse "a function" v.typeName

/-- the handlers registered for an event, in order -/
def handlersOf (i : Interpreter) (event : Bytes) : List Value := (i.handlers.lookup event).getD []

/-- the handlers with one more for an event, behind the others -/
def addHandler (event : Bytes) (h : Value) : List (Bytes × List Value) → List (Bytes × List Value)
  | [] => [(event, [h])]
  | (other, hs) :: rest => if other = event then (other, hs ++ [h]) :: rest else (other, hs) :: addHandler event h rest

/-- calls handlers one after the other, up to the first that fails -/
def callAll (call : Call) : List Value → Eval Unit
  | [] => return
  | h :: rest => do
    let _ ← call h [] .unknown
    callAll call rest

def drawing (p : Primitive) (args : Eval GraphicsCall) : Eval Value := do
  needGraphics p.name
  draw p.name (← args)
  return .unit

/-- what a builtin does with its arguments; an argument list of another length than the builtin's gives unit -/
def run (call : Call) (p : Primitive) (args : List Value) : Eval Value :=
  match p, args with
  | .print, args => do
    writeOut p.name (Bytes.join (text " ") (args.map Value.shown) ++ text "\n")
    return .unit
  | .len, [v] | .stringLength, [v] => do
    let t ← p.stringArg "a string" v
    return .number (Number.ofInt t.length)
  | .toString, [v] => return .string v.shown
  | .stringConcat, [.string a, .string b] => return .string (a ++ b)
  | .stringConcat, [a, b] => p.refuse "two strings" (a.typeName ++ text " and " ++ b.typeName)
  | .typeOf, [v] => return .string v.typeName
  | .isAsync, [v] => p.markArg Signature.isAsync v
  | .isGpu, [v] => p.markArg Signature.isGpu v
  | .getInput, [v] => do
    let prompt ← p.stringArg "a string prompt" v
    if prompt ≠ [] then writeOut p.name prompt
    return .string (← readLine p.name)
  | .spawn, [v] => do
    p.functionArg "a function" v
    match v with
    | .function f => if f.sig.params ≠ [] then raise (.spawnArity f.sig.params.length)
    | _ => pure ()
    Eval.spawn v
    return .unit
  | .sleep, [v] => do
    Eval.sleep (← p.secondsArg v)
    return .unit
  | .setTimeout, [f, v] => do
    p.functionArg "a function" f
    Eval.sleep (← p.secondsArg v)
    call f [] .unknown
  | .clock, [] => do
    let now ← Action.asks fun m => clockReading m.world.clock
    return .number (Number.ofFloat (Float.ofInt now / second))
  | .graphicsInit, [v] => p.drawing do
    return .init (← p.stringArg "an API name string" v)
  | .createWindow, [w, h, title] => p.drawing do
    let width ← p.intArg w
    let height ← p.intArg h
    return .window width height (← p.stringArg "a string title" title)
  | .clear, [r, g, b, a] => p.drawing do
    let red ← p.numberArg "numeric colour components" r
    let green ← p.numberArg "numeric colour components" g
    let blue ← p.numberArg "numeric colour components" b
    let alpha ← p.numberArg "numeric colour components" a
    return .clear red.value green.value blue.value alpha.value
  | .swapBuffers, [] => p.drawing (return .swap)
  | .graphicsShutdown, [] => p.drawing (return .shutdown)
  | .registerEvent, [event, h] => do
    let event ← p.stringArg "an event name string" event
    p.functionArg "a handler function" h
    changeInterpreter fun i => { i with handlers := addHandler event h i.handlers }
    log fun m => ⟨text "event registered",
      [(text "event", event), (text "handlers", Bytes.ofNat (handlersOf m.interpreter event).length)]⟩
    return .unit
  | .triggerEvent, [event] => do
    let event ← p.stringArg "an event name string" event
    let handlers ← Action.asks fun m => handlersOf m.interpreter event
    callAll call handlers
    return .number (Number.ofInt handlers.length)
  | .httpGet, [v] => do
    let url ← p.stringArg "a URL string" v
    let operation := p.name ++ text " " ++ url
    match ← request url with
    | .error reason => raise (.outside operation reason)
    | .ok (status, body) =>
      log fun _ => ⟨p.name, [(text "url", url), (text "status", Bytes.ofNat status),
        (text "bytes", Bytes.ofNat body.length)]⟩
      if status < 200 ∨ 299 < status then raise (.outside operation (text "status " ++ Bytes.ofNat status))
      else return .string body
  | _, _ => return .unit

end Primitive

end Ouroboros
