/-
What builtins do to the outside: writing, reading a line, sleeping, drawing, fetching a page.

Every change is recorded in order. An operation that the outside refuses fails with the reason, or with the diagnostic
that a graphics backend gives; a refused write leaves no trace, while a refused drawing call is recorded all the same.
-/
import Ouroboros.Machine.State

namespace Ouroboros

namespace Input

/-- the next line with its end, or what is left of the input; reading past the end gives nothing, or fails when the
input ends in a failure -/
def readLine (i : Input) : Except Bytes Bytes × Input :=
  match i.rest.dropWhile (· != Bytes.newline), i.failure with
  | b :: rest, _ => (.ok (i.rest.takeWhile (· != Bytes.newline) ++ [b]), { i with rest })
  | [], none => (.ok i.rest, { i with rest := [] })
  | [], some reason => (.error reason, { i with rest := [] })

end Input

namespace Eval

/-- writes to standard output in the name of an operation -/
def writeOut (operation t : Bytes) : Eval Unit := do
  match ← Action.asks fun m => m.world.sink with
  | none => perform (.out t)
  | some ⟨0, reason⟩ => raise (.outside operation reason)
  | some ⟨left + 1, reason⟩ =>
    changeWorld fun w => { w with sink := some ⟨left, reason⟩ }
    perform (.out t)

/-- reads a line in the name of an operation, without its end; nothing at the end of the input -/
def readLine (operation : Bytes) : Eval Bytes := do
  let line ← Action.exchange fun m =>
    let (line, input) := m.world.input.readLine
    (line, { m with world := { m.world with input } })
  match line with
  | .ok line => return Bytes.trimRight (fun b => b == Bytes.newline || b == Bytes.carriageReturn) line
  | .error reason => raise (.outside operation reason)

/-- lets time pass -/
def sleep (nanoseconds : Int) : Eval Unit := do
  if 0 < nanoseconds then
    changeWorld fun w => { w with clock := w.clock + nanoseconds }
    perform (.sleep nanoseconds)

/-- asks the graphics backend, if there is one, whether it refuses a call -/
def consult (call : GraphicsCall) : Eval (Option Refusal) := Action.exchange fun m =>
  match m.world.graphics with
  | none => (none, m)
  | some backend =>
    let (refusal, backend) := backend.ask call
    (refusal, { m with world := { m.world with graphics := some backend } })

def heed (operation : Bytes) : Option Refusal → Eval Unit
  | none => return
  | some (.reason t) => raise (.outside operation t)
  | some (.diagnostic d) => Action.fail d

/-- asks the graphics backend for something in the name of an operation -/
def draw (operation : Bytes) (call : GraphicsCall) : Eval Unit := do
  perform (.draw call)
  heed operation (← consult call)

/-- an operation cannot do without a graphics backend -/
def needGraphics (operation : Bytes) : Eval Unit := do
  if (← Action.asks fun m => m.world.graphics.isNone) then raise (.noGraphics operation)

def request (url : Bytes) : Eval (Except Bytes (Nat × Bytes)) := Action.exchange fun m =>
  let (answer, web) := m.world.web.ask url
  (answer, { m with world := { m.world with web } })

end Eval

end Ouroboros
