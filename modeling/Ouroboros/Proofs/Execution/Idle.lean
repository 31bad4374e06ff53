/-
What builtins do apart from the calls that they make.

A builtin reads the machine, writes, sleeps, draws, takes a line of the input, requests an address, adds a handler or
schedules spawned work, adds lines to the debug log, and fails with faults of its own or as a graphics backend refuses. So
what holds of these steps, and is handed on from a step to the one behind it, holds of every builtin (`IdleRules.run`).
-/
import Ouroboros.Proofs.Execution.Deeds

namespace Ouroboros

/-- whether the fault is one of a running program, other than an overflow of the active calls -/
def Fault.isOwn (fault : Fault) : Bool := fault.kind.phase == .running && fault.kind != .stackOverflow

theorem Fault.isOwn_iff {fault : Fault} :
    fault.isOwn = true ↔ fault.kind.phase = .running ∧ fault.kind ≠ .stackOverflow := by
  rw [isOwn, Bool.and_eq_true, beq_iff_eq, bne_iff_ne]

namespace Eval

/-- takes a line of the input -/
def takeLine : Eval (Except Bytes Bytes) := Action.exchange fun m =>
  let (line, input) := m.world.input.readLine
  (line, { m with world := { m.world with input } })

/-- something that holds of the steps of which builtins are made, and is handed on from a step to the one behind it -/
structure IdleRules (P : ∀ ⦃α : Type⦄, Eval α → Prop) : Prop where
  pure : ∀ {α : Type} (a : α), P (Pure.pure a)
  bind : ∀ {α β : Type} {x : Eval α} {k : α → Eval β}, P x → (∀ a, P (k a)) → P (x >>= k)
  raise : ∀ {α : Type} {fault : Fault}, fault.isOwn = true → P (raise fault : Eval α)
  asks : ∀ {α : Type} (f : Machine → α), P (Action.asks f)
  perform : ∀ {e : Effect}, (∀ entry, e ≠ .log entry) → P (perform e)
  /-- lines of the log that are not about calls -/
  log : ∀ {entry : Machine → LogEntry}, (∀ m, (entry m).message ≠ text "call") → P (log entry)
  limitSink : ∀ sink : Option Sink, P (changeWorld fun w => { w with sink })
  passTime : ∀ nanoseconds : Int, P (changeWorld fun w => { w with clock := w.clock + nanoseconds })
  takeLine : P takeLine
  /-- asking the graphics backend, and failing if it refuses -/
  refuse : ∀ (operation : Bytes) (call : GraphicsCall), P (consult call >>= heed operation)
  request : ∀ url : Bytes, P (request url)
  schedule : ∀ f : Value, P (schedule f)
  addHandler : ∀ (event : Bytes) (h : Value),
    P (changeInterpreter fun i => { i with handlers := Primitive.addHandler event h i.handlers })

variable {P : ∀ ⦃α : Type⦄, Eval α → Prop}

namespace IdleRules

/-! ## The outside -/

theorem writeOut (R : IdleRules P) (operation t : Bytes) : P (writeOut operation t) := by
  refine R.bind (R.asks _) fun sink => ?_
  rcases sink with _ | ⟨_ | left, reason⟩
  · exact R.perform nofun
  · exact R.raise rfl
  · exact R.bind (R.limitSink _) fun _ => R.perform nofun

theorem readLine (R : IdleRules P) (operation : Bytes) : P (readLine operation) := by
  refine R.bind R.takeLine fun line => ?_
  cases line with
  | ok line => exact R.pure _
  | error reason => exact R.raise rfl

theorem sleep (R : IdleRules P) (nanoseconds : Int) : P (sleep nanoseconds) := by
  unfold Eval.sleep
  split
  · exact R.bind (R.passTime _) fun _ => R.perform nofun
  · exact R.pure _

theorem needGraphics (R : IdleRules P) (operation : Bytes) : P (needGraphics operation) := by
  refine R.bind (R.asks _) fun missing => ?_
  split
  · exact R.raise rfl
  · exact R.pure _

theorem draw (R : IdleRules P) (operation : Bytes) (call : GraphicsCall) : P (draw operation call) :=
  R.bind (R.perform nofun) fun _ => R.refuse operation call

theorem spawn (R : IdleRules P) (f : Value) : P (Eval.spawn f) := by
  refine R.bind (R.schedule f) fun closed => ?_
  split
  · exact R.raise rfl
  · exact R.log fun _ => by decide

/-! ## Arguments -/

variable {p : Primitive}

theorem stringArg (R : IdleRules P) (wanted : String) (v : Value) : P (p.stringArg wanted v) := by
  cases v with
  | string t => exact R.pure _
  | unit | number | bool | function | builtin | range | unknown => exact R.raise rfl

theorem numberArg (R : IdleRules P) (wanted : String) (v : Value) : P (p.numberArg wanted v) := by
  cases v with
  | number n => exact R.pure _
  | unit | string | bool | function | builtin | range | unknown => exact R.raise rfl

theorem intArg (R : IdleRules P) (v : Value) : P (p.intArg v) := by
  cases v with
  | number n =>
    simp only [Primitive.intArg]
    split
    · exact R.pure _
    · exact R.raise rfl
    · exact R.raise rfl
  | unit | string | bool | function | builtin | range | unknown => exact R.raise rfl

theorem functionArg (R : IdleRules P) (wanted : String) (v : Value) : P (p.functionArg wanted v) := by
  unfold Primitive.functionArg
  split
  · exact R.pure _
  · exact R.raise rfl

theorem secondsArg (R : IdleRules P) (v : Value) : P (p.secondsArg v) := by
  refine R.bind (R.numberArg _ v) fun n => ?_
  split
  · exact R.raise rfl
  · exact R.pure _

theorem markArg (R : IdleRules P) (mark : Signature → Bool) (v : Value) : P (p.markArg mark v) := by
  cases v with
  | function f => exact R.pure _
  | builtin b => exact R.pure _
  | unit | number | string | bool | range | unknown => exact R.raise rfl

theorem drawing (R : IdleRules P) {args : Eval GraphicsCall} (h : P args) : P (p.drawing args) :=
  R.bind (R.needGraphics _) fun _ => R.bind h fun call => R.bind (R.draw _ call) fun _ => R.pure _

/-! ## Builtins -/

/-- **Builtins are made of these steps**, apart from the calls that they make. -/
theorem run (R : IdleRules P) (p : Primitive) (args : List Value) : P (p.run Deed.idle args) := by
  cases p.given args with
  | wrong harity hargs =>
    rw [Primitive.run_of_length_ne harity hargs]
    exact R.pure _
  | print => exact R.bind (R.writeOut _ _) fun _ => R.pure _
  | len v | stringLength v => exact R.bind (R.stringArg _ v) fun _ => R.pure _
  | toString | typeOf => exact R.pure _
  | stringConcat a b =>
    rcases Primitive.run_stringConcat a b with ⟨t, u, -, -, hrun⟩ | ⟨-, hrun⟩ <;> rw [hrun]
    · exact R.pure _
    · exact R.raise rfl
  | isAsync v | isGpu v => exact R.markArg _ v
  | getInput prompt =>
    refine R.bind (R.stringArg _ prompt) fun prompt => ?_
    have hread : P (do return .string (← Eval.readLine (Primitive.name .getInput)) : Eval Value) :=
      R.bind (R.readLine _) fun _ => R.pure _
    split
    · exact R.bind (R.writeOut _ _) fun _ => hread
    · exact hread
  | spawn f =>
    refine R.bind (R.functionArg _ f) fun _ => ?_
    have hspawn : ∀ f, P (Eval.spawn f >>= fun _ => return .unit : Eval Value) :=
      fun f => R.bind (R.spawn f) fun _ => R.pure _
    split
    · split
      · exact R.raise rfl
      · exact hspawn _
    · exact hspawn _
  | sleep seconds => exact R.bind (R.secondsArg seconds) fun _ => R.bind (R.sleep _) fun _ => R.pure _
  | setTimeout f seconds =>
    refine R.bind (R.functionArg _ f) fun _ => R.bind (R.secondsArg seconds) fun _ => ?_
    exact R.bind (R.sleep _) fun _ => R.pure _
  | clock => exact R.bind (R.asks _) fun _ => R.pure _
  | graphicsInit api => exact R.drawing (R.bind (R.stringArg _ api) fun _ => R.pure _)
  | createWindow width height title =>
    refine R.drawing (R.bind (R.intArg width) fun _ => R.bind (R.intArg height) fun _ => ?_)
    exact R.bind (R.stringArg _ title) fun _ => R.pure _
  | clear r g b a =>
    refine R.drawing (R.bind (R.numberArg _ r) fun _ => R.bind (R.numberArg _ g) fun _ => ?_)
    exact R.bind (R.numberArg _ b) fun _ => R.bind (R.numberArg _ a) fun _ => R.pure _
  | swapBuffers | graphicsShutdown => exact R.drawing (R.pure _)
  | registerEvent event h =>
    refine R.bind (R.stringArg _ event) fun event => R.bind (R.functionArg _ h) fun _ => ?_
    have hmessage : text "event registered" ≠ text "call" := by decide
    exact R.bind (R.addHandler event _) fun _ => R.bind (R.log fun _ => hmessage) fun _ => R.pure _
  | triggerEvent event =>
    refine R.bind (R.stringArg _ event) fun event => R.bind (R.asks _) fun handlers => ?_
    rw [Primitive.callAll_idle]
    exact R.pure _
  | httpGet url =>
    refine R.bind (R.stringArg _ url) fun url => R.bind (R.request url) fun answer => ?_
    rcases answer with reason | ⟨status, body⟩
    · exact R.raise rfl
    · have hmessage : Primitive.httpGet.name ≠ text "call" := by decide
      refine R.bind (R.log fun _ => hmessage) fun _ => ?_
      split
      · exact R.raise rfl
      · exact R.pure _

end IdleRules

end Eval

end Ouroboros
