/-
The parts of a call.

A call is refused when its function is none or takes another number of arguments (`calleeFor`), and when no more calls may
be nested. Otherwise it is entered, the body is run, and the call is left with the body's value, or with its failure and
the place of the call (`carryOut`).

So builtins are given as many arguments as they take, whoever calls them. By themselves they take any list, and do nothing
with one of another length: what they do is seen case by case of what they are given (`Primitive.given`).
-/
import Mathlib.Data.List.Basic
import Ouroboros.Machine.Apply

namespace Ouroboros

/-- the machine inside a call: the call is the innermost, and the log says that its body is executed -/
def Machine.inside (m : Machine) (name : Bytes) (pos : Pos) : Machine :=
  (Eval.trace name .bodyExecuting (Eval.enter ⟨name, pos⟩ m).2).2

/-- how the body of a call has ended, for the log -/
def Completion.stage : Completion → Eval.CallStage
  | .normal _ => .normalEnd
  | .returned _ => .returnSignal

namespace Eval

variable {f : Value} {args : List Value}

/-- the function to be called, or the fault for which the call is refused -/
def calleeFor (f : Value) (args : List Value) : Except Fault Callee :=
  match Callee.of? f with
  | none => .error (.notCallable f.typeName)
  | some callee =>
    match callee.arity with
    | some n => if args.length ≠ n then .error (.arity callee.name n args.length) else .ok callee
    | none => .ok callee

theorem of?_of_calleeFor {callee : Callee} (h : calleeFor f args = .ok callee) : Callee.of? f = some callee := by
  unfold calleeFor at h
  grind

/-- leaves a call with what its body gave -/
def settle (callee : Callee) (pos : Pos) : Except Diagnostic Completion → Eval Value
  | .error d => do
    let frames ← Action.asks fun m => m.interpreter.frames
    leave
    Action.fail (annotate pos frames d)
  | .ok (.returned v) => do
    leave
    trace callee.name .returnSignal
    trace callee.name .completed
    return v
  | .ok (.normal _) => do
    leave
    trace callee.name .normalEnd
    trace callee.name .completed
    return .unit

theorem settle_ok_eq (callee : Callee) (pos : Pos) (e : Completion) : ∃ v, settle callee pos (.ok e) = (do
    leave
    trace callee.name e.stage
    trace callee.name .completed
    return v) := by
  cases e with
  | normal v => exact ⟨.unit, rfl⟩
  | returned v => exact ⟨v, rfl⟩

/-- carries out a call that is admitted -/
def carryOut (call : Call) (callee : Callee) (args : List Value) (pos : Pos) : Eval Value := do
  enter ⟨callee.name, pos⟩
  trace callee.name .bodyExecuting
  let r ← Action.attempt (body call args callee)
  settle callee pos r

theorem applyWith_eq (inner : Option Call) (f : Value) (args : List Value) (pos : Pos) :
    applyWith inner f args pos =
      match calleeFor f args, inner with
      | .error fault, _ => Action.failAt pos fault
      | .ok _, none => do Action.failAt pos (.callDepth (← Action.asks fun m => m.interpreter.limit))
      | .ok callee, some call => carryOut call callee args pos := by
  unfold applyWith calleeFor
  cases Callee.of? f with
  | none => rfl
  | some callee =>
    cases harity : callee.arity with
    | none =>
      simp only [harity]
      cases inner <;> rfl
    | some n =>
      by_cases h : args.length = n
      · simp only [harity, h, ne_eq, not_true_eq_false, if_false]
        cases inner <;> rfl
      · simp only [harity, h, ne_eq, not_false_eq_true, if_true]
        rfl

end Eval

/-- an operation of the host is the one that the world has under its number -/
theorem Builtin.run_ofHost (call : Call) (name : Bytes) (arity : Option Nat) (index : Nat) (args : List Value)
    (m : Machine) : (ofHost name arity index).run call args m =
      (m.world.hosts[index]?.elim (return .unit) fun operation => (operation args).run call) m := by
  change (Action.asks (fun m => m.world.hosts[index]?) >>= _) m = _
  simp only [Action.bind_apply, Action.asks]
  cases m.world.hosts[index]? <;> rfl

namespace Primitive

/-- with a wrong number of arguments a builtin does nothing -/
theorem run_of_length_ne {call : Call} {p : Primitive} {n : Nat} {args : List Value} (harity : p.arity = some n)
    (hargs : args.length ≠ n) : p.run call args = pure .unit := by
  unfold run
  split <;> first
    | rfl
    | simp_all [arity]

/-- what a builtin is given: as many arguments as it takes, or another number of them -/
inductive Given : Primitive → List Value → Prop where
  | print (args : List Value) : Given .print args
  | len (v : Value) : Given .len [v]
  | stringLength (v : Value) : Given .stringLength [v]
  | toString (v : Value) : Given .toString [v]
  | stringConcat (a b : Value) : Given .stringConcat [a, b]
  | typeOf (v : Value) : Given .typeOf [v]
  | isAsync (v : Value) : Given .isAsync [v]
  | isGpu (v : Value) : Given .isGpu [v]
  | getInput (prompt : Value) : Given .getInput [prompt]
  | spawn (f : Value) : Given .spawn [f]
  | sleep (seconds : Value) : Given .sleep [seconds]
  | setTimeout (f seconds : Value) : Given .setTimeout [f, seconds]
  | clock : Given .clock []
  | graphicsInit (api : Value) : Given .graphicsInit [api]
  | createWindow (width height title : Value) : Given .createWindow [width, height, title]
  | clear (r g b a : Value) : Given .clear [r, g, b, a]
  | swapBuffers : Given .swapBuffers []
  | graphicsShutdown : Given .graphicsShutdown []
  | registerEvent (event h : Value) : Given .registerEvent [event, h]
  | triggerEvent (event : Value) : Given .triggerEvent [event]
  | httpGet (url : Value) : Given .httpGet [url]
  | wrong {p : Primitive} {args : List Value} {n : Nat} (harity : p.arity = some n) (hargs : args.length ≠ n) : Given p args

theorem given (p : Primitive) (args : List Value) : p.Given args := by
  by_cases hwrong : ∃ n, p.arity = some n ∧ args.length ≠ n
  · obtain ⟨n, harity, hargs⟩ := hwrong
    exact .wrong harity hargs
  have hlength : ∀ {n}, p.arity = some n → args.length = n := by
    intro n harity
    by_contra hargs
    exact hwrong ⟨n, harity, hargs⟩
  cases p with
  | print => exact .print args
  | clock | swapBuffers | graphicsShutdown =>
    obtain rfl := List.length_eq_zero_iff.mp (hlength rfl)
    constructor
  | len | stringLength | toString | typeOf | isAsync | isGpu | getInput | spawn | sleep | graphicsInit | triggerEvent
  | httpGet =>
    obtain ⟨v, rfl⟩ := List.length_eq_one_iff.mp (hlength rfl)
    constructor
  | stringConcat | setTimeout | registerEvent =>
    obtain ⟨a, b, rfl⟩ := List.length_eq_two.mp (hlength rfl)
    constructor
  | createWindow =>
    obtain ⟨width, height, title, rfl⟩ := List.length_eq_three.mp (hlength rfl)
    constructor
  | clear =>
    obtain ⟨r, rest, rfl⟩ := List.exists_of_length_succ args (hlength rfl)
    obtain ⟨g, b, a, rfl⟩ := List.length_eq_three.mp (Nat.succ.inj (hlength rfl))
    constructor

/-- two strings are joined, and any other two values are refused -/
theorem run_stringConcat (a b : Value) :
    (∃ t u, a = .string t ∧ b = .string u ∧ ∀ call, run call .stringConcat [a, b] = pure (.string (t ++ u))) ∨
    (¬∃ t u, a = .string t ∧ b = .string u) ∧ ∀ call, run call .stringConcat [a, b] =
      refuse .stringConcat "two strings" (a.typeName ++ text " and " ++ b.typeName) := by
  cases a with
  | string t =>
    cases b with
    | string u => exact .inl ⟨t, u, rfl, rfl, fun _ => rfl⟩
    | unit | number | bool | function | builtin | range | unknown => exact .inr ⟨nofun, fun _ => rfl⟩
  | unit | number | bool | function | builtin | range | unknown => exact .inr ⟨nofun, fun _ => rfl⟩

end Primitive

end Ouroboros
