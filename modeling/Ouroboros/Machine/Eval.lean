/-
Evaluation of expressions, statements and programs.

Expressions and statements are evaluated by recursion on their trees, with `call` for the calls in them.

A declaration binds its name in the scope at hand, unless the name is bound there already: then a new scope inside it
takes the binding and the rest of the statements, and functions declared before keep what they saw. Blocks, calls and
rounds of a loop have scopes of their own.

When a program that ran in the global scope has ended, the scope in which its last statement ended is the global one,
so later programs see what it declared, also when it failed half-way. While it runs, the global scope stays where it
was, unless a program that runs inside it moves it.
-/
import Ouroboros.Machine.State
import Ouroboros.Program.Parse

namespace Ouroboros

/-- how a statement ends: it runs through with a value, or it leaves the function with one -/
inductive Completion where
  | normal (v : Value)
  | returned (v : Value)

namespace Completion

/-- the completion of statements that have no value of their own, such as blocks -/
def asBlock : Completion → Completion
  | .normal _ => .normal .unit
  | .returned v => .returned v

end Completion

def Machine.moveGlobal (m : Machine) (scope : ScopeId) : Machine :=
  { m with interpreter := { m.interpreter with global := scope } }

namespace Eval

/-! ## Operators -/

/-- applies an operator; `rightPos` is the place of the right operand -/
def binary (pos : Pos) (op : BinaryOp) (rightPos : Pos) (left right : Value) : Eval Value :=
  match op, left, right with
  | .add, .number a, .number b => return .number (a.add b)
  | .sub, .number a, .number b => return .number (a.sub b)
  | .mul, .number a, .number b => return .number (a.mul b)
  | .div, .number a, .number b =>
    if b.isZero then Action.failAt rightPos .divisionByZero else return .number (a.div b)
  | .greater, .number a, .number b => return .bool (b.value < a.value)
  | .add, .string a, .string b => return .string (a ++ b)
  | .greater, .string a, .string b => return .bool (b < a)
  | _, _, _ => Action.failAt pos (.operandTypes op left.typeName right.typeName)

def range (pos : Pos) (low high : Value) : Eval Value :=
  match low, high with
  | .number a, .number b =>
    if !Decimal.isIntegral a.value || !Decimal.isIntegral b.value then
      Action.failAt pos (.rangeBounds low.described high.described)
    else if b.value < a.value then Action.failAt pos (.rangeOrder a b)
    else
      match Decimal.int64? a.value, Decimal.int64? b.value with
      | some i, some j => return .range i j
      | _, _ => Action.failAt pos (.rangeSize a b)
  | _, _ => Action.failAt pos (.rangeBounds low.described high.described)

/-! ## The lines of calls -/

/-- the stages of a call, for the debug log -/
inductive CallStage where
  | aboutToCall
  | argsEvaluated
  | bodyExecuting
  | returnSignal
  | normalEnd
  | completed
deriving DecidableEq, Repr

def CallStage.name : CallStage → Bytes
  | .aboutToCall => text "AboutToCall"
  | .argsEvaluated => text "ArgsEvaluated"
  | .bodyExecuting => text "BodyExecuting"
  | .returnSignal => text "ReturnSignal"
  | .normalEnd => text "NormalEnd"
  | .completed => text "Completed"

/-- logs that a call has reached a stage -/
def trace (function : Bytes) (stage : CallStage) : Eval Unit := log fun m =>
  ⟨text "call", [(text "function", function), (text "state", stage.name),
    (text "depth", Bytes.ofNat m.interpreter.frames.length)]⟩

/-! ## Expressions -/

mutual

/-- the value of an expression in a scope -/
def expr (call : Call) (scope : ScopeId) : Expr → Eval Value
  | .number _ value isInt _ => return .number (Number.make value isInt)
  | .string _ t => return .string t
  | .ident pos name => do
    match (← store).lookup? scope name with
    | some v => return v
    | none => Action.failAt pos (.undefinedVariable name)
  | .group _ inner => expr call scope inner
  | .await _ inner => expr call scope inner
  | .binary pos op left right => do
    let a ← expr call scope left
    let b ← expr call scope right
    binary pos op right.pos a b
  | .range pos low high => do
    let a ← expr call scope low
    let b ← expr call scope high
    range pos a b
  | .call pos callee args => do
    let f ← expr call scope callee
    trace f.callName .aboutToCall
    let vs ← exprs call scope args
    trace f.callName .argsEvaluated
    call f vs pos

/-- the values of expressions, from left to right -/
def exprs (call : Call) (scope : ScopeId) : List Expr → Eval (List Value)
  | [] => return []
  | e :: rest => do
    let v ← expr call scope e
    let vs ← exprs call scope rest
    return v :: vs

end

/-! ## Statements -/

/-- binds a name to what `value` gives for the scope that will hold the binding: the scope at hand, or a new one inside
it when the name is bound there already. Gives that scope. -/
def declare (scope : ScopeId) (name : Bytes) (value : ScopeId → Value) : Eval ScopeId := do
  let target ← if ((← store).bound? scope name).isSome then newScope scope else pure scope
  define target name (value target)
  return target

/-- gives the binding of a name that a scope sees a new value; builtins keep theirs -/
def assign (pos : Pos) (scope : ScopeId) (name : Bytes) (v : Value) : Eval Unit := do
  let owner := (← store).owner? scope name
  match owner with
  | none => Action.failAt pos (.undefinedTarget name)
  | some owner =>
    if owner = (← Action.asks fun m => m.interpreter.core) then Action.failAt pos (.builtinTarget name)
    else define owner name v

/-- runs a loop's body for `rounds` integers from `first` on, until one leaves the function -/
def rounds (body : Int → Eval Completion) : Nat → Int → Eval Completion
  | 0, _ => return .normal .unit
  | n + 1, first => do
    match ← body first with
    | .returned v => return .returned v
    | .normal _ => rounds body n (first + 1)

mutual

/-- runs a statement in a scope; gives the scope in which the statements behind it run, and how it ended -/
def stmt (call : Call) (scope : ScopeId) : Stmt → Eval (ScopeId × Completion)
  | .expr _ x => do
    let v ← expr call scope x
    return (scope, .normal v)
  | .letDecl _ name _ init => do
    let v ← expr call scope init
    let scope ← declare scope name fun _ => v
    return (scope, .normal .unit)
  | .fnDecl _ sig _ body => do
    let scope ← declare scope sig.name fun target => .function ⟨sig, body, target⟩
    return (scope, .normal .unit)
  | .assign pos name value => do
    let v ← expr call scope value
    assign pos scope name v
    return (scope, .normal .unit)
  | .cond _ test _ thenBody otherwise => do
    let v ← expr call scope test
    if v.isTrue then
      let inner ← newScope scope
      let c ← stmts call inner thenBody .unit
      return (scope, c.asBlock)
    else
      let c ← other call scope otherwise
      return (scope, c)
  | .loop _ var bounds _ body => do
    match ← expr call scope bounds with
    | .range low high =>
      let c ← rounds (fun i => do
        let inner ← newScope scope
        define inner var (.number (Number.ofInt i))
        stmts call inner body .unit) (high - low).toNat low
      return (scope, c)
    | v => Action.failAt bounds.pos (.notIterable v.typeName)
  | .ret pos value => do
    if (← Action.asks fun m => m.interpreter.frames) = [] then Action.failAt pos .returnOutside
    else
      match value with
      | none => return (scope, .returned .unit)
      | some x => do
        let v ← expr call scope x
        return (scope, .returned v)
  | .block _ body => do
    let inner ← newScope scope
    let c ← stmts call inner body .unit
    return (scope, c.asBlock)

/-- runs statements one after the other; `last` is the value of the statement before them -/
def stmts (call : Call) (scope : ScopeId) : List Stmt → Value → Eval Completion
  | [], last => return .normal last
  | s :: rest, _ => do
    match ← stmt call scope s with
    | (_, .returned v) => return .returned v
    | (scope, .normal v) => stmts call scope rest v

/-- runs what follows `else`, if anything does -/
def other (call : Call) (scope : ScopeId) : Option Stmt → Eval Completion
  | none => return .normal .unit
  | some s => do
    let (_, c) ← stmt call scope s
    return c

end

/-! ## Programs -/

/-- what an operation gives when its run ends so -/
def outcome : Except Diagnostic Value → Outcome
  | .ok v => .ok v
  | .error d => .error [d]

/-- runs statements at the top, one after the other; `last` is the value of the statement before them. Gives how the run
ended, and the scope in which it ended. -/
def program (call : Call) (scope : ScopeId) : List Stmt → Value → Eval (Except Diagnostic Value × ScopeId)
  | [], last => return (.ok last, scope)
  | s :: rest, _ => do
    match ← Action.attempt (stmt call scope s) with
    | .ok (scope, .normal v) => program call scope rest v
    | .ok (scope, .returned v) => return (.ok v, scope)
    | .error d => return (.error d, scope)

/-- makes another scope the global one -/
def moveGlobal (scope : ScopeId) : Eval Unit := Action.change fun m => m.moveGlobal scope

/-- runs a program in a scope, or in the global scope when none is given; a faulty program does not run -/
def exec (call : Call) (p : Program) (scope : Option ScopeId) : Eval Outcome := do
  if p.isSound then
    let first ← Action.asks fun m => scope.getD m.interpreter.global
    let (r, last) ← program call first p.stmts .unit
    if first = (← Action.asks fun m => m.interpreter.global) then moveGlobal last
    return outcome r
  else return .error p.errors

/-- the line of the debug log for source text that is read as a program -/
def sourceNote (name : Bytes) (p : Program) : LogEntry :=
  if p.isSound then ⟨text "exec", [(text "source", name), (text "statements", Bytes.ofNat p.stmts.length)]⟩
  else ⟨text "parse failed", [(text "source", name), (text "errors", Bytes.ofNat p.errors.length)]⟩

/-- reads source text and runs it in the global scope; the name is only for the log -/
def execSource (call : Call) (name source : Bytes) : Eval Outcome := do
  log fun _ => sourceNote name (Program.ofSource source)
  exec call (Program.ofSource source) none

end Eval

end Ouroboros
