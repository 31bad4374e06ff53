/-
Evaluation with bounded effort.

A task is a piece of evaluation: looking for the scope that holds a name, evaluating an expression, running statements,
the rounds of a loop or a call, calling the handlers of an event. `Task.expand` carries out a task by deeds and by other
tasks, and asks for each of those only that it be carried out; whether the machine admits another call it sees when the
call is made, from the active calls. Nothing in it says that this comes to an end. `Task.runWithin n` carries out a task in
which at most `n` tasks are nested, and gives nothing when more are needed.

A course of evaluation gives a result and the deeds that were done, never a machine: the machine is what the deeds make of
the one at the start.
-/
import Ouroboros.Proofs.Execution.Deeds

namespace Ouroboros

/-- what is done from a machine on: the result and the deeds, or nothing when the effort does not suffice -/
def Course (α : Type) : Type := Machine → Option (Except Diagnostic α × List Deed)

namespace Course

variable {α β : Type}

protected def pure (a : α) : Course α := fun _ => some (.ok a, [])

/-- one course and then, unless it failed, the next, from the machine that the deeds of the first have made -/
protected def bind (x : Course α) (k : α → Course β) : Course β := fun m =>
  match x m with
  | none => none
  | some (.error e, deeds) => some (.error e, deeds)
  | some (.ok a, deeds) => (k a (performAll deeds m)).map fun r => (r.1, deeds ++ r.2)

instance : Monad Course where
  pure := Course.pure
  bind := Course.bind

/-- a part of the machine -/
def asks (f : Machine → α) : Course α := fun m => some (.ok (f m), [])

def fail (e : Diagnostic) : Course α := fun _ => some (.error e, [])

def failAt (pos : Pos) (fault : Fault) : Course α := fail ⟨fault, pos, [], false⟩

/-- the outcome of a course, failed or not -/
def attempt (x : Course α) : Course (Except Diagnostic α) := fun m => (x m).map fun r => (.ok r.1, r.2)

/-- the course of one deed -/
def deed (d : Deed) : Course d.Answer := fun m => some ((d.act m).1, [d])

theorem asks_bind (f : Machine → α) (k : α → Course β) (m : Machine) : (asks f >>= k) m = k (f m) m := by
  change (k (f m) m).map (fun r => (r.1, [] ++ r.2)) = k (f m) m
  cases k (f m) m <;> rfl

theorem bind_eq_some {x : Course α} {k : α → Course β} {m : Machine} {r : Except Diagnostic β} {ds : List Deed}
    (h : (x >>= k) m = some (r, ds)) :
    (∃ e, x m = some (.error e, ds) ∧ r = .error e) ∨ ∃ a ds₁ ds₂, x m = some (.ok a, ds₁) ∧
      k a (performAll ds₁ m) = some (r, ds₂) ∧ ds = ds₁ ++ ds₂ := by
  change Course.bind x k m = _ at h
  rw [Course.bind] at h
  rcases hx : x m with _ | ⟨e | a, ds₁⟩
  · simp [hx] at h
  · rw [hx] at h
    obtain ⟨rfl, rfl⟩ := Prod.mk.inj (Option.some.inj h)
    exact .inl ⟨e, rfl, rfl⟩
  · rw [hx] at h
    obtain ⟨⟨r', ds₂⟩, hk, heq⟩ := Option.map_eq_some_iff.1 h
    obtain ⟨rfl, rfl⟩ := Prod.mk.inj heq
    exact .inr ⟨a, ds₁, ds₂, rfl, hk, rfl⟩

theorem bind_eq_ok {x : Course α} {k : α → Course β} {m : Machine} {b : β} {ds : List Deed}
    (h : (x >>= k) m = some (.ok b, ds)) : ∃ a ds₁ ds₂, x m = some (.ok a, ds₁) ∧
      k a (performAll ds₁ m) = some (.ok b, ds₂) ∧ ds = ds₁ ++ ds₂ := by
  rcases bind_eq_some h with ⟨e, -, he⟩ | hok
  · cases he
  · exact hok

theorem attempt_eq_ok {x : Course α} {m : Machine} {r : Except Diagnostic α} {ds : List Deed}
    (h : attempt x m = some (.ok r, ds)) : x m = some (r, ds) := by
  obtain ⟨⟨s, ds⟩, hs, heq⟩ := Option.map_eq_some_iff.1 h
  cases heq
  exact hs

theorem deed_bind (d : Deed) {a : d.Answer} {k : d.Answer → Course β} {m : Machine} {r : Except Diagnostic β}
    {ds : List Deed} (ha : (d.act m).1 = .ok a) (h : (Course.deed d >>= k) m = some (r, ds)) :
    ∃ rest, ds = d :: rest ∧ k a (d.effect m) = some (r, rest) := by
  rcases bind_eq_some h with ⟨e, he, -⟩ | ⟨b, ds₁, ds₂, hfirst, hnext, rfl⟩
  · simp only [Course.deed, ha] at he
    cases he
  · simp only [Course.deed, ha] at hfirst
    cases hfirst
    exact ⟨ds₂, rfl, hnext⟩

/-- a course that only reads the machine -/
def reads (x : Machine → Except Diagnostic α) : Course α := fun m => some (x m, [])

end Course

namespace Eval

/-- what a builtin leaves to tasks: it calls a function, calls the handlers of an event, or copies the scopes that a
function sees -/
inductive Errand where
  | call (f : Value)
  | handlers (event : Bytes)
  | copies (f : Closure)

def Errand.of? : Primitive → List Value → Option Errand
  | .setTimeout, [f, _] => some (.call f)
  | .triggerEvent, [.string event] => some (.handlers event)
  | .spawn, [.function f] => some (.copies f)
  | _, _ => none

/-- the copying for spawned work, before anything is copied -/
def copying (m : Machine) : Snapshot.Copying :=
  let path := m.interpreter.path
  let (child, w) := m.world.newInterpreter m.interpreter.limit (false :: path)
  ⟨m.interpreter.core, child.core, w.orders path, w.store, []⟩

/-- a piece of evaluation -/
inductive Task where
  /-- looks for the scope that holds a name, from a scope outwards -/
  | owner (scope : ScopeId) (name : Bytes)
  | expr (scope : ScopeId) (e : Expr)
  | exprs (scope : ScopeId) (es : List Expr)
  | stmt (scope : ScopeId) (s : Stmt)
  | stmts (scope : ScopeId) (ss : List Stmt) (last : Value)
  /-- the rounds of a loop that are left -/
  | rounds (scope : ScopeId) (var : Bytes) (body : List Stmt) (next high : Int)
  | call (f : Value) (args : List Value) (pos : Pos)
  | body (callee : Callee) (args : List Value)
  /-- the handlers of an event that are left -/
  | handlers (hs : List Value)
  /-- copies a scope for spawned work -/
  | copy (id : ScopeId) (c : Snapshot.Copying)
  /-- statements at the top, where a failure does not undo the scopes opened before it -/
  | program (scope : ScopeId) (ss : List Stmt) (last : Value)

namespace Task

/-- what a task gives -/
def Answer : Task → Type
  | .owner .. => Option ScopeId
  | .expr .. | .call .. => Value
  | .exprs .. => List Value
  | .stmt .. => ScopeId × Completion
  | .stmts .. | .rounds .. | .body .. => Completion
  | .handlers .. => Unit
  | .copy .. => ScopeId × Snapshot.Copying
  | .program .. => Except Diagnostic Value × ScopeId

/-- how tasks are carried out -/
abbrev Runner := (t : Task) → Course t.Answer

end Task

end Eval

namespace Course

open Eval

variable (run : Task.Runner)

/-- looks in the scope itself, then in the scope around it -/
def ownerIn (s : Store) (scope : ScopeId) (name : Bytes) : Course (Option ScopeId) :=
  if (s.bound? scope name).isSome then return some scope
  else
    match s.parent? scope with
    | some p => run (.owner p name)
    | none => return none

def owner (scope : ScopeId) (name : Bytes) : Course (Option ScopeId) := do
  let s ← Course.asks fun m => m.world.store
  ownerIn run s scope name

/-- the value of a name as a scope sees it -/
def lookUp (scope : ScopeId) (name : Bytes) : Course (Option Value) := do
  match ← run (.owner scope name) with
  | some owner => Course.asks fun m => m.world.store.bound? owner name
  | none => return none

def expr (scope : ScopeId) : Expr → Course Value
  | .number _ value isInt _ => return .number (Number.make value isInt)
  | .string _ t => return .string t
  | .ident pos name => do
    match ← lookUp run scope name with
    | some v => return v
    | none => Course.failAt pos (.undefinedVariable name)
  | .group _ inner | .await _ inner => run (.expr scope inner)
  | .binary pos op left right => do
    let a ← run (.expr scope left)
    let b ← run (.expr scope right)
    Course.reads fun m => (binary pos op right.pos a b m).1
  | .range pos low high => do
    let a ← run (.expr scope low)
    let b ← run (.expr scope high)
    Course.reads fun m => (range pos a b m).1
  | .call pos callee args => do
    let f ← run (.expr scope callee)
    Course.deed (.trace f.callName .aboutToCall)
    let vs ← run (.exprs scope args)
    Course.deed (.trace f.callName .argsEvaluated)
    run (.call f vs pos)

def exprs (scope : ScopeId) : List Expr → Course (List Value)
  | [] => return []
  | e :: rest => do
    let v ← run (.expr scope e)
    let vs ← run (.exprs scope rest)
    return v :: vs

/-- gives the binding that the scope sees a new value; builtins keep theirs -/
def assign (pos : Pos) (scope : ScopeId) (name : Bytes) (v : Value) : Course Unit := do
  match ← run (.owner scope name) with
  | none => Course.failAt pos (.undefinedTarget name)
  | some owner =>
    if owner = (← Course.asks fun m => m.interpreter.core) then Course.failAt pos (.builtinTarget name)
    else Course.deed (.set owner name v)

/-- statements in a scope of their own -/
def block (scope : ScopeId) (ss : List Stmt) : Course Completion := do
  let inner ← Course.deed (.openScope scope [])
  let c ← run (.stmts inner ss .unit)
  return c.asBlock

def stmt (scope : ScopeId) : Stmt → Course (ScopeId × Completion)
  | .expr _ x => do
    let v ← run (.expr scope x)
    return (scope, .normal v)
  | .letDecl _ name _ init => do
    let v ← run (.expr scope init)
    let scope ← Course.deed (.declare scope (.value name v))
    return (scope, .normal .unit)
  | .fnDecl _ sig _ body => do
    let scope ← Course.deed (.declare scope (.function sig body))
    return (scope, .normal .unit)
  | .assign pos name value => do
    let v ← run (.expr scope value)
    assign run pos scope name v
    return (scope, .normal .unit)
  | .cond _ test _ thenBody otherwise => do
    let v ← run (.expr scope test)
    if v.isTrue then
      let c ← block run scope thenBody
      return (scope, c)
    else
      match otherwise with
      | none => return (scope, .normal .unit)
      | some s => do
        let (_, c) ← run (.stmt scope s)
        return (scope, c)
  | .loop _ var bounds _ body => do
    match ← run (.expr scope bounds) with
    | .range low high =>
      let c ← run (.rounds scope var body low high)
      return (scope, c)
    | v => Course.failAt bounds.pos (.notIterable v.typeName)
  | .ret pos value => do
    if (← Course.asks fun m => m.interpreter.frames) = [] then Course.failAt pos .returnOutside
    else
      match value with
      | none => return (scope, .returned .unit)
      | some x => do
        let v ← run (.expr scope x)
        return (scope, .returned v)
  | .block _ body => do
    let c ← block run scope body
    return (scope, c)

def stmts (scope : ScopeId) : List Stmt → Value → Course Completion
  | [], last => return .normal last
  | s :: rest, _ => do
    match ← run (.stmt scope s) with
    | (_, .returned v) => return .returned v
    | (scope, .normal v) => run (.stmts scope rest v)

def rounds (scope : ScopeId) (var : Bytes) (body : List Stmt) (next high : Int) : Course Completion := do
  if next < high then
    let inner ← Course.deed (.openScope scope [(var, .number (Number.ofInt next))])
    match ← run (.stmts inner body .unit) with
    | .returned v => return .returned v
    | .normal _ => run (.rounds scope var body (next + 1) high)
  else return .normal .unit

/-- leaves a call with what its body gave -/
def settle (callee : Callee) (pos : Pos) : Except Diagnostic Completion → Course Value
  | .error d => do
    let frames ← Course.asks fun m => m.interpreter.frames
    Course.deed .leave
    Course.fail (annotate pos frames d)
  | .ok (.returned v) => do
    Course.deed .leave
    Course.deed (.trace callee.name .returnSignal)
    Course.deed (.trace callee.name .completed)
    return v
  | .ok (.normal _) => do
    Course.deed .leave
    Course.deed (.trace callee.name .normalEnd)
    Course.deed (.trace callee.name .completed)
    return .unit

/-- a call is refused when the active calls are as many as the limit -/
def call (f : Value) (args : List Value) (pos : Pos) : Course Value := do
  match calleeFor f args with
  | .error fault => Course.failAt pos fault
  | .ok callee =>
    let i ← Course.asks fun m => m.interpreter
    if i.limit ≤ i.frames.length then Course.failAt pos (.callDepth i.limit)
    else
      Course.deed (.enter ⟨callee.name, pos⟩)
      Course.deed (.trace callee.name .bodyExecuting)
      let r ← Course.attempt (run (.body callee args))
      settle callee pos r

/-- copies bindings one after the other into the scope `target` -/
def copyTable (target : ScopeId) : Table → Snapshot.Copying → Course Snapshot.Copying
  | [], c => return c
  | (name, .function f) :: rest, c => do
    let (scope, c) ← run (.copy f.scope c)
    copyTable target rest { c with store := c.store.define target name (.function { f with scope }) }
  | (name, v) :: rest, c => copyTable target rest { c with store := c.store.define target name v }

/-- copies the scope around a scope -/
def copyAround (parent : Option ScopeId) (c : Snapshot.Copying) : Course (ScopeId × Snapshot.Copying) :=
  match parent with
  | some p => run (.copy p c)
  | none => return (c.base, c)

/-- a scope that is not remembered is copied outwards first, then into its table -/
def copy (id : ScopeId) (c : Snapshot.Copying) : Course (ScopeId × Snapshot.Copying) :=
  if id = c.stop then return (c.base, c)
  else
    match c.copies.lookup id, c.store.scopes[id]? with
    | some done, _ => return (done, c)
    | none, none => return (c.base, c)
    | none, some scope => do
      let r ← copyAround run scope.parent c
      let c ← copyTable run r.2.store.scopes.size (r.2.arrange scope.table) (Snapshot.opened id r)
      return (r.2.store.scopes.size, c)

/-- builtins that call functions do it when the rest of their work is done; the handlers of an event are those registered
at the start. What the copies for spawned work come to is in the deed. -/
def primitive (p : Primitive) (args : List Value) : Course Value :=
  match Errand.of? p args with
  | none => Course.deed (.builtin p args)
  | some (.call f) => do
    let _ ← Course.deed (.builtin p args)
    run (.call f [] .unknown)
  | some (.handlers event) => do
    let hs ← Course.asks fun m => Primitive.handlersOf m.interpreter event
    let v ← Course.deed (.builtin p args)
    run (.handlers hs)
    return v
  | some (.copies f) => do
    let c ← Course.asks copying
    let _ ← run (.copy f.scope c)
    Course.deed (.builtin p args)

def program (scope : ScopeId) : List Stmt → Value → Course (Except Diagnostic Value × ScopeId)
  | [], last => return (.ok last, scope)
  | s :: rest, _ => do
    match ← Course.attempt (run (.stmt scope s)) with
    | .ok (scope, .normal v) => run (.program scope rest v)
    | .ok (scope, .returned v) => return (.ok v, scope)
    | .error d => return (.error d, scope)

/-- runs a program, and makes the scope in which it ended the global one -/
def exec (p : Program) (scope : Option ScopeId) : Course Outcome := do
  if p.isSound then
    let first ← Course.asks fun m => scope.getD m.interpreter.global
    let (r, last) ← run (.program first p.stmts .unit)
    if first = (← Course.asks fun m => m.interpreter.global) then Course.deed (.moveGlobal last)
    return outcome r
  else return .error p.errors

def execSource (name source : Bytes) : Course Outcome := do
  Course.deed (.note (sourceNote name (Program.ofSource source)))
  exec run (Program.ofSource source) none

/-- binds a name in the scope itself -/
def bindHere (scope : ScopeId) (name : Bytes) (v : Value) : Course Unit := do
  if (← Course.asks fun m => m.world.store.bound? scope name).isSome then Course.deed (.set scope name v)
  else
    let _ ← Course.deed (.declare scope (.value name v))
    return

/-- gives the binding that a scope sees a new value -/
def setVisible (scope : ScopeId) (name : Bytes) (v : Value) : Course Bool := do
  match ← run (.owner scope name) with
  | none => return false
  | some owner =>
    Course.deed (.set owner name v)
    return true

/-- answers a host's operation -/
def answer : (r : HostRequest) → Course r.Answer
  | .call f args => Course.attempt (run (.call f args .unknown))
  | .exec p scope => exec run p scope
  | .execSource name source => execSource run name source
  | .register name arity index => do
    let core ← Course.asks fun m => m.interpreter.core
    bindHere core name (.builtin (.ofHost name arity index))
  | .define scope name v => bindHere scope name v
  | .set scope name v => setVisible run scope name v
  | .lookUp scope name => lookUp run scope name
  | .core => Course.asks fun m => m.interpreter.core
  | .global => Course.asks fun m => m.interpreter.global
  | .newScope parent => Course.deed (.openScope parent [])
  | .kept => Course.asks fun m => m.world.memory
  | .remember vs => Course.deed (.remember vs)

def host : HostAction → Course Value
  | .answer v => return v
  | .fail d => Course.fail d
  | .ask r next => do
    let a ← answer run r
    host (next a)

def builtin (b : Builtin) (args : List Value) : Course Value :=
  match b.routine with
  | .primitive p => primitive run p args
  | .host index => do
    match ← Course.asks fun m => m.world.hosts[index]? with
    | some operation => host run (operation args)
    | none => return .unit

theorem builtin_ofHost (name : Bytes) (arity : Option Nat) (index : Nat) (args : List Value) (m : Machine) :
    builtin run (.ofHost name arity index) args m =
      (m.world.hosts[index]?.elim (return .unit) fun operation => host run (operation args)) m := by
  change (asks (fun m => m.world.hosts[index]?) >>= _) m = _
  rw [asks_bind]
  cases m.world.hosts[index]? <;> rfl

def body (args : List Value) : Callee → Course Completion
  | .builtin b => do
    let v ← builtin run b args
    return .returned v
  | .declared f => do
    let scope ← Course.deed (.openScope f.scope ((f.sig.params.map Param.name).zip args))
    run (.stmts scope f.body .unit)

def handlers : List Value → Course Unit
  | [] => return
  | h :: rest => do
    let _ ← run (.call h [] .unknown)
    run (.handlers rest)

end Course

namespace Eval.Task

/-- carries out a task, with `run` for the tasks in it -/
def expand (run : Runner) : Runner
  | .owner scope name => Course.owner run scope name
  | .expr scope e => Course.expr run scope e
  | .exprs scope es => Course.exprs run scope es
  | .stmt scope s => Course.stmt run scope s
  | .stmts scope ss last => Course.stmts run scope ss last
  | .rounds scope var ss next high => Course.rounds run scope var ss next high
  | .call f args pos => Course.call run f args pos
  | .body callee args => Course.body run args callee
  | .handlers hs => Course.handlers run hs
  | .copy id c => Course.copy run id c
  | .program scope ss last => Course.program run scope ss last

/-- carries out a task in which at most `n` tasks are nested, the task itself included -/
def runWithin : Nat → Runner
  | 0 => fun _ _ => none
  | n + 1 => expand (runWithin n)

end Eval.Task

/-! ## Operations of a host -/

/-- what a host asks of a machine -/
inductive Operation where
  | exec (p : Program) (scope : Option ScopeId)
  | execSource (name source : Bytes)
  | call (f : Value) (args : List Value)

namespace Operation

open Eval

/-- carries out the operation -/
def perform (m : Machine) : Operation → Outcome × Machine
  | .exec p scope => m.exec p scope
  | .execSource name source => m.execSource name source
  | .call f args => m.call f args

/-- carries out the operation with bounded effort -/
def runWithin (n : Nat) : Operation → Course Outcome
  | .exec p scope => Course.exec (Task.runWithin n) p scope
  | .execSource name source => Course.execSource (Task.runWithin n) name source
  | .call f args => do
    let r ← Course.attempt (Task.runWithin n (.call f args .unknown))
    return outcome r

end Operation

end Ouroboros
