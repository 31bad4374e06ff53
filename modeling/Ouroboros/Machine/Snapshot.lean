/-
Snapshots of functions: spawned work runs on copies of the scopes that a function sees, so that it and the program that
spawned it do not see each other's changes.

A scope is copied with all scopes around it, up to the scope of the builtins, in whose place the copies have the
builtins of the new interpreter. A function bound in a copied scope is copied with the scopes that it sees. Copies are
remembered, so a scope that is met again is not copied again; a scope is remembered once the scopes around it are
copied. The bindings of a table are copied in any order, and on the order depends which functions share a copy.

The copying of a scope goes outwards first and then into the functions of its table. Outwards the scopes' numbers
decrease, and into a table it goes only after one more scope is remembered, so the square of the number of scopes bounds
the depth.
-/
import Ouroboros.Machine.Core

namespace Ouroboros

namespace Snapshot

/-- what is copied from and to: the scope at which copying stops, what stands in its place, the order in which tables are
copied, the store, and which scope is a copy of which -/
structure Copying where
  stop : ScopeId
  base : ScopeId
  order : CopyOrder
  store : Store
  copies : List (ScopeId × ScopeId)

/-- how a scope is copied: gives the number of the copy -/
abbrev Copy := ScopeId → Copying → ScopeId × Copying

/-- a value as it stands in a copied scope -/
def value (copy : Copy) (v : Value) (c : Copying) : Value × Copying :=
  match v with
  | .function f =>
    let (scope, c) := copy f.scope c
    (.function { f with scope }, c)
  | v => (v, c)

/-- a list in another order; `place` says where an element goes, by the number of those behind it -/
def arranged {α : Type} (place : Nat → Nat) : List α → List α
  | [] => []
  | a :: rest => (arranged place rest).insertIdx (place rest.length % (rest.length + 1)) a

/-- the bindings of a table, in the order in which they are copied next -/
def Copying.arrange (c : Copying) (t : Table) : Table := arranged (c.order c.copies.length) t

/-- the bindings of a scope, copied one after the other into the scope `target` -/
def table (copy : Copy) (target : ScopeId) : Table → Copying → Copying
  | [], c => c
  | (name, v) :: rest, c =>
    let (v, c) := value copy v c
    table copy target rest { c with store := c.store.define target name v }

/-- copies a scope, with `copy` for the scopes that it leads to -/
def scopeWith (copy : Copy) : Copy := fun id c =>
  if id = c.stop then (c.base, c)
  else
    match c.copies.lookup id, c.store.scopes[id]? with
    | some done, _ => (done, c)
    | none, none => (c.base, c)
    | none, some scope =>
      let (parent, c) :=
        match scope.parent with
        | some p => copy p c
        | none => (c.base, c)
      let (target, store) := c.store.push (some parent)
      (target, table copy target (c.arrange scope.table) { c with store, copies := (id, target) :: c.copies })

/-- copies a scope, going at most `depth` steps away from it -/
def scopeWithin : Nat → Copy
  | 0 => fun _ c => (c.base, c)
  | depth + 1 => scopeWith (scopeWithin depth)

/-- a depth that no copying exceeds -/
def depth (s : Store) : Nat := (s.scopes.size + 1) * (s.scopes.size + 1)

/-- a copy of a value in the world: scopes are copied up to `stop`, in whose place `base` stands -/
def take (stop base : ScopeId) (order : CopyOrder) (v : Value) (s : Store) : Value × Store :=
  let (v, c) := value (scopeWithin (depth s)) v ⟨stop, base, order, s, []⟩
  (v, c.store)

end Snapshot

namespace Eval

/-- the builtin of a new interpreter with the name of another builtin -/
def rebound (core : ScopeId) (b : Builtin) (s : Store) : Value := (s.lookup? core b.name).getD (.builtin b)

/-- what a new interpreter has in the place of a function: a copy of a declared function, or its own builtin -/
def transfer (stop base : ScopeId) (order : CopyOrder) (v : Value) (s : Store) : Value × Store :=
  match v with
  | .builtin b => (rebound base b s, s)
  | v => Snapshot.take stop base order v s

/-- schedules a function with a new interpreter, unless no more work is taken; gives whether none is -/
def schedule (f : Value) : Eval Bool := Action.exchange fun m =>
  let path := m.interpreter.path
  let (child, w) := m.world.newInterpreter m.interpreter.limit (false :: path)
  let (work, store) := transfer m.interpreter.core child.core (w.orders path) f w.store
  let w := { w with store }
  let jobs := if w.closed then w.jobs else w.jobs ++ [⟨child, work, f.callName⟩]
  (w.closed, { m with
    interpreter := { m.interpreter with path := true :: path }
    world := { w with jobs } })

/-- leaves a function to a new interpreter, which will call it once the session is closed -/
def spawn (f : Value) : Eval Unit := do
  let closed ← schedule f
  if closed then raise .spawnClosed
  else log fun _ => ⟨text "spawn scheduled", []⟩

end Eval

end Ouroboros
