/-
Scopes: tables of names, each with the scope around it.

All scopes lie in one store and are known by their numbers. A new scope gets the next number, so the scopes around a
scope have smaller numbers, and the chain from a scope outwards ends. `chain` lists it; the binding of a name that a
scope sees is the one held by the first scope of its chain that binds the name.
-/
import Ouroboros.Value

namespace Ouroboros

/-- names with their values, no name twice -/
abbrev Table := List (Bytes × Value)

namespace Table

/-- binds a name, in the place of an earlier binding if there is one -/
def insert (name : Bytes) (v : Value) : Table → Table
  | [] => [(name, v)]
  | (other, w) :: rest => if other = name then (other, v) :: rest else (other, w) :: insert name v rest

end Table

/-- a scope: what it binds, and the scope around it -/
structure Scope where
  parent : Option ScopeId
  table : Table

/-- all scopes, by number -/
structure Store where
  scopes : Array Scope

namespace Store

def empty : Store := ⟨#[]⟩

def push (s : Store) (parent : Option ScopeId) : ScopeId × Store :=
  (s.scopes.size, ⟨s.scopes.push ⟨parent, []⟩⟩)

/-- what the scope itself binds a name to -/
def bound? (s : Store) (id : ScopeId) (name : Bytes) : Option Value :=
  (s.scopes[id]?).bind fun scope => scope.table.lookup name

def parent? (s : Store) (id : ScopeId) : Option ScopeId := (s.scopes[id]?).bind Scope.parent

/-- the first `steps` scopes of the chain from a scope outwards -/
def chainWithin (s : Store) : Nat → ScopeId → List ScopeId
  | 0, _ => []
  | steps + 1, id =>
    id :: match s.parent? id with
      | some p => chainWithin s steps p
      | none => []

/-- the scope and all scopes around it, innermost first -/
def chain (s : Store) (id : ScopeId) : List ScopeId := s.chainWithin (id + 1) id

/-- the scope that holds the binding of a name which `id` sees -/
def owner? (s : Store) (id : ScopeId) (name : Bytes) : Option ScopeId :=
  (s.chain id).find? fun e => (s.bound? e name).isSome

/-- the value of a name as seen from a scope -/
def lookup? (s : Store) (id : ScopeId) (name : Bytes) : Option Value :=
  (s.owner? id name).bind fun e => s.bound? e name

/-- binds a name in the scope itself -/
def define (s : Store) (id : ScopeId) (name : Bytes) (v : Value) : Store :=
  ⟨s.scopes.modify id fun scope => { scope with table := scope.table.insert name v }⟩

/-- gives the binding that `id` sees a new value; nothing when it sees none -/
def set? (s : Store) (id : ScopeId) (name : Bytes) (v : Value) : Option Store :=
  (s.owner? id name).map fun e => s.define e name v

/-- what is said of a name that cannot be set -/
def unsetMessage (name : Bytes) : Bytes := text "undefined variable: " ++ name

end Store

end Ouroboros
