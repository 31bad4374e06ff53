/-
What operations on scopes leave alone.

A store keeps the scopes of another (`Store.Kept`) when they are there as they were; new scopes may have come. Opening a
scope, binding names in a new one, and copying scopes for spawned work keep all scopes. Binding a name in a scope changes
what this scope binds the name to and nothing else.
-/
import Ouroboros.Proofs.Snapshot.Copying

namespace Ouroboros

theorem Table.lookup_insert (t : Table) (name other : Bytes) (v : Value) :
    (t.insert name v).lookup other = if name = other then some v else t.lookup other := by
  induction t with
  | nil =>
    by_cases h : name = other
    · simp [insert, h]
    · have hne : (other == name) = false := by simpa using Ne.symm h
      simp [insert, List.lookup_cons, h, hne]
  | cons b t ih =>
    rcases b with ⟨first, w⟩
    by_cases hname : first = name
    · subst hname
      by_cases hother : first = other
      · simp [insert, hother]
      · have hne : (other == first) = false := by simpa using Ne.symm hother
        simp [insert, List.lookup_cons, hother, hne]
    · by_cases hother : first = other
      · subst hother
        simp [insert, hname, Ne.symm hname]
      · have hne : (other == first) = false := by simpa using Ne.symm hother
        simp [insert, List.lookup_cons, hname, hne, ih]

namespace Store

variable {s s' s'' : Store}

/-- scopes may have come to a store, and those that were there stayed as they were -/
structure Kept (s s' : Store) : Prop where
  size : s.scopes.size ≤ s'.scopes.size
  scopes : ∀ i < s.scopes.size, s'.scopes[i]? = s.scopes[i]?

theorem Kept.refl (s : Store) : s.Kept s := ⟨Nat.le_refl _, fun _ _ => rfl⟩

theorem Kept.trans (h : s.Kept s') (h' : s'.Kept s'') : s.Kept s'' := by
  refine ⟨Nat.le_trans h.size h'.size, fun i hi => ?_⟩
  rw [h'.scopes i (Nat.lt_of_lt_of_le hi h.size), h.scopes i hi]

@[simp] theorem size_push (s : Store) (parent : Option ScopeId) :
    (s.push parent).2.scopes.size = s.scopes.size + 1 := by
  simp [push]

theorem getElem?_push (s : Store) (parent : Option ScopeId) (i : ScopeId) :
    (s.push parent).2.scopes[i]? = if i = s.scopes.size then some ⟨parent, []⟩ else s.scopes[i]? := by
  simp only [push, Array.getElem?_push]

theorem Kept.push (h : s.Kept s') (parent : Option ScopeId) : s.Kept (s'.push parent).2 := by
  refine ⟨?_, fun i hi => ?_⟩
  · rw [size_push]
    exact Nat.le_succ_of_le h.size
  · have hne : i ≠ s'.scopes.size := Nat.ne_of_lt (Nat.lt_of_lt_of_le hi h.size)
    rw [getElem?_push, if_neg hne, h.scopes i hi]

/-- a binding in a new scope -/
theorem Kept.define {id : ScopeId} (h : s.Kept s') (hid : s.scopes.size ≤ id) (name : Bytes) (v : Value) :
    s.Kept (s'.define id name v) := by
  refine ⟨?_, fun i hi => ?_⟩
  · rw [Snapshot.size_define]
    exact h.size
  · have hne : id ≠ i := (Nat.ne_of_lt (Nat.lt_of_lt_of_le hi hid)).symm
    rw [Snapshot.getElem?_define, if_neg hne, h.scopes i hi]

theorem Kept.bound? (h : s.Kept s') {i : ScopeId} (hi : i < s.scopes.size) (name : Bytes) :
    s'.bound? i name = s.bound? i name := by
  rw [Store.bound?, Store.bound?, h.scopes i hi]

theorem Kept.parent? (h : s.Kept s') {i : ScopeId} (hi : i < s.scopes.size) : s'.parent? i = s.parent? i := by
  rw [Store.parent?, Store.parent?, h.scopes i hi]

theorem bound?_define (s : Store) (id i : ScopeId) (name other : Bytes) (v : Value) :
    (s.define id name v).bound? i other =
      if id = i ∧ name = other ∧ i < s.scopes.size then some v else s.bound? i other := by
  simp only [bound?, Snapshot.getElem?_define]
  by_cases hid : id = i
  · subst hid
    by_cases hsize : id < s.scopes.size
    · simp [hsize, Table.lookup_insert]
    · simp [hsize]
  · simp [hid]

theorem parent?_define (s : Store) (id i : ScopeId) (name : Bytes) (v : Value) :
    (s.define id name v).parent? i = s.parent? i := by
  simp only [parent?, Snapshot.getElem?_define]
  by_cases hid : id = i
  · subst hid
    rw [if_pos rfl]
    cases s.scopes[id]? <;> rfl
  · rw [if_neg hid]

end Store

/-! ## Spawned work -/

namespace Snapshot

variable {s : Store}

/-- copying leaves the scopes of `s` alone -/
def Spares (s : Store) (copy : Copy) : Prop := ∀ id c, s.Kept c.store → s.Kept (copy id c).2.store

theorem value_spares {copy : Copy} (hcopy : Spares s copy) (v : Value) (c : Copying) (h : s.Kept c.store) :
    s.Kept (value copy v c).2.store := by
  cases v with
  | function f => exact hcopy f.scope c h
  | unit | number | string | bool | builtin | range | unknown => exact h

theorem table_spares {copy : Copy} (hcopy : Spares s copy) {target : ScopeId} (htarget : s.scopes.size ≤ target)
    (t : Table) (c : Copying) (h : s.Kept c.store) : s.Kept (table copy target t c).store := by
  induction t generalizing c with
  | nil => exact h
  | cons b t ih => exact ih _ ((value_spares hcopy b.2 c h).define htarget _ _)

theorem scopeWith_spares {copy : Copy} (hcopy : Spares s copy) : Spares s (scopeWith copy) := by
  intro id c h
  by_cases hstop : id = c.stop
  · rwa [scopeWith, if_pos hstop]
  cases hlookup : c.copies.lookup id with
  | some t => simpa only [scopeWith, if_neg hstop, hlookup] using h
  | none =>
    cases hscope : c.store.scopes[id]? with
    | none => simpa only [scopeWith, if_neg hstop, hlookup, hscope] using h
    | some scope =>
      rw [scopeWith_new hstop hlookup hscope]
      have haround : s.Kept (around copy scope.parent c).2.store := by
        cases scope.parent with
        | none => exact h
        | some p => exact hcopy p c h
      exact table_spares hcopy haround.size _ _ (haround.push _)

theorem scopeWithin_spares (n : Nat) : Spares s (scopeWithin n) := by
  induction n with
  | zero => exact fun _ _ h => h
  | succ n ih => exact scopeWith_spares ih

end Snapshot

namespace Eval

theorem transfer_kept (stop base : ScopeId) (order : CopyOrder) (v : Value) (s : Store) :
    s.Kept (transfer stop base order v s).2 := by
  have htake : s.Kept (Snapshot.take stop base order v s).2 :=
    Snapshot.value_spares (Snapshot.scopeWithin_spares (Snapshot.depth s)) v ⟨stop, base, order, s, []⟩ (.refl s)
  cases v with
  | builtin b => exact .refl s
  | unit | number | string | bool | function | range | unknown => exact htake

/-- a new interpreter has two new scopes -/
theorem newInterpreter_kept (w : World) (limit : Int) (path : SpawnPath) :
    w.store.Kept (w.newInterpreter limit path).2.store := by
  refine ⟨?_, fun i hi => ?_⟩
  · simp only [World.newInterpreter, Store.pushCore, Array.size_push]
    omega
  · have hne : i ≠ w.store.scopes.size := Nat.ne_of_lt hi
    have hne' : i ≠ w.store.scopes.size + 1 := Nat.ne_of_lt (Nat.lt_succ_of_lt hi)
    simp [World.newInterpreter, Store.pushCore, Array.getElem?_push, hne, hne']

/-- the store after a new interpreter was made and took over a function -/
def spawned (f : Value) (m : Machine) : Store :=
  let path := m.interpreter.path
  let (child, w) := m.world.newInterpreter m.interpreter.limit (false :: path)
  (transfer m.interpreter.core child.core (w.orders path) f w.store).2

theorem spawned_kept (f : Value) (m : Machine) : m.world.store.Kept (spawned f m) :=
  (newInterpreter_kept m.world m.interpreter.limit (false :: m.interpreter.path)).trans (transfer_kept _ _ _ f _)

end Eval

end Ouroboros
