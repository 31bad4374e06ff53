/-
Which binding a scope sees.

A forest of scopes is what comes of opening scopes, binding names in them and setting names (`Store.Forest`). Looking a name
up, finding its owner and setting it are loops from a scope outwards (`walk`): each asks one scope after the other whether
it binds the name. Nothing in a loop says that it ends, so it is bounded by a number of rounds here; in a forest the scope
around a scope came before it, so the rounds suffice and the three loops stop at the same scope (`walk_eq`).

What one change does is said as any other scope of the forest sees it. A binding made in a scope is seen from all scopes
inside it, up to those that bind the name themselves or have a scope in front that does (`Faces`, `lookup?_define`). A name
that is set changes for all scopes that share its owner, and for no others, and owners stay who they are (`lookup?_set`).
-/
import Ouroboros.Proofs.Execution.WellFormed

namespace Ouroboros

namespace Store

/-- the stores that are built scope by scope: a new scope is outermost or inside one that is there, and names are bound in
scopes that are there or set -/
inductive Forest : Store → Prop where
  | empty : Forest .empty
  | push {s : Store} (h : Forest s) {parent : Option ScopeId} (hp : ∀ p, parent = some p → p < s.scopes.size) :
    Forest (s.push parent).2
  | define {s : Store} (h : Forest s) {id : ScopeId} (hid : id < s.scopes.size) (name : Bytes) (v : Value) :
    Forest (s.define id name v)
  | set {s s' : Store} (h : Forest s) {id : ScopeId} {name : Bytes} {v : Value} (hset : s.set? id name v = some s') :
    Forest s'

/-- a binding of the name in `outer` is what `id` would see: `outer` is the scope itself or one around it, and no scope in
front of it binds the name -/
inductive Faces (s : Store) (name : Bytes) (outer : ScopeId) : ScopeId → Prop where
  | here : Faces s name outer outer
  | outward {id p : ScopeId} (hbound : s.bound? id name = none) (hp : s.parent? id = some p) (h : Faces s name outer p) :
    Faces s name outer id

/-! ## Loops -/

section Loops

variable {α : Type}

/-- a loop over the scopes from one outwards, with the rounds that it may take: the first scope that binds the name ends it
with what `hit` makes of the scope, the value and the store, and `miss` is its result when there is none -/
def walk (name : Bytes) (hit : ScopeId → Value → Store → α × Store) (miss : α) :
    Nat → Option ScopeId → Store → Option (α × Store)
  | 0, _, _ => none
  | _ + 1, none, s => some (miss, s)
  | rounds + 1, some id, s =>
    match s.bound? id name with
    | some v => some (hit id v s)
    | none => walk name hit miss rounds (s.parent? id) s

/-- looks a name up -/
def lookupWalk (name : Bytes) : Nat → Option ScopeId → Store → Option (Option Value × Store) :=
  walk name (fun _ v s => (some v, s)) none

/-- finds the scope whose binding of a name is seen -/
def ownerWalk (name : Bytes) : Nat → Option ScopeId → Store → Option (Option ScopeId × Store) :=
  walk name (fun id _ s => (some id, s)) none

/-- sets a name; gives the message when that cannot be done -/
def setWalk (name : Bytes) (v : Value) : Nat → Option ScopeId → Store → Option (Option Bytes × Store) :=
  walk name (fun id _ s => (none, s.define id name v)) (some (unsetMessage name))

end Loops

/-! ## Forests -/

variable {s s' : Store} {id outer e : ScopeId} {x y : Bytes} {v : Value}

theorem Ordered.define (h : s.Ordered) (id : ScopeId) (name : Bytes) (v : Value) : (s.define id name v).Ordered := by
  intro i p hp
  rw [parent?_define] at hp
  exact h hp

/-- what is set is bound in the owner -/
theorem exists_owner_of_set? (h : s.set? id x v = some s') :
    ∃ owner, s.owner? id x = some owner ∧ s.define owner x v = s' := Option.map_eq_some_iff.1 h

/-- in a forest the scope around a scope came before it -/
theorem Forest.ordered (h : s.Forest) : s.Ordered := by
  induction h with
  | empty =>
    intro id p hp
    simp [parent?, Store.empty] at hp
  | @push s _ parent hparent ih =>
    intro id p hp
    rw [parent?, getElem?_push] at hp
    split at hp
    · rename_i hid
      rw [hid]
      exact hparent p hp
    · exact ih hp
  | define _ _ name v ih => exact ih.define _ name v
  | set _ hset ih =>
    obtain ⟨owner, -, rfl⟩ := exists_owner_of_set? hset
    exact ih.define owner _ _

/-! ## Owners -/

theorem lt_of_bound? (h : (s.bound? id x).isSome) : id < s.scopes.size := by
  by_contra hid
  simp [bound?, Array.getElem?_eq_none (Nat.le_of_not_lt hid)] at h

/-- a name has an owner and is seen, or neither -/
theorem owner_cases (s : Store) (id : ScopeId) (x : Bytes) : (s.owner? id x = none ∧ s.lookup? id x = none) ∨
    ∃ owner v, s.owner? id x = some owner ∧ s.lookup? id x = some v := by
  cases howner : s.owner? id x with
  | none => exact .inl ⟨rfl, by rw [lookup?, howner]; rfl⟩
  | some owner =>
    obtain ⟨v, hv⟩ := Option.isSome_iff_exists.1 (bound?_owner howner)
    exact .inr ⟨owner, v, rfl, by rw [lookup?, howner]; exact hv⟩

/-- the owner of a name is the scope that faces and binds it -/
theorem owner?_eq_some_iff (h : s.Ordered) : s.owner? id x = some outer ↔ s.Faces x outer id ∧ (s.bound? outer x).isSome := by
  constructor
  · intro howner
    refine ⟨?_, bound?_owner howner⟩
    induction id using Nat.strong_induction_on with
    | _ id ih =>
      rw [owner?_eq h] at howner
      cases hbound : s.bound? id x with
      | some v =>
        rw [hbound] at howner
        obtain rfl := Option.some.inj howner
        exact .here
      | none =>
        rw [hbound] at howner
        cases hp : s.parent? id with
        | none =>
          rw [hp] at howner
          cases howner
        | some p =>
          rw [hp] at howner
          exact .outward hbound hp (ih p (h hp) howner)
  · rintro ⟨hfaces, hbound⟩
    induction hfaces with
    | here => rw [owner?_eq h, if_pos hbound]
    | outward hnone hp _ ih =>
      rw [owner?_eq h, hnone, hp]
      exact ih

/-- **Loops end.** From a scope outwards there are no more rounds than its number says, and a loop stops at the owner. -/
theorem walk_eq {α : Type} (h : s.Ordered) (hit : ScopeId → Value → Store → α × Store) (miss : α) {rounds : Nat}
    (hrounds : id + 1 < rounds) : walk x hit miss rounds (some id) s =
      some (match s.owner? id x, s.lookup? id x with
        | some owner, some v => hit owner v s
        | _, _ => (miss, s)) := by
  induction rounds generalizing id with
  | zero => exact absurd hrounds (Nat.not_lt_zero _)
  | succ rounds ih =>
    have hid : id < rounds := Nat.lt_of_succ_lt_succ hrounds
    rw [walk, lookup?, owner?_eq h]
    cases hbound : s.bound? id x with
    | some v => simp [hbound]
    | none =>
      cases hp : s.parent? id with
      | none =>
        obtain ⟨rounds, rfl⟩ := Nat.exists_eq_succ_of_ne_zero (Nat.ne_zero_of_lt hid)
        rfl
      | some p => exact ih (Nat.lt_of_le_of_lt (h hp) hid)

/-! ## What changes show -/

/-- a new binding owns the name for the scopes that face it, and other owners stay -/
theorem owner?_define (h : s.Ordered) (he : e < s.scopes.size) (id : ScopeId) :
    (y = x ∧ s.Faces x e id → (s.define e x v).owner? id y = some e) ∧
    (¬(y = x ∧ s.Faces x e id) → (s.define e x v).owner? id y = s.owner? id y) := by
  have hbound (i : ScopeId) (other : Bytes) := bound?_define s e i x other v
  constructor
  · rintro ⟨rfl, hfaces⟩
    have hfaces' : (s.define e y v).Faces y e id := by
      induction hfaces with
      | here => exact .here
      | @outward id p hnone hp _ ih =>
        by_cases hid : e = id
        · exact hid ▸ .here
        · refine .outward ?_ (by rw [parent?_define, hp]) ih
          rw [hbound, if_neg (by tauto), hnone]
    refine (owner?_eq_some_iff (h.define e y v)).2 ⟨hfaces', ?_⟩
    rw [hbound, if_pos ⟨rfl, rfl, he⟩]
    rfl
  · induction id using Nat.strong_induction_on with
    | _ id ih =>
      intro hnot
      have hsame : (s.define e x v).bound? id y = s.bound? id y := by
        rw [hbound, if_neg]
        rintro ⟨rfl, rfl, -⟩
        exact hnot ⟨rfl, .here⟩
      rw [owner?_eq (h.define e x v), owner?_eq h, hsame, parent?_define]
      cases hb : s.bound? id y with
      | some w => rfl
      | none =>
        cases hp : s.parent? id with
        | none => rfl
        | some p =>
          refine ih p (h hp) ?_
          rintro ⟨rfl, hfaces⟩
          exact hnot ⟨rfl, .outward hb hp hfaces⟩

/-- **A binding as other scopes see it.** -/
theorem lookup?_define (h : s.Ordered) (he : e < s.scopes.size) (id : ScopeId) :
    (y = x ∧ s.Faces x e id → (s.define e x v).lookup? id y = some v) ∧
    (¬(y = x ∧ s.Faces x e id) → (s.define e x v).lookup? id y = s.lookup? id y) := by
  obtain ⟨hnew, hold⟩ := owner?_define (y := y) (x := x) (v := v) h he id
  constructor
  · rintro ⟨rfl, hfaces⟩
    rw [lookup?, hnew ⟨rfl, hfaces⟩, Option.bind_some, bound?_define, if_pos ⟨rfl, rfl, he⟩]
  · intro hnot
    rw [lookup?, lookup?, hold hnot]
    cases howner : s.owner? id y with
    | none => rfl
    | some owner =>
      rw [Option.bind_some, Option.bind_some, bound?_define, if_neg]
      -- the scope with the new binding would face the name if it owned it before
      rintro ⟨rfl, rfl, -⟩
      exact hnot ⟨rfl, ((owner?_eq_some_iff h).1 howner).1⟩

/-- the scopes that face the owner of a name are those that share it -/
theorem faces_owner_iff (h : s.Ordered) (howner : s.owner? e x = some outer) (id : ScopeId) :
    s.Faces x outer id ↔ s.owner? id x = s.owner? e x := by
  rw [howner, owner?_eq_some_iff h, and_iff_left (bound?_owner howner)]

/-- **A name that is set, as other scopes see it.** No owner changes. -/
theorem lookup?_set (h : s.Ordered) (hset : s.set? e x v = some s') (id : ScopeId) :
    (y = x ∧ s.owner? id x = s.owner? e x → s'.lookup? id y = some v) ∧
    (¬(y = x ∧ s.owner? id x = s.owner? e x) → s'.lookup? id y = s.lookup? id y) ∧
    s'.owner? id y = s.owner? id y := by
  obtain ⟨owner, howner, rfl⟩ := exists_owner_of_set? hset
  have hsize := lt_of_bound? (bound?_owner howner)
  obtain ⟨hnew, hold⟩ := lookup?_define (y := y) (x := x) (v := v) h hsize id
  obtain ⟨hnew', hold'⟩ := owner?_define (y := y) (x := x) (v := v) h hsize id
  rw [faces_owner_iff h howner] at hnew hold hnew' hold'
  refine ⟨hnew, hold, ?_⟩
  by_cases hshared : y = x ∧ s.owner? id x = s.owner? e x
  · rw [hnew' hshared, hshared.1, hshared.2, howner]
  · exact hold' hshared

/-! ## What loops find -/

section Found

variable {rounds : Nat}

theorem lookupWalk_eq (h : s.Ordered) (x : Bytes) (hrounds : id + 1 < rounds) :
    lookupWalk x rounds (some id) s = some (s.lookup? id x, s) := by
  rw [lookupWalk, walk_eq h _ _ hrounds]
  rcases owner_cases s id x with ⟨howner, hlookup⟩ | ⟨owner, w, howner, hlookup⟩ <;> rw [howner, hlookup]

theorem ownerWalk_eq (h : s.Ordered) (x : Bytes) (hrounds : id + 1 < rounds) :
    ownerWalk x rounds (some id) s = some (s.owner? id x, s) := by
  rw [ownerWalk, walk_eq h _ _ hrounds]
  rcases owner_cases s id x with ⟨howner, hlookup⟩ | ⟨owner, w, howner, hlookup⟩ <;> rw [howner, hlookup]

/-- the loop that sets a name changes nothing unless it comes to an owner -/
theorem setWalk_eq (h : s.Ordered) (x : Bytes) (v : Value) (hrounds : id + 1 < rounds) :
    setWalk x v rounds (some id) s = some (match s.set? id x v with
      | some s' => (none, s')
      | none => (some (unsetMessage x), s)) := by
  rw [setWalk, walk_eq h _ _ hrounds, set?]
  rcases owner_cases s id x with ⟨howner, hlookup⟩ | ⟨owner, w, howner, hlookup⟩ <;> rw [howner, hlookup] <;> rfl

end Found

/-- a name can be set exactly if it is seen, and is seen exactly if it has an owner -/
theorem isSome_set? (s : Store) (e : ScopeId) (x : Bytes) (v : Value) :
    (s.set? e x v).isSome = (s.lookup? e x).isSome ∧ (s.lookup? e x).isSome = (s.owner? e x).isSome := by
  rcases owner_cases s e x with ⟨howner, hlookup⟩ | ⟨owner, w, howner, hlookup⟩ <;>
    simp [set?, howner, hlookup]

/-- **Scopes are nested stores.** In every forest the loops that look up, find the owner and set end, with what `lookup?`,
`owner?` and `set?` say; a loop that cannot set leaves the store as it is. A name can be set from a scope exactly if it is
seen from there, and it is seen exactly if it has an owner. After it was set, all scopes see the new value that see the name
in the same owner, nothing else is seen differently from any scope, and no owner has changed. After a name was bound in a
scope, the new value is seen from the scope and from those inside it that do not bind the name, nor have a scope in between
that does; nothing else is seen differently. -/
theorem Forest.nested_stores (h : s.Forest) (he : e < s.scopes.size) (id : ScopeId) (x y : Bytes) (v : Value) :
    (∀ rounds, id + 1 < rounds → lookupWalk y rounds (some id) s = some (s.lookup? id y, s) ∧
      ownerWalk y rounds (some id) s = some (s.owner? id y, s)) ∧
    (∀ rounds, e + 1 < rounds → setWalk x v rounds (some e) s = some (match s.set? e x v with
      | some s' => (none, s')
      | none => (some (unsetMessage x), s))) ∧
    ((s.set? e x v).isSome = (s.lookup? e x).isSome ∧ (s.lookup? e x).isSome = (s.owner? e x).isSome) ∧
    (∀ s', s.set? e x v = some s' → s'.Forest ∧
      (y = x ∧ s.owner? id x = s.owner? e x → s'.lookup? id y = some v) ∧
      (¬(y = x ∧ s.owner? id x = s.owner? e x) → s'.lookup? id y = s.lookup? id y) ∧
      s'.owner? id y = s.owner? id y) ∧
    ((s.define e x v).Forest ∧
      (y = x ∧ s.Faces x e id → (s.define e x v).lookup? id y = some v) ∧
      (¬(y = x ∧ s.Faces x e id) → (s.define e x v).lookup? id y = s.lookup? id y)) := by
  have hordered : s.Ordered := h.ordered
  refine ⟨fun rounds hrounds => ⟨lookupWalk_eq hordered y hrounds, ownerWalk_eq hordered y hrounds⟩,
    fun rounds hrounds => setWalk_eq hordered x v hrounds, isSome_set? s e x v, ?_, ?_⟩
  · intro s' hset
    exact ⟨h.set hset, lookup?_set hordered hset id⟩
  · exact ⟨h.define he x v, lookup?_define hordered he id⟩

/-- an outermost scope that binds a name, and two scopes inside it, of which the second binds the name as well -/
def siblings : Store :=
  ((((empty.push none).2.define 0 (text "x") .unit).push (some 0)).2.push (some 0)).2.define 2 (text "x") (.bool true)

theorem forest_siblings : siblings.Forest := by
  refine .define (.push (.push (.define (.push .empty ?_) ?_ _ _) ?_) ?_) ?_ _ _
  · rintro p ⟨⟩
  · decide
  · rintro p ⟨⟩
    decide
  · rintro p ⟨⟩
    decide
  · decide

/-- the name is set from the first of the two: the outermost scope sees it, the other one keeps its own -/
theorem Forest.nested_stores_siblings : siblings.Forest ∧ 1 < siblings.scopes.size ∧
    ∃ s', siblings.set? 1 (text "x") (.bool false) = some s' ∧ s'.lookup? 0 (text "x") = some (.bool false) ∧
      s'.lookup? 2 (text "x") = some (.bool true) := by
  have h₀ := forest_siblings.nested_stores (e := 1) (by decide) 0 (text "x") (text "x") (.bool false)
  have h₂ := forest_siblings.nested_stores (e := 1) (by decide) 2 (text "x") (text "x") (.bool false)
  have hset : siblings.set? 1 (text "x") (.bool false) = some (siblings.define 0 (text "x") (.bool false)) := rfl
  refine ⟨forest_siblings, by decide, _, hset, (h₀.2.2.2.1 _ hset).2.1 ⟨rfl, rfl⟩, ?_⟩
  exact ((h₂.2.2.2.1 _ hset).2.2.1 (by decide)).trans rfl

end Store

end Ouroboros
