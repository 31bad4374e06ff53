/-
What copying keeps of all that scopes hold.

Copies for spawned work are made of scopes that are opened inside others and of values that scopes hold already, functions
among them with another scope. So what is said of a store stays true when functions are copied, as long as opening a scope
and binding such values keep it so (`Snapshot.Invariant`).
-/
import Ouroboros.Proofs.Scopes

namespace Ouroboros

namespace Snapshot

/-- what `I` says of a store bears opening scopes inside others and binding values as `P` says, and the values that scopes
hold are so, also with another scope -/
structure Invariant (I : Store → Prop) (P : Value → Prop) : Prop where
  held : ∀ {s : Store} {i : ScopeId} {scope : Scope} {b : Bytes × Value}, I s → s.scopes[i]? = some scope →
    b ∈ scope.table → P b.2
  push : ∀ {s : Store} (parent : ScopeId), I s → I (s.push (some parent)).2
  define : ∀ {s : Store} {v : Value} (target : ScopeId) (name : Bytes), I s → P v → I (s.define target name v)
  copied : ∀ {f : Closure} (scope : ScopeId), P (.function f) → P (.function { f with scope })

namespace Invariant

variable {I : Store → Prop} {P : Value → Prop}

/-- copying keeps what is said of the store -/
def Bears (I : Store → Prop) (copy : Copy) : Prop := ∀ id c, I c.store → I (copy id c).2.store

theorem value (h : Invariant I P) {copy : Copy} (hcopy : Bears I copy) {v : Value} (hv : P v) {c : Copying}
    (hc : I c.store) : I (Snapshot.value copy v c).2.store ∧ P (Snapshot.value copy v c).1 := by
  cases v with
  | function f => exact ⟨hcopy f.scope c hc, h.copied _ hv⟩
  | unit | number | string | bool | builtin | range | unknown => exact ⟨hc, hv⟩

theorem table (h : Invariant I P) {copy : Copy} (hcopy : Bears I copy) (target : ScopeId) {t : Table}
    (ht : ∀ b ∈ t, P b.2) {c : Copying} (hc : I c.store) : I (Snapshot.table copy target t c).store := by
  induction t generalizing c with
  | nil => exact hc
  | cons b t ih =>
    rw [List.forall_mem_cons] at ht
    obtain ⟨hstore, hvalue⟩ := h.value hcopy ht.1 hc
    exact ih ht.2 (h.define target b.1 hstore hvalue)

theorem scopeWith (h : Invariant I P) {copy : Copy} (hcopy : Bears I copy) : Bears I (Snapshot.scopeWith copy) := by
  intro id c hc
  by_cases hstop : id = c.stop
  · rwa [Snapshot.scopeWith, if_pos hstop]
  cases hlookup : c.copies.lookup id with
  | some t => simpa only [Snapshot.scopeWith, if_neg hstop, hlookup] using hc
  | none =>
    cases hscope : c.store.scopes[id]? with
    | none => simpa only [Snapshot.scopeWith, if_neg hstop, hlookup, hscope] using hc
    | some scope =>
      rw [scopeWith_new hstop hlookup hscope]
      have haround : I (around copy scope.parent c).2.store := by
        cases scope.parent with
        | none => exact hc
        | some p => exact hcopy p c hc
      refine h.table hcopy _ (fun b hb => h.held hc hscope ?_) (h.push _ haround)
      exact ((around copy scope.parent c).2.arrange_perm scope.table).mem_iff.mp hb

theorem scopeWithin (h : Invariant I P) (n : Nat) : Bears I (Snapshot.scopeWithin n) := by
  induction n with
  | zero => exact fun _ _ hc => hc
  | succ n ih => exact h.scopeWith ih

end Invariant

end Snapshot

namespace Eval

variable {I : Store → Prop} {P : Value → Prop}

/-- what a new interpreter takes over -/
theorem transfer_bears (h : Snapshot.Invariant I P) (stop base : ScopeId) (order : CopyOrder) {s : Store} (hs : I s)
    {v : Value} : I (transfer stop base order v s).2 := by
  cases v with
  | function f => exact h.scopeWithin (Snapshot.depth s) f.scope ⟨stop, base, order, s, []⟩ hs
  | unit | number | string | bool | builtin | range | unknown => exact hs

theorem spawned_bears (h : Snapshot.Invariant I P) {m : Machine} (hm : I m.world.store.pushCore.2.2) (v : Value) :
    I (spawned v m) := transfer_bears h _ _ _ hm

end Eval

end Ouroboros
