/-
Copying ends.

The scopes that spawned work sees are copied by tasks that change nothing in the machine. From a well-formed store they come
to an end and give what copying with the bound of `Snapshot.take` gives (`Eval.ends_copying`): outwards the numbers of
scopes decrease, and into a table copying goes only when one more scope is remembered.
-/
import Ouroboros.Proofs.Execution.Settling

namespace Ouroboros

variable {α β : Type}

/-- with enough effort the course gives `a`, and does nothing -/
def Ends (x : Nat → Course α) (a : α) : Prop := ∃ N, ∀ n, N ≤ n → ∀ m, x n m = some (.ok a, [])

namespace Ends

variable {x : Nat → Course α} {a : α}

theorem pure (a : α) : Ends (fun _ => Pure.pure a) a := ⟨0, fun _ _ _ => rfl⟩

theorem bind {k : Nat → α → Course β} {b : β} (hx : Ends x a) (hk : Ends (fun n => k n a) b) :
    Ends (fun n => x n >>= k n) b := by
  obtain ⟨N, hN⟩ := hx
  obtain ⟨N', hN'⟩ := hk
  refine ⟨max N N', fun n hn m => ?_⟩
  change Course.bind (x n) (k n) m = _
  rw [Course.bind, hN n (Nat.le_trans (Nat.le_max_left N N') hn) m]
  simp only [performAll_nil, hN' n (Nat.le_trans (Nat.le_max_right N N') hn), Option.map_some, List.nil_append]

theorem task (t : Eval.Task) {a : t.Answer} (h : Ends (fun n => t.expand (Eval.Task.runWithin n)) a) :
    Ends (fun n => Eval.Task.runWithin n t) a := by
  obtain ⟨N, hN⟩ := h
  refine ⟨N + 1, fun n hn m => ?_⟩
  obtain ⟨n, rfl⟩ : ∃ i, n = i + 1 := ⟨n - 1, by omega⟩
  exact hN n (Nat.le_of_succ_le_succ hn) m

theorem settles (h : Ends x a) {c : Site} {k : Nat} : Settles c k (fun _ _ => True) x (Pure.pure a) := by
  obtain ⟨N, hN⟩ := h
  intro m hm hk
  exact ⟨⟨N, [], fun n hn => hN n hn m, rfl, trivial⟩, hm, Nat.le_refl _, fun _ _ => trivial⟩

end Ends

namespace Eval

open Snapshot

variable {s : Store}

/-- copying the scopes of `s` ends when at least `known` is remembered, and gives what `copy` gives -/
def EndsCopying (s : Store) (copy : Copy) (known : List (ScopeId × ScopeId)) : Prop :=
  ∀ (c : Copying) (id : ScopeId), Over s c → known <:+ c.copies → id < s.scopes.size →
    Ends (fun n => Task.runWithin n (.copy id c)) (copy id c)

theorem ends_copyTable {copy : Copy} {known : List (ScopeId × ScopeId)} (hcopy : Copies s copy known)
    (hends : EndsCopying s copy known) {target : ScopeId} (htarget : s.scopes.size ≤ target) (t : Table)
    (ht : ∀ b ∈ t, b.2.Within s.scopes.size) {c : Copying} (hc : Over s c) (hknown : known <:+ c.copies) :
    Ends (fun n => Course.copyTable (Task.runWithin n) target t c) (table copy target t c) := by
  induction t generalizing c with
  | nil => exact .pure c
  | cons b t ih =>
    obtain ⟨name, v⟩ := b
    rw [List.forall_mem_cons] at ht
    -- the binding goes into a copy, so the scopes of the store stay
    have hrest : ∀ {c' : Copying} {new : List (ScopeId × ScopeId)} (v' : Value), Grows c c' new → Kept c c' →
        Ends (fun n => Course.copyTable (Task.runWithin n) target t { c' with store := c'.store.define target name v' })
          (table copy target t { c' with store := c'.store.define target name v' }) := by
      intro c' new v' hgrows hkept
      have hc' : Over s c' := hc.of_kept hkept hgrows.size
      refine ih ht.2 ⟨?_, fun i hi => ?_⟩ (hknown.trans hgrows.suffix)
      · rw [size_define]
        exact hc'.size
      · have hne : target ≠ i := (Nat.ne_of_lt (Nat.lt_of_lt_of_le hi htarget)).symm
        rw [getElem?_define, if_neg hne, hc'.kept i hi]
    cases v with
    | function f =>
      have hscope : f.scope < s.scopes.size := ht.1 f rfl
      obtain ⟨new, hcopied⟩ := hcopy c f.scope hc hknown hscope
      exact (hends c f.scope hc hknown hscope).bind (hrest _ hcopied.grows hcopied.kept)
    | unit | number | string | bool | builtin | range | unknown => exact hrest _ (.refl c) fun _ _ => rfl

theorem ends_copyAround {copy : Copy} {c : Copying} {parent : Option ScopeId}
    (h : ∀ p, parent = some p → Ends (fun n => Task.runWithin n (.copy p c)) (copy p c)) :
    Ends (fun n => Course.copyAround (Task.runWithin n) parent c) (around copy parent c) := by
  cases parent with
  | none => exact .pure _
  | some p => exact h p rfl

/-- a scope that is not remembered, when the scopes that it leads to are copied -/
theorem ends_copy_new (hs : s.WellFormed) {depth : Nat} {c : Copying} {id : ScopeId} {scope : Scope}
    (ih : ∀ c id, Over s c → id < s.scopes.size → depthFor s c id ≤ depth →
      Ends (fun n => Task.runWithin n (.copy id c)) (scopeWithin depth id c))
    (hc : Over s c) (hid : id < s.scopes.size) (hdepth : depthFor s c id ≤ depth + 1)
    (hlookup : c.copies.lookup id = none) (hscope : s.scopes[id]? = some scope) :
    Ends (fun n => do
        let r ← Course.copyAround (Task.runWithin n) scope.parent c
        let c ← Course.copyTable (Task.runWithin n) r.2.store.scopes.size (r.2.arrange scope.table) (opened id r)
        return (r.2.store.scopes.size, c))
      ((around (scopeWithin depth) scope.parent c).2.store.scopes.size,
        table (scopeWithin depth) (around (scopeWithin depth) scope.parent c).2.store.scopes.size
          ((around (scopeWithin depth) scope.parent c).2.arrange scope.table)
          (opened id (around (scopeWithin depth) scope.parent c))) := by
  have houtward : ∀ p, scope.parent = some p → p < s.scopes.size ∧ depthFor s c p ≤ depth := by
    intro p hp
    have hlt := hs.parent hscope hp
    exact ⟨Nat.lt_trans hlt hid, depthFor_outward hlt hdepth⟩
  have haround : Ends (fun n => Course.copyAround (Task.runWithin n) scope.parent c)
      (around (scopeWithin depth) scope.parent c) :=
    ends_copyAround fun p hp => ih c p hc (houtward p hp).1 (houtward p hp).2
  obtain ⟨new, hsurrounded⟩ : ∃ new, Surrounded s c scope.parent (around (scopeWithin depth) scope.parent c) new :=
    exists_surrounded fun p hp => scopeWithin_copied hs depth c p hc (houtward p hp).1 (houtward p hp).2
  generalize around (scopeWithin depth) scope.parent c = r at haround hsurrounded
  have hgrows : Grows c (opened id r) ((id, r.2.store.scopes.size) :: new) := hsurrounded.grows.trans grows_opened
  have hbefore : Over s r.2 := hc.of_kept hsurrounded.kept hsurrounded.grows.size
  have hopened : Over s (opened id r) := hbefore.of_kept kept_opened grows_opened.size
  have hinward : ∀ (c' : Copying) (id' : ScopeId), (opened id r).copies <:+ c'.copies → id' < s.scopes.size →
      depthFor s c' id' ≤ depth := by
    intro c' id' hknown hid'
    have hmem : id ∈ c'.copies.map Prod.fst :=
      List.map_subset Prod.fst hknown.subset (List.mem_map.mpr ⟨_, List.mem_cons_self, rfl⟩)
    exact depthFor_le (card_unknown_lt (hgrows.suffix.trans hknown) hid hlookup hmem) hid' hdepth
  have hcopy : Copies s (scopeWithin depth) (opened id r).copies := fun c' id' hc' hknown hid' =>
    scopeWithin_copied hs depth c' id' hc' hid' (hinward c' id' hknown hid')
  have hends : EndsCopying s (scopeWithin depth) (opened id r).copies := fun c' id' hc' hknown hid' =>
    ih c' id' hc' hid' (hinward c' id' hknown hid')
  have hwithin : ∀ b ∈ r.2.arrange scope.table, b.2.Within s.scopes.size := by
    rintro ⟨name, v⟩ hb f rfl
    exact hs.function hscope ((r.2.arrange_perm scope.table).mem_iff.mp hb)
  refine haround.bind ?_
  exact (ends_copyTable hcopy hends hbefore.size _ hwithin hopened List.suffix_rfl).bind (.pure _)

/-- the induction is on the depth, which is never met -/
theorem ends_copy (hs : s.WellFormed) (depth : Nat) (c : Copying) (id : ScopeId) (hc : Over s c)
    (hid : id < s.scopes.size) (hdepth : depthFor s c id ≤ depth) :
    Ends (fun n => Task.runWithin n (.copy id c)) (scopeWithin depth id c) := by
  induction depth generalizing c id with
  | zero => exact absurd hdepth (Nat.not_succ_le_zero _)
  | succ depth ih =>
    refine .task (.copy id c) ?_
    rw [scopeWithin]
    simp only [Task.expand, Course.copy]
    by_cases hstop : id = c.stop
    · simp only [scopeWith, if_pos hstop]
      exact .pure _
    cases hlookup : c.copies.lookup id with
    | some t =>
      simp only [scopeWith, if_neg hstop, hlookup]
      exact .pure _
    | none =>
      obtain ⟨scope, hscope⟩ : ∃ scope, s.scopes[id]? = some scope := ⟨_, Array.getElem?_eq_getElem hid⟩
      have hscope' : c.store.scopes[id]? = some scope := by rw [hc.kept id hid, hscope]
      rw [scopeWith_new hstop hlookup hscope']
      simp only [if_neg hstop, hscope']
      exact ends_copy_new hs ih hc hid hdepth hlookup hscope

/-- **Copying ends.** Copying a scope for spawned work ends, and gives what it gives within the bound on the depth. -/
theorem ends_copying {m : Machine} (hm : m.world.store.WellFormed) {id : ScopeId} (hid : id < m.size) :
    Ends (fun n => Task.runWithin n (.copy id (copying m)))
      (scopeWithin (depth (copying m).store) id (copying m)) := by
  have hs : (copying m).store.WellFormed := hm.pushCore
  have hsize : m.size ≤ (copying m).store.scopes.size :=
    (newInterpreter_kept m.world m.interpreter.limit (false :: m.interpreter.path)).size
  have hlt : id < (copying m).store.scopes.size := Nat.lt_of_lt_of_le hid hsize
  exact ends_copy hs _ _ _ ⟨Nat.le_refl _, fun _ _ => rfl⟩ hlt (depthFor_le_depth hlt)

end Eval

end Ouroboros
