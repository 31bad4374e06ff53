/-
When a snapshot shares scopes as the original does.

`IsCopy` says that a snapshot of a function is an isomorphic copy: a map takes the scopes that the function sees, one to
one, to new scopes with the same names, and what the copies refer to is what the map gives. Then functions that share a
scope have copies that share one. All is said for every order in which the bindings of tables are copied.

Results:
- `exists_isCopy_of_tame`: a snapshot is an isomorphic copy when no scope seen is reached from the scope around it, that
  is, when no function has got out of the scopes in which it was declared;
- `not_isCopy_of_reaches`: it is none when one of the scopes around the function leads back to a scope inside it;
- `take_isCopy_iff`: it is one if and only if no scope was copied twice while it was taken.
-/
import Ouroboros.Proofs.Snapshot.Copying

namespace Ouroboros

namespace Snapshot

/-! ## Isomorphic copies -/

/-- what a map of scopes puts in the place of a scope; the new builtins take the place of the old ones -/
def placed (stop base : ScopeId) (φ : ScopeId → ScopeId) (id : ScopeId) : ScopeId := if id = stop then base else φ id

/-- what it puts in the place of a value -/
def placedValue (stop base : ScopeId) (φ : ScopeId → ScopeId) : Value → Value
  | .function f => .function { f with scope := placed stop base φ f.scope }
  | v => v

/-- what it puts in the place of a scope with its bindings -/
def placedScope (stop base : ScopeId) (φ : ScopeId → ScopeId) (scope : Scope) : Scope where
  parent := some (scope.parent.elim base (placed stop base φ))
  table := scope.table.map fun b => (b.1, placedValue stop base φ b.2)

/-- the same scope, but for the order of its bindings -/
def SameScope (scope scope' : Scope) : Prop := scope.parent = scope'.parent ∧ scope.table.Perm scope'.table

/-- the function sees the scope, itself or through other functions -/
def Sees (s : Store) (stop : ScopeId) (f : Closure) (id : ScopeId) : Prop := f.scope ≠ stop ∧ Reaches s stop f.scope id

/-- `φ` takes what the function sees to the copies in `r`, which holds the copy of the function and the store -/
structure IsCopy (s : Store) (stop base : ScopeId) (f : Closure) (r : Value × Store) (φ : ScopeId → ScopeId) : Prop where
  value : r.1 = placedValue stop base φ (.function f)
  injective : ∀ id id', Sees s stop f id → Sees s stop f id' → φ id = φ id' → id = id'
  fresh : ∀ id, Sees s stop f id → s.scopes.size ≤ φ id
  scope : ∀ id scope, Sees s stop f id → s.scopes[id]? = some scope →
    ∃ copy, r.2.scopes[φ id]? = some copy ∧ SameScope copy (placedScope stop base φ scope)
  kept : ∀ id < s.scopes.size, r.2.scopes[id]? = s.scopes[id]?

/-- the scopes that are copied for a function, once for each copy -/
def copied (stop base : ScopeId) (order : CopyOrder) (f : Closure) (s : Store) : List ScopeId :=
  (scopeWithin (depth s) f.scope ⟨stop, base, order, s, []⟩).2.copies.map Prod.fst

section Runs

variable {s : Store} {c : Copying} {id : ScopeId} {r : ScopeId × Copying} {new : List (ScopeId × ScopeId)}

theorem Copied.copies_eq (h : Copied s c id r new) (hempty : c.copies = []) : r.2.copies = new := by
  rw [h.grows.copies, hempty, List.append_nil]

/-- what stands for a scope other than the builtins is a copy -/
theorem Copied.mem_of_stands (h : Copied s c id r new) (hempty : c.copies = []) {x t : ScopeId} (hx : x ≠ c.stop)
    (hstands : r.2.Stands x t) : (x, t) ∈ new := by
  rcases hstands with ⟨hstop, -⟩ | ⟨-, hmem⟩
  · rw [h.grows.stop] at hstop
    exact absurd hstop hx
  · rwa [h.copies_eq hempty] at hmem

/-- a binding of a function has a copy among the bindings that stand for it -/
theorem exists_bound {c : Copying} {t t' : Table} (h : c.Binds t t') {name : Bytes} {f : Closure}
    (hf : (name, Value.function f) ∈ t) : ∃ scope, c.Stands f.scope scope := by
  induction h with
  | nil => cases hf
  | @cons a b t t' hab _ ih =>
    rcases List.mem_cons.1 hf with rfl | hf
    · obtain ⟨-, hvalue⟩ := hab
      generalize b.2 = v at hvalue
      cases hvalue with
      | function h => exact ⟨_, h⟩
      | other h => exact absurd rfl (h f)
    · exact ih hf

/-- **Completeness.** When nothing is remembered, all that is reached is copied. -/
theorem Copied.exists_mem (h : Copied s c id r new) (hempty : c.copies = []) (hne : id ≠ c.stop) {x : ScopeId}
    (hx : Reaches s c.stop id x) : ∃ t, (x, t) ∈ new := by
  induction hx with
  | refl => exact ⟨r.1, h.mem_of_stands hempty hne h.stands⟩
  | tail _ hstep ih =>
    obtain ⟨t, ht⟩ := ih
    obtain ⟨-, scope, parent, source, table, hscope, -, hparent, hperm, htable⟩ := h.faithful _ ht
    cases hstep with
    | around h' hp hpstop =>
      rw [hscope] at h'
      cases h'
      rw [hp] at hparent
      exact ⟨parent, h.mem_of_stands hempty hpstop hparent⟩
    | bound h' hf hfstop =>
      rw [hscope] at h'
      cases h'
      obtain ⟨t', ht'⟩ := exists_bound htable (hperm.mem_iff.mpr hf)
      exact ⟨t', h.mem_of_stands hempty hfstop ht'⟩

end Runs

/-! ## From copies to a map -/

section Maps

variable {s : Store} {stop base : ScopeId} {order : CopyOrder} {f : Closure} {r : ScopeId × Copying}
  {new : List (ScopeId × ScopeId)}

/-- the last copy of a scope -/
def copyOf (new : List (ScopeId × ScopeId)) (id : ScopeId) : ScopeId := (new.lookup id).getD 0

theorem copyOf_eq (hnodup : (new.map Prod.fst).Nodup) {x : ScopeId × ScopeId} (hx : x ∈ new) : copyOf new x.1 = x.2 := by
  rw [copyOf, lookup_of_mem hnodup hx, Option.getD_some]

/-- without repetitions, what stands for a scope is what the map of the copies puts in its place -/
theorem Copied.placed_of_stands (h : Copied s ⟨stop, base, order, s, []⟩ f.scope r new) (hnodup : (new.map Prod.fst).Nodup)
    {id t : ScopeId} (hstands : r.2.Stands id t) : t = placed stop base (copyOf new) id := by
  by_cases hid : id = stop
  · rcases hstands with ⟨-, ht⟩ | ⟨hne, -⟩
    · rw [placed, if_pos hid, ht, h.grows.base]
    · rw [h.grows.stop] at hne
      exact absurd hid hne
  · have hmem := h.mem_of_stands rfl hid hstands
    rw [placed, if_neg hid, copyOf_eq hnodup hmem]

theorem Copied.placedValue_of_standsFor (h : Copied s ⟨stop, base, order, s, []⟩ f.scope r new)
    (hnodup : (new.map Prod.fst).Nodup) {v v' : Value} (hstands : r.2.StandsFor v v') :
    v' = placedValue stop base (copyOf new) v := by
  cases hstands with
  | function hscope => rw [placedValue, ← h.placed_of_stands hnodup hscope]
  | other hne =>
    cases v with
    | function g => exact absurd rfl (hne g)
    | unit | number | string | bool | builtin | range | unknown => rfl

theorem Copied.table_eq (h : Copied s ⟨stop, base, order, s, []⟩ f.scope r new) (hnodup : (new.map Prod.fst).Nodup)
    {t t' : Table} (hbinds : r.2.Binds t t') :
    t' = t.map fun b => (b.1, placedValue stop base (copyOf new) b.2) := by
  induction hbinds with
  | nil => rfl
  | @cons a b t t' hab _ ih =>
    have hb : b = (a.1, placedValue stop base (copyOf new) a.2) :=
      Prod.ext hab.1 (h.placedValue_of_standsFor hnodup hab.2)
    rw [List.map_cons, ← ih, hb]

/-- **No repetitions.** When no scope was copied twice, the copies are an isomorphic copy. -/
theorem Copied.isCopy (h : Copied s ⟨stop, base, order, s, []⟩ f.scope r new) (hnodup : (new.map Prod.fst).Nodup) :
    IsCopy s stop base f (.function { f with scope := r.1 }, r.2.store) (copyOf new) := by
  have hmem : ∀ id, Sees s stop f id → (id, copyOf new id) ∈ new := by
    intro id hid
    obtain ⟨t, ht⟩ := h.exists_mem rfl hid.1 hid.2
    rwa [copyOf_eq hnodup ht]
  refine ⟨?_, ?_, ?_, ?_, h.kept⟩
  · rw [placedValue, ← h.placed_of_stands hnodup h.stands]
  · intro id id' hid hid' heq
    have hsame := List.inj_on_of_nodup_map h.grows.nodup (hmem id hid) (hmem id' hid') heq
    exact congrArg Prod.fst hsame
  · intro id hid
    exact (h.grows.range _ (hmem id hid)).1
  · intro id scope hid hscope
    obtain ⟨-, scope', parent, source, table, hscope', hcopy, hparent, hperm, htable⟩ := h.faithful _ (hmem id hid)
    obtain rfl : scope = scope' := Option.some.inj (hscope.symm.trans hscope')
    have hparent' : parent = scope.parent.elim base (placed stop base (copyOf new)) := by
      cases hp : scope.parent with
      | none =>
        rw [hp] at hparent
        exact Eq.trans hparent h.grows.base
      | some p =>
        rw [hp] at hparent
        exact h.placed_of_stands hnodup hparent
    refine ⟨_, hcopy, congrArg some hparent', ?_⟩
    rw [h.table_eq hnodup htable]
    exact hperm.map _

/-! ## From a map to copies -/

/-- an isomorphism takes what is reached in the store to what is reached in the same way in the copies -/
theorem IsCopy.eq_of_linked {s' : Store} {root : ScopeId} {φ : ScopeId → ScopeId} (hs : s.WellFormed)
    (h : IsCopy s stop base f (.function { f with scope := root }, s') φ) (hne : f.scope ≠ stop) {x : ScopeId × ScopeId}
    (hx : Linked s s' stop (f.scope, root) x) : Sees s stop f x.1 ∧ x.2 = φ x.1 := by
  induction hx with
  | refl =>
    have hvalue := h.value
    rw [placedValue, placed, if_neg hne] at hvalue
    refine ⟨⟨hne, .refl⟩, ?_⟩
    injection hvalue with hclosure
    exact congrArg Closure.scope hclosure
  | tail _ hstep ih =>
    obtain ⟨hsees, ht⟩ := ih
    cases hstep with
    | @around id t p p' scope scope' hscope hscope' hp hp' hpstop =>
      obtain ⟨copy, hcopy, hparent, -⟩ := h.scope id scope hsees hscope
      have ht' : t = φ id := ht
      rw [← ht'] at hcopy
      obtain rfl : scope' = copy := Option.some.inj (hscope'.symm.trans hcopy)
      refine ⟨⟨hne, hsees.2.tail (.around hscope hp hpstop)⟩, ?_⟩
      rw [hparent, placedScope, hp, Option.elim_some, placed, if_neg hpstop] at hp'
      exact (Option.some.inj hp').symm
    | @bound id t scope scope' name g g' hscope hscope' hg hg' hgstop =>
      obtain ⟨copy, hcopy, -, htable⟩ := h.scope id scope hsees hscope
      have ht' : t = φ id := ht
      rw [← ht'] at hcopy
      obtain rfl : scope' = copy := Option.some.inj (hscope'.symm.trans hcopy)
      refine ⟨⟨hne, hsees.2.tail (.bound hscope hg hgstop)⟩, ?_⟩
      obtain ⟨b, hb, heq⟩ := List.mem_map.1 (htable.mem_iff.mp hg')
      -- a name has one binding
      have hname : b.1 = name := congrArg Prod.fst heq
      have hb' : b = (name, Value.function g) := List.inj_on_of_nodup_map (hs.names hscope) hb hg hname
      rw [hb', placedValue, placed, if_neg hgstop] at heq
      injection heq with _ hvalue
      injection hvalue with hclosure
      exact (congrArg Closure.scope hclosure).symm

/-- **No map.** When there is an isomorphic copy, no scope was copied twice. -/
theorem Copied.nodup_of_isCopy (hs : s.WellFormed) (h : Copied s ⟨stop, base, order, s, []⟩ f.scope r new)
    {φ : ScopeId → ScopeId} (hcopy : IsCopy s stop base f (.function { f with scope := r.1 }, r.2.store) φ) :
    (new.map Prod.fst).Nodup := by
  have hmap : new.map Prod.snd = (new.map Prod.fst).map φ := by
    rw [List.map_map]
    refine List.map_congr_left fun x hx => ?_
    exact (hcopy.eq_of_linked hs (h.linked x hx).1 (h.linked x hx).2).2
  have hnodup := h.grows.nodup
  rw [hmap] at hnodup
  exact List.Nodup.of_map φ hnodup

end Maps

/-! ## Snapshots -/

section Snapshots

variable {s : Store} {stop base : ScopeId} {order : CopyOrder} {f : Closure}

/-- what taking a snapshot gives, with the copies made -/
theorem exists_copied_take (hs : s.WellFormed) (hf : f.scope < s.scopes.size) (stop base : ScopeId) (order : CopyOrder) :
    ∃ r new, Copied s ⟨stop, base, order, s, []⟩ f.scope r new ∧ new.map Prod.fst = copied stop base order f s ∧
      take stop base order (.function f) s = (.function { f with scope := r.1 }, r.2.store) := by
  obtain ⟨new, h⟩ := exists_copied hs stop base order hf
  refine ⟨_, new, h, ?_, rfl⟩
  rw [copied, h.copies_eq rfl]

/-- **Safe functions.** The snapshot is an isomorphic copy when no scope that the function sees is reached from the scope
around it. -/
theorem exists_isCopy_of_tame (hs : s.WellFormed) (hf : f.scope < s.scopes.size) (htame : Tame s stop f.scope) :
    ∃ φ, IsCopy s stop base f (take stop base order (.function f) s) φ := by
  obtain ⟨r, new, h, -, htake⟩ := exists_copied_take hs hf stop base order
  rw [htake]
  have hnodup := h.once (fun _ => htame) List.nodup_nil
  rw [h.copies_eq rfl] at hnodup
  exact ⟨copyOf new, h.isCopy hnodup⟩

/-- the second scope is around the first, or the scope itself, and nearer than `stop` -/
abbrev Surrounds (s : Store) (stop : ScopeId) : ScopeId → ScopeId → Prop :=
  Relation.ReflTransGen fun id p => p ≠ stop ∧ s.parent? id = some p

/-- without repetitions no scope around the first one leads back to a scope inside it -/
theorem not_reaches_of_nodup (hs : s.WellFormed) (n : Nat) (c : Copying) (id : ScopeId) (hc : Over s c)
    (hid : id < s.scopes.size) (hn : depthFor s c id ≤ n) (hempty : c.copies = []) (hne : id ≠ c.stop)
    (hnodup : ((scopeWithin n id c).2.copies.map Prod.fst).Nodup) {x p : ScopeId} (hx : Surrounds s c.stop id x)
    (hp : s.parent? x = some p) (hpstop : p ≠ c.stop) : ¬Reaches s c.stop p x := by
  induction n generalizing id with
  | zero => exact absurd hn (Nat.not_succ_le_zero _)
  | succ n ih =>
    have hlookup : c.copies.lookup id = none := by rw [hempty]; rfl
    obtain ⟨scope, hscope⟩ : ∃ scope, s.scopes[id]? = some scope := ⟨_, Array.getElem?_eq_getElem hid⟩
    have hparent : s.parent? id = scope.parent := by rw [Store.parent?, hscope]; rfl
    obtain ⟨r, new, new', bindings, hr, h, h'⟩ :=
      scopeWithin_new hs (scopeWithin_copied hs n) hc hid hn hlookup hscope
    rw [scopeWithin, scopeWith_new hne hlookup (by rw [hc.kept id hid, hscope]), ← hr] at hnodup
    have hopened : ((opened id r).copies.map Prod.fst).Nodup :=
      hnodup.sublist (h'.grows.suffix.sublist.map Prod.fst)
    obtain ⟨hfresh, hbefore⟩ := List.nodup_cons.1 hopened
    -- the scope around this one, copied when nothing was remembered
    have houtward : ∀ q, s.parent? id = some q → q < id ∧ r = scopeWithin n q c := by
      intro q hq
      rw [hparent] at hq
      refine ⟨hs.parent hscope hq, ?_⟩
      rw [hr, hq]
      rfl
    rcases Relation.ReflTransGen.cases_head hx with rfl | ⟨q, ⟨hqstop, hq⟩, hqx⟩
    · obtain ⟨hlt, hrun⟩ := houtward p hp
      obtain ⟨new₁, h₁⟩ := scopeWithin_copied hs n c p hc (Nat.lt_trans hlt hid) (depthFor_outward hlt hn)
      intro hback
      obtain ⟨t, ht⟩ := h₁.exists_mem hempty hpstop hback
      rw [hrun, h₁.copies_eq hempty] at hfresh
      exact hfresh (List.mem_map.2 ⟨_, ht, rfl⟩)
    · obtain ⟨hlt, hrun⟩ := houtward q hq
      rw [hrun] at hbefore
      exact ih q (Nat.lt_trans hlt hid) (depthFor_outward hlt hn) hqstop hbefore hqx

/-- **Unsafe functions.** The snapshot is not an isomorphic copy when a scope around the function, or its own, is reached
from the scope around it. -/
theorem not_isCopy_of_reaches (hs : s.WellFormed) (hf : f.scope < s.scopes.size) (hne : f.scope ≠ stop) {x p : ScopeId}
    (hx : Surrounds s stop f.scope x) (hp : s.parent? x = some p) (hpstop : p ≠ stop) (hback : Reaches s stop p x) :
    ¬∃ φ, IsCopy s stop base f (take stop base order (.function f) s) φ := by
  rintro ⟨φ, hφ⟩
  obtain ⟨r, new, h, hcopied, htake⟩ := exists_copied_take hs hf stop base order
  rw [htake] at hφ
  have hnodup := h.nodup_of_isCopy hs hφ
  rw [hcopied] at hnodup
  have hover : Over s ⟨stop, base, order, s, []⟩ := ⟨Nat.le_refl _, fun _ _ => rfl⟩
  exact not_reaches_of_nodup hs _ _ f.scope hover hf (depthFor_le_depth hf) rfl hne hnodup hx hp hpstop hback

/-- **Sharing.** In whatever order tables are copied, the snapshot of a function is an isomorphic copy of what the function
sees exactly when no scope was copied twice while it was taken. This is so when no scope seen is reached from the scope
around it, and it is not so when that happens to one of the scopes around the function. -/
theorem take_isCopy_iff (s : Store) (stop base : ScopeId) (order : CopyOrder) (f : Closure) (hs : s.WellFormed)
    (hf : f.scope < s.scopes.size) :
    ((∃ φ, IsCopy s stop base f (take stop base order (.function f) s) φ) ↔ (copied stop base order f s).Nodup) ∧
    (Tame s stop f.scope → ∃ φ, IsCopy s stop base f (take stop base order (.function f) s) φ) ∧
    ∀ x p, f.scope ≠ stop → Surrounds s stop f.scope x → s.parent? x = some p → p ≠ stop → Reaches s stop p x →
      ¬∃ φ, IsCopy s stop base f (take stop base order (.function f) s) φ := by
  refine ⟨?_, exists_isCopy_of_tame hs hf, fun x p hne hx hp hpstop => not_isCopy_of_reaches hs hf hne hx hp hpstop⟩
  obtain ⟨r, new, h, hcopied, htake⟩ := exists_copied_take hs hf stop base order
  rw [htake, ← hcopied]
  constructor
  · rintro ⟨φ, hφ⟩
    exact h.nodup_of_isCopy hs hφ
  · intro hnodup
    exact ⟨copyOf new, h.isCopy hnodup⟩

/-- a function without parameters that does nothing, declared in the scope `id` -/
def idleIn (id : ScopeId) : Closure := ⟨⟨text "f", [], none, false, false⟩, [], id⟩

/-- a function of the block 2 is bound in the scope 1 around it; 0 and 3 are the places of the builtins -/
def escaped : Store := ⟨#[⟨none, []⟩, ⟨some 0, [(text "get", .function (idleIn 2))]⟩,
  ⟨some 1, [(text "x", .bool true), (text "show", .function (idleIn 2))]⟩, ⟨none, []⟩]⟩

theorem wellFormed_escaped : escaped.WellFormed := by
  refine ⟨?_, ?_, ?_⟩
  · rintro (_ | _ | _ | _ | id) scope p h hp <;> cases h <;> cases hp <;> decide
  · rintro (_ | _ | _ | _ | id) scope name g h hg <;> cases h
    · cases hg
    · cases List.mem_singleton.1 hg
      decide
    · rcases List.mem_cons.1 hg with hg | hg
      · cases hg
      · cases List.mem_singleton.1 hg
        decide
    · cases hg
  · rintro (_ | _ | _ | _ | id) scope h <;> cases h <;> decide

/-- seen from the outer scope, the snapshot is a copy; seen from the block, the block is copied twice -/
theorem take_isCopy_iff_escaped :
    (∃ φ, IsCopy escaped 0 3 (idleIn 1) (take 0 3 (fun _ _ => 0) (.function (idleIn 1)) escaped) φ) ∧
    ¬∃ φ, IsCopy escaped 0 3 (idleIn 2) (take 0 3 (fun _ _ => 0) (.function (idleIn 2)) escaped) φ := by
  have houter := (take_isCopy_iff escaped 0 3 (fun _ _ => 0) (idleIn 1) wellFormed_escaped (by decide)).1
  have hinner := (take_isCopy_iff escaped 0 3 (fun _ _ => 0) (idleIn 2) wellFormed_escaped (by decide)).1
  rw [houter, hinner]
  decide +kernel

end Snapshots

end Snapshot

end Ouroboros
