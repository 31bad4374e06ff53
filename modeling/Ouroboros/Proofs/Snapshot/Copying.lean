/-
What copying scopes does to a store.

`Copied` says what one call that copies a scope gives: the scopes that were there stay as they are, and the new ones are
listed, each with the scope that it is a copy of. A copy has the names of its original in some order, and what it refers
to stands for what the original refers to; and every new scope is reached from the copy asked for just as its original
is reached from the scope copied. `exists_copied` shows this for every scope of a well-formed store: the bound on the
depth is never met, since outwards the numbers of scopes decrease, and into a table copying goes only when one more scope
is remembered.

A scope can be copied twice, namely when it is met again while the scopes around it are being copied, and then the
second copy takes the place of the first among those remembered. The list of new scopes has both.
-/
import Mathlib.Data.Finset.Card
import Mathlib.Logic.Relation
import Ouroboros.Machine.Snapshot

namespace Ouroboros

/-! ## Bindings that are found -/

theorem mem_of_lookup {κ β : Type} [BEq κ] [LawfulBEq κ] {l : List (κ × β)} {k : κ} {v : β}
    (h : l.lookup k = some v) : (k, v) ∈ l := by
  obtain ⟨before, behind, hsplit, -⟩ := List.lookup_eq_some_iff.mp h
  rw [hsplit]
  exact List.mem_append_right before List.mem_cons_self

theorem lookup_of_mem {κ β : Type} [BEq κ] [LawfulBEq κ] {l : List (κ × β)} (hnodup : (l.map Prod.fst).Nodup) {k : κ}
    {v : β} (h : (k, v) ∈ l) : l.lookup k = some v := by
  have hsome : (l.lookup k).isSome = true := List.lookup_isSome_iff.2 ⟨(k, v), h, by simp⟩
  obtain ⟨w, hw⟩ := Option.isSome_iff_exists.1 hsome
  have heq : (k, w) = (k, v) := List.inj_on_of_nodup_map hnodup (mem_of_lookup hw) h rfl
  rw [hw, (Prod.mk.inj heq).2]

/-- where every name is bound once, the order of the bindings does not matter -/
theorem lookup_perm {κ β : Type} [BEq κ] [LawfulBEq κ] {l l' : List (κ × β)} (h : l.Perm l')
    (hnodup : (l.map Prod.fst).Nodup) (k : κ) : l'.lookup k = l.lookup k := by
  have hnodup' : (l'.map Prod.fst).Nodup := (h.map Prod.fst).nodup_iff.mp hnodup
  refine Option.ext fun v => ⟨fun hv => ?_, fun hv => ?_⟩
  · exact lookup_of_mem hnodup (h.mem_iff.mpr (mem_of_lookup hv))
  · exact lookup_of_mem hnodup' (h.mem_iff.mp (mem_of_lookup hv))

theorem Store.exists_mem_of_bound? {s : Store} {i : ScopeId} {name : Bytes} {v : Value}
    (h : s.bound? i name = some v) : ∃ scope, s.scopes[i]? = some scope ∧ (name, v) ∈ scope.table := by
  obtain ⟨scope, hscope, hlookup⟩ := Option.bind_eq_some_iff.mp h
  exact ⟨scope, hscope, mem_of_lookup hlookup⟩

/-! ## Scopes that lead to each other -/

/-- the scope around a scope has a smaller number, functions see scopes of the store, and no table has a name twice -/
structure Store.WellFormed (s : Store) : Prop where
  parent : ∀ {id : ScopeId} {scope : Scope} {p : ScopeId}, s.scopes[id]? = some scope → scope.parent = some p → p < id
  function : ∀ {id : ScopeId} {scope : Scope} {name : Bytes} {f : Closure}, s.scopes[id]? = some scope →
    (name, Value.function f) ∈ scope.table → f.scope < s.scopes.size
  names : ∀ {id : ScopeId} {scope : Scope}, s.scopes[id]? = some scope → (scope.table.map Prod.fst).Nodup

namespace Snapshot

/-- a scope leads to the scope around it and to those that its functions see, except to `stop` -/
inductive Leads (s : Store) (stop : ScopeId) : ScopeId → ScopeId → Prop where
  | around {id p : ScopeId} {scope : Scope} (h : s.scopes[id]? = some scope) (hp : scope.parent = some p)
    (hne : p ≠ stop) : Leads s stop id p
  | bound {id : ScopeId} {scope : Scope} {name : Bytes} {f : Closure} (h : s.scopes[id]? = some scope)
    (hf : (name, Value.function f) ∈ scope.table) (hne : f.scope ≠ stop) : Leads s stop id f.scope

/-- one scope is reached from another -/
abbrev Reaches (s : Store) (stop : ScopeId) : ScopeId → ScopeId → Prop := Relation.ReflTransGen (Leads s stop)

/-- no scope that is reached is reached from the scope around it -/
def Tame (s : Store) (stop root : ScopeId) : Prop :=
  ∀ (id p : ScopeId) (scope : Scope), Reaches s stop root id → s.scopes[id]? = some scope → scope.parent = some p →
    p ≠ stop → ¬Reaches s stop p id

theorem Tame.of_leads {s : Store} {stop root id : ScopeId} (h : Tame s stop root) (hl : Leads s stop root id) :
    Tame s stop id := by
  intro x p scope hx
  exact h x p scope (hx.head hl)

/-- two scopes, one in each of two stores, lead in the same way to two others -/
inductive Parallel (s s' : Store) (stop : ScopeId) : ScopeId × ScopeId → ScopeId × ScopeId → Prop where
  | around {id t p p' : ScopeId} {scope scope' : Scope} (h : s.scopes[id]? = some scope)
    (h' : s'.scopes[t]? = some scope') (hp : scope.parent = some p) (hp' : scope'.parent = some p') (hne : p ≠ stop) :
    Parallel s s' stop (id, t) (p, p')
  | bound {id t : ScopeId} {scope scope' : Scope} {name : Bytes} {f f' : Closure} (h : s.scopes[id]? = some scope)
    (h' : s'.scopes[t]? = some scope') (hf : (name, Value.function f) ∈ scope.table)
    (hf' : (name, Value.function f') ∈ scope'.table) (hne : f.scope ≠ stop) :
    Parallel s s' stop (id, t) (f.scope, f'.scope)

/-- reached in the same way in two stores -/
abbrev Linked (s s' : Store) (stop : ScopeId) : ScopeId × ScopeId → ScopeId × ScopeId → Prop :=
  Relation.ReflTransGen (Parallel s s' stop)

theorem Linked.reaches {s s' : Store} {stop : ScopeId} {x y : ScopeId × ScopeId} (h : Linked s s' stop x y) :
    Reaches s stop x.1 y.1 := by
  induction h with
  | refl => exact .refl
  | tail _ hstep ih =>
    cases hstep with
    | around h _ hp _ hne => exact ih.tail (.around h hp hne)
    | bound h _ hf _ hne => exact ih.tail (.bound h hf hne)

/-- scopes may have come to a store, and bindings to its scopes -/
def Extends (s s' : Store) : Prop :=
  ∀ (id : ScopeId) (scope : Scope), s.scopes[id]? = some scope →
    ∃ scope', s'.scopes[id]? = some scope' ∧ scope'.parent = scope.parent ∧ ∀ b ∈ scope.table, b ∈ scope'.table

theorem Linked.extend {s s₁ s₂ : Store} {stop : ScopeId} {x y : ScopeId × ScopeId} (h : Linked s s₁ stop x y)
    (he : Extends s₁ s₂) : Linked s s₂ stop x y := by
  refine Relation.ReflTransGen.mono (fun a b hab => ?_) _ _ h
  cases hab with
  | around h h' hp hp' hne =>
    obtain ⟨scope'', h'', hparent, -⟩ := he _ _ h'
    exact .around h h'' hp (by rw [hparent, hp']) hne
  | bound h h' hf hf' hne =>
    obtain ⟨scope'', h'', -, htable⟩ := he _ _ h'
    exact .bound h h'' hf (htable _ hf') hne

/-! ## Copies -/

/-- what stands for a scope: the new builtins for the old ones, and a copy for any other scope -/
def Copying.Stands (c : Copying) (id t : ScopeId) : Prop :=
  (id = c.stop ∧ t = c.base) ∨ (id ≠ c.stop ∧ (id, t) ∈ c.copies)

/-- what stands for the scope around a scope -/
def Copying.StandsAround (c : Copying) : Option ScopeId → ScopeId → Prop
  | none, t => t = c.base
  | some p, t => c.Stands p t

/-- what stands for a value: functions see what stands for the scope that they saw -/
inductive Copying.StandsFor (c : Copying) : Value → Value → Prop where
  | function {f : Closure} {t : ScopeId} (h : c.Stands f.scope t) :
    StandsFor c (.function f) (.function { f with scope := t })
  | other {v : Value} (h : ∀ f, v ≠ .function f) : StandsFor c v v

/-- the bindings of a copy: the same names with what stands for the values -/
abbrev Copying.Binds (c : Copying) : Table → Table → Prop := List.Forall₂ fun a b => b.1 = a.1 ∧ c.StandsFor a.2 b.2

/-- a scope of the store and a copy of it -/
structure Faithful (s : Store) (c : Copying) (x : ScopeId × ScopeId) : Prop where
  ne_stop : x.1 ≠ c.stop
  copy : ∃ scope parent source table, s.scopes[x.1]? = some scope ∧ c.store.scopes[x.2]? = some ⟨some parent, table⟩ ∧
    c.StandsAround scope.parent parent ∧ source.Perm scope.table ∧ c.Binds source table

/-- from `c` to `c'` the copies `new` were made, the last in front -/
structure Grows (c c' : Copying) (new : List (ScopeId × ScopeId)) : Prop where
  stop : c'.stop = c.stop
  base : c'.base = c.base
  copies : c'.copies = new ++ c.copies
  size : c.store.scopes.size ≤ c'.store.scopes.size
  range : ∀ x ∈ new, c.store.scopes.size ≤ x.2 ∧ x.2 < c'.store.scopes.size
  nodup : (new.map Prod.snd).Nodup

/-- the scopes that were there stay as they are, but for `target` -/
def KeptBut (target : ScopeId) (c c' : Copying) : Prop :=
  ∀ i < c.store.scopes.size, i ≠ target → c'.store.scopes[i]? = c.store.scopes[i]?

/-- the scopes that were there stay as they are -/
def Kept (c c' : Copying) : Prop := ∀ i < c.store.scopes.size, c'.store.scopes[i]? = c.store.scopes[i]?

/-- the scopes of the store `s` lie in front of the copies -/
structure Over (s : Store) (c : Copying) : Prop where
  size : s.scopes.size ≤ c.store.scopes.size
  kept : ∀ i < s.scopes.size, c.store.scopes[i]? = s.scopes[i]?

/-- what copying the scope `id` gives: `r` holds what stands for it, and the copies `new` were made -/
structure Copied (s : Store) (c : Copying) (id : ScopeId) (r : ScopeId × Copying) (new : List (ScopeId × ScopeId)) :
    Prop where
  grows : Grows c r.2 new
  kept : Kept c r.2
  stands : r.2.Stands id r.1
  faithful : ∀ x ∈ new, Faithful s r.2 x
  linked : ∀ x ∈ new, id ≠ c.stop ∧ Linked s r.2.store c.stop (id, r.1) x
  once : (id ≠ c.stop → Tame s c.stop id) → (c.copies.map Prod.fst).Nodup → (r.2.copies.map Prod.fst).Nodup

/-- `copy` copies the scopes of `s` when at least `known` is remembered -/
def Copies (s : Store) (copy : Copy) (known : List (ScopeId × ScopeId)) : Prop :=
  ∀ (c : Copying) (id : ScopeId), Over s c → known <:+ c.copies → id < s.scopes.size →
    ∃ new, Copied s c id (copy id c) new

section Growth

variable {s : Store} {c c' c'' : Copying} {new new' : List (ScopeId × ScopeId)}

theorem Grows.refl (c : Copying) : Grows c c [] := ⟨rfl, rfl, rfl, Nat.le_refl _, by simp, by simp⟩

theorem Grows.trans (h : Grows c c' new) (h' : Grows c' c'' new') : Grows c c'' (new' ++ new) := by
  refine ⟨h'.stop.trans h.stop, h'.base.trans h.base, ?_, Nat.le_trans h.size h'.size, ?_, ?_⟩
  · rw [h'.copies, h.copies, List.append_assoc]
  · intro x hx
    rcases List.mem_append.1 hx with hx | hx
    · exact ⟨Nat.le_trans h.size (h'.range x hx).1, (h'.range x hx).2⟩
    · exact ⟨(h.range x hx).1, Nat.lt_of_lt_of_le (h.range x hx).2 h'.size⟩
  · -- the later copies have larger numbers
    rw [List.map_append]
    refine List.nodup_append.2 ⟨h'.nodup, h.nodup, ?_⟩
    intro t ht t' ht' heq
    obtain ⟨x, hx, rfl⟩ := List.mem_map.1 ht
    obtain ⟨y, hy, rfl⟩ := List.mem_map.1 ht'
    have hlow := (h'.range x hx).1
    rw [heq] at hlow
    exact absurd (h.range y hy).2 (Nat.not_lt.2 hlow)

theorem Grows.suffix (h : Grows c c' new) : c.copies <:+ c'.copies := ⟨new, h.copies.symm⟩

theorem Kept.trans (h : Kept c c') (hsize : c.store.scopes.size ≤ c'.store.scopes.size) (h' : Kept c' c'') :
    Kept c c'' := by
  intro i hi
  rw [h' i (Nat.lt_of_lt_of_le hi hsize), h i hi]

theorem Kept.extends (h : Kept c c') : Extends c.store c'.store := by
  intro i scope hscope
  obtain ⟨hi, -⟩ := Array.getElem?_eq_some_iff.1 hscope
  exact ⟨scope, by rw [h i hi, hscope], rfl, fun b hb => hb⟩

theorem Over.of_kept (h : Over s c) (hk : Kept c c') (hsize : c.store.scopes.size ≤ c'.store.scopes.size) :
    Over s c' := by
  refine ⟨Nat.le_trans h.size hsize, ?_⟩
  intro i hi
  rw [hk i (Nat.lt_of_lt_of_le hi h.size), h.kept i hi]

theorem Over.of_keptBut {target : ScopeId} (h : Over s c) (hk : KeptBut target c c')
    (hsize : c.store.scopes.size ≤ c'.store.scopes.size) (ht : s.scopes.size ≤ target) : Over s c' := by
  refine ⟨Nat.le_trans h.size hsize, ?_⟩
  intro i hi
  have hne : i ≠ target := by omega
  rw [hk i (Nat.lt_of_lt_of_le hi h.size) hne, h.kept i hi]

theorem Copying.Stands.mono {id t : ScopeId} (h : c.Stands id t) (hg : Grows c c' new) : c'.Stands id t := by
  rcases h with ⟨hid, ht⟩ | ⟨hid, hmem⟩
  · exact .inl ⟨by rw [hg.stop, hid], by rw [hg.base, ht]⟩
  · refine .inr ⟨by rw [hg.stop]; exact hid, ?_⟩
    rw [hg.copies]
    exact List.mem_append_right _ hmem

theorem Copying.StandsAround.mono {parent : Option ScopeId} {t : ScopeId} (h : c.StandsAround parent t)
    (hg : Grows c c' new) : c'.StandsAround parent t := by
  cases parent with
  | none =>
    have ht : t = c.base := h
    rw [ht, ← hg.base]
    rfl
  | some p => exact Copying.Stands.mono h hg

theorem Copying.StandsFor.mono {v v' : Value} (h : c.StandsFor v v') (hg : Grows c c' new) : c'.StandsFor v v' := by
  cases h with
  | function h => exact .function (h.mono hg)
  | other h => exact .other h

theorem Copying.Binds.mono {t t' : Table} (h : c.Binds t t') (hg : Grows c c' new) : c'.Binds t t' :=
  h.imp fun _ _ hab => ⟨hab.1, hab.2.mono hg⟩

theorem Faithful.mono {x : ScopeId × ScopeId} (h : Faithful s c x) (hg : Grows c c' new)
    (hx : c'.store.scopes[x.2]? = c.store.scopes[x.2]?) : Faithful s c' x := by
  obtain ⟨hne, scope, parent, source, table, hscope, hcopy, hparent, hperm, htable⟩ := h
  exact ⟨by rw [hg.stop]; exact hne, scope, parent, source, table, hscope, by rw [hx, hcopy], hparent.mono hg, hperm,
    htable.mono hg⟩

end Growth

/-! ## Tables -/

theorem arranged_perm {α : Type} (place : Nat → Nat) (l : List α) : (arranged place l).Perm l := by
  induction l with
  | nil => rfl
  | cons a rest ih =>
    have hplace : place rest.length % (rest.length + 1) ≤ (arranged place rest).length := by
      rw [ih.length_eq]
      exact Nat.le_of_lt_succ (Nat.mod_lt _ (Nat.succ_pos _))
    exact (List.perm_insertIdx a _ hplace).trans (ih.cons a)

theorem Copying.arrange_perm (c : Copying) (t : Table) : (c.arrange t).Perm t := arranged_perm _ t

section Tables

variable {s : Store} {c : Copying}

/-- a new name comes last -/
theorem insert_of_not_mem {name : Bytes} {t : Table} (v : Value) (h : name ∉ t.map Prod.fst) :
    t.insert name v = t ++ [(name, v)] := by
  induction t with
  | nil => rfl
  | cons b t ih =>
    obtain ⟨other, w⟩ := b
    simp only [List.map_cons, List.mem_cons, not_or] at h
    rw [Table.insert, if_neg (Ne.symm h.1), ih h.2]
    rfl

theorem getElem?_define (s : Store) (target : ScopeId) (name : Bytes) (v : Value) (i : ScopeId) :
    (s.define target name v).scopes[i]? = if target = i then
      (s.scopes[i]?).map fun scope => { scope with table := scope.table.insert name v } else s.scopes[i]? := by
  rw [Store.define, Array.getElem?_modify]

theorem size_define (s : Store) (target : ScopeId) (name : Bytes) (v : Value) :
    (s.define target name v).scopes.size = s.scopes.size := by
  simp [Store.define]

/-- a binding is no copy -/
theorem grows_define (c : Copying) (target : ScopeId) (name : Bytes) (v : Value) :
    Grows c { c with store := c.store.define target name v } [] :=
  ⟨rfl, rfl, rfl, by simp [size_define], by simp, by simp⟩

theorem Copying.Binds.names {t t' : Table} (h : c.Binds t t') : t'.map Prod.fst = t.map Prod.fst := by
  induction h with
  | nil => rfl
  | cons hab _ ih => rw [List.map_cons, List.map_cons, hab.1, ih]

/-- what copying a value gives -/
structure Carried (s : Store) (c : Copying) (v : Value) (r : Value × Copying) (new : List (ScopeId × ScopeId)) :
    Prop where
  grows : Grows c r.2 new
  kept : Kept c r.2
  stands : r.2.StandsFor v r.1
  faithful : ∀ x ∈ new, Faithful s r.2 x
  linked : ∀ x ∈ new, ∃ f f', v = .function f ∧ r.1 = .function f' ∧ f.scope ≠ c.stop ∧
    Linked s r.2.store c.stop (f.scope, f'.scope) x
  once : (∀ f, v = .function f → f.scope ≠ c.stop → Tame s c.stop f.scope) → (c.copies.map Prod.fst).Nodup →
    (r.2.copies.map Prod.fst).Nodup

theorem value_carried {copy : Copy} {known : List (ScopeId × ScopeId)} (hcopy : Copies s copy known) (hc : Over s c)
    (hknown : known <:+ c.copies) (v : Value) (hv : ∀ f, v = .function f → f.scope < s.scopes.size) :
    ∃ new, Carried s c v (value copy v c) new := by
  have hother : (∀ f, v ≠ .function f) → value copy v c = (v, c) → ∃ new, Carried s c v (value copy v c) new := by
    intro hv heq
    rw [heq]
    exact ⟨[], .refl c, fun _ _ => rfl, .other hv, by simp, by simp, fun _ h => h⟩
  cases v with
  | function f =>
    obtain ⟨new, h⟩ := hcopy c f.scope hc hknown (hv f rfl)
    refine ⟨new, h.grows, h.kept, .function h.stands, h.faithful, ?_, ?_⟩
    · intro x hx
      exact ⟨f, _, rfl, rfl, (h.linked x hx).1, (h.linked x hx).2⟩
    · intro htame
      exact h.once (htame f rfl)
  | unit | number | string | bool | builtin | range | unknown => exact hother nofun rfl

/-- what filling `target`, the copy of the scope `id` with the bindings `source`, gives; `done` are the first of them -/
structure Filled (s : Store) (c : Copying) (id target : ScopeId) (parent : Option ScopeId) (source done : Table)
    (r : Copying) (new : List (ScopeId × ScopeId)) (table : Table) : Prop where
  grows : Grows c r new
  kept : KeptBut target c r
  scope : r.store.scopes[target]? = some ⟨parent, table⟩
  keeps : ∀ b ∈ done, b ∈ table
  binds : r.Binds source table
  faithful : ∀ x ∈ new, Faithful s r x
  linked : ∀ x ∈ new, Linked s r.store c.stop (id, target) x
  once : Tame s c.stop id → (c.copies.map Prod.fst).Nodup → (r.copies.map Prod.fst).Nodup

/-- one binding more -/
theorem Filled.cons {id target : ScopeId} {parent : Option ScopeId} {scope : Scope} {source done table : Table}
    {name : Bytes} {v v' : Value} {c₁ r : Copying} {new₁ new₂ : List (ScopeId × ScopeId)}
    (hscope : s.scopes[id]? = some scope) (hmem : (name, v) ∈ scope.table) (hdone : c.store.scopes[target]? = some ⟨parent, done⟩)
    (h₁ : Carried s c v (v', c₁) new₁)
    (h₂ : Filled s { c₁ with store := c₁.store.define target name v' } id target parent source
      (done ++ [(name, v')]) r new₂ table) :
    Filled s c id target parent source done r (new₂ ++ new₁) table := by
  obtain ⟨htarget, -⟩ := Array.getElem?_eq_some_iff.1 hdone
  have hgrows₁ : Grows c c₁ new₁ := h₁.grows
  have hgrows₂ : Grows c₁ r new₂ := by
    have hall := (grows_define c₁ target name v').trans h₂.grows
    rwa [List.append_nil] at hall
  have hkept₁ : Kept c c₁ := h₁.kept
  -- only the scope that is filled changes behind the value
  have hkept₂ : KeptBut target c₁ r := by
    intro i hi hne
    rw [h₂.kept i (by simpa only [size_define] using hi) hne]
    simp only [getElem?_define, if_neg (Ne.symm hne)]
  have hextends : Extends c₁.store r.store := by
    intro i sc hsc
    obtain ⟨hi, -⟩ := Array.getElem?_eq_some_iff.1 hsc
    by_cases hne : i = target
    · subst hne
      rw [hkept₁ i htarget, hdone] at hsc
      cases hsc
      exact ⟨_, h₂.scope, rfl, fun b hb => h₂.keeps b (List.mem_append_left _ hb)⟩
    · exact ⟨sc, by rw [hkept₂ i hi hne, hsc], rfl, fun b hb => hb⟩
  refine ⟨hgrows₁.trans hgrows₂, ?_, h₂.scope, ?_, h₂.binds, ?_, ?_, ?_⟩
  · intro i hi hne
    rw [hkept₂ i (Nat.lt_of_lt_of_le hi hgrows₁.size) hne, hkept₁ i hi]
  · intro b hb
    exact h₂.keeps b (List.mem_append_left _ hb)
  · intro x hx
    rcases List.mem_append.1 hx with hx | hx
    · exact h₂.faithful x hx
    · have hrange := hgrows₁.range x hx
      have hne : x.2 ≠ target := fun heq => absurd htarget (Nat.not_lt.2 (heq ▸ hrange.1))
      exact (h₁.faithful x hx).mono hgrows₂ (hkept₂ x.2 hrange.2 hne)
  · intro x hx
    rcases List.mem_append.1 hx with hx | hx
    · have hlinked := h₂.linked x hx
      rwa [show c₁.stop = c.stop from hgrows₁.stop] at hlinked
    · obtain ⟨f, f', rfl, rfl, hne, hlinked⟩ := h₁.linked x hx
      have hmem' : (name, Value.function f') ∈ table := h₂.keeps _ (by simp)
      exact (hlinked.extend hextends).head (.bound hscope h₂.scope hmem hmem' hne)
  · intro htame hnodup
    refine h₂.once (by rw [show c₁.stop = c.stop from hgrows₁.stop]; exact htame) (h₁.once ?_ hnodup)
    rintro f rfl hne
    exact htame.of_leads (.bound hscope hmem hne)

/-- **Tables.** Filling a copy with the bindings of a scope gives what stands for them. -/
theorem table_filled (hs : s.WellFormed) {copy : Copy} {known : List (ScopeId × ScopeId)} (hcopy : Copies s copy known)
    {id target : ScopeId} {scope : Scope} (hscope : s.scopes[id]? = some scope) (htarget : s.scopes.size ≤ target)
    {parent : Option ScopeId} {source : Table} (hperm : source.Perm scope.table) (rest before done : Table)
    (hsplit : before ++ rest = source) (hc : Over s c)
    (hknown : known <:+ c.copies) (hdone : c.store.scopes[target]? = some ⟨parent, done⟩)
    (hbinds : c.Binds before done) :
    ∃ new table, Filled s c id target parent source done (Snapshot.table copy target rest c) new table := by
  induction rest generalizing c before done with
  | nil =>
    rw [List.append_nil] at hsplit
    subst hsplit
    exact ⟨[], done, .refl c, fun _ _ _ => rfl, hdone, fun b hb => hb, hbinds, by simp, by simp, fun _ h => h⟩
  | cons b rest ih =>
    obtain ⟨name, v⟩ := b
    have hmem : (name, v) ∈ scope.table := by
      rw [← hperm.mem_iff, ← hsplit]
      simp
    obtain ⟨new₁, h₁⟩ := value_carried hcopy hc hknown v fun f hf => hs.function hscope (hf ▸ hmem)
    rw [Snapshot.table]
    rcases hr : value copy v c with ⟨v', c₁⟩
    rw [hr] at h₁
    have hgrows₁ : Grows c c₁ new₁ := h₁.grows
    have hkept₁ : Kept c c₁ := h₁.kept
    obtain ⟨hlt, -⟩ := Array.getElem?_eq_some_iff.1 hdone
    have hfresh : name ∉ done.map Prod.fst := by
      have hnames := (hperm.map Prod.fst).nodup_iff.2 (hs.names hscope)
      rw [← hsplit, List.map_append, List.map_cons] at hnames
      rw [hbinds.names]
      intro hin
      exact (List.nodup_append.1 hnames).2.2 name hin name List.mem_cons_self rfl
    have hdefine : (c₁.store.define target name v').scopes[target]? = some ⟨parent, done ++ [(name, v')]⟩ := by
      rw [getElem?_define, if_pos rfl, hkept₁ target hlt, hdone, Option.map_some, insert_of_not_mem v' hfresh]
    have hgrows : Grows c { c₁ with store := c₁.store.define target name v' } new₁ :=
      hgrows₁.trans (grows_define c₁ target name v')
    have hkept : KeptBut target c { c₁ with store := c₁.store.define target name v' } := by
      intro i hi hne
      rw [getElem?_define, if_neg (Ne.symm hne), hkept₁ i hi]
    have hbinds' : ({ c₁ with store := c₁.store.define target name v' } : Copying).Binds (before ++ [(name, v)])
        (done ++ [(name, v')]) := by
      refine List.rel_append (hbinds.mono hgrows) (.cons ⟨rfl, ?_⟩ .nil)
      have hstands : c₁.StandsFor v v' := h₁.stands
      exact hstands.mono (grows_define c₁ target name v')
    obtain ⟨new₂, table, h₂⟩ := ih (before ++ [(name, v)]) (done ++ [(name, v')]) (by simpa using hsplit)
      (hc.of_keptBut hkept hgrows.size htarget) (hknown.trans hgrows.suffix) hdefine hbinds'
    exact ⟨new₂ ++ new₁, table, h₂.cons hscope hmem hdone h₁⟩

end Tables

/-! ## Scopes -/

/-- what stands for the scope around a scope, copied -/
def around (copy : Copy) (parent : Option ScopeId) (c : Copying) : ScopeId × Copying :=
  match parent with
  | some p => copy p c
  | none => (c.base, c)

/-- a new scope for `id`, inside the one that `r` gives, is remembered -/
def opened (id : ScopeId) (r : ScopeId × Copying) : Copying :=
  { r.2 with store := (r.2.store.push (some r.1)).2, copies := (id, r.2.store.scopes.size) :: r.2.copies }

section Scopes

variable {s : Store} {c : Copying} {id : ScopeId} {scope : Scope} {r : ScopeId × Copying}
  {new : List (ScopeId × ScopeId)}

/-- a scope that is not remembered: outwards first, then into its table -/
theorem scopeWith_new {copy : Copy} (hne : id ≠ c.stop) (hlookup : c.copies.lookup id = none)
    (hscope : c.store.scopes[id]? = some scope) :
    scopeWith copy id c = ((around copy scope.parent c).2.store.scopes.size,
      table copy (around copy scope.parent c).2.store.scopes.size ((around copy scope.parent c).2.arrange scope.table)
        (opened id (around copy scope.parent c))) := by
  simp only [scopeWith, if_neg hne, hlookup, hscope]
  rfl

/-- what copying outwards gives -/
structure Surrounded (s : Store) (c : Copying) (parent : Option ScopeId) (r : ScopeId × Copying)
    (new : List (ScopeId × ScopeId)) : Prop where
  grows : Grows c r.2 new
  kept : Kept c r.2
  stands : r.2.StandsAround parent r.1
  faithful : ∀ x ∈ new, Faithful s r.2 x
  linked : ∀ x ∈ new, ∃ p, parent = some p ∧ p ≠ c.stop ∧ Linked s r.2.store c.stop (p, r.1) x
  once : (∀ p, parent = some p → p ≠ c.stop → Tame s c.stop p) → (c.copies.map Prod.fst).Nodup →
    (r.2.copies.map Prod.fst).Nodup

theorem exists_surrounded {copy : Copy} {parent : Option ScopeId}
    (h : ∀ p, parent = some p → ∃ new, Copied s c p (copy p c) new) :
    ∃ new, Surrounded s c parent (around copy parent c) new := by
  cases parent with
  | none => exact ⟨[], .refl c, fun _ _ => rfl, rfl, by simp, by simp, fun _ h => h⟩
  | some p =>
    obtain ⟨new, hp⟩ := h p rfl
    refine ⟨new, hp.grows, hp.kept, hp.stands, hp.faithful, ?_, ?_⟩
    · intro x hx
      exact ⟨p, rfl, (hp.linked x hx).1, (hp.linked x hx).2⟩
    · intro htame
      exact hp.once (htame p rfl)

theorem getElem?_opened (i : ScopeId) : (opened id r).store.scopes[i]? =
    if i = r.2.store.scopes.size then some ⟨some r.1, []⟩ else r.2.store.scopes[i]? := by
  simp only [opened, Store.push, Array.getElem?_push]

theorem size_opened : (opened id r).store.scopes.size = r.2.store.scopes.size + 1 := by
  simp [opened, Store.push]

theorem grows_opened : Grows r.2 (opened id r) [(id, r.2.store.scopes.size)] := by
  refine ⟨rfl, rfl, rfl, by simp [size_opened], ?_, by simp⟩
  intro x hx
  rw [List.mem_singleton.1 hx, size_opened]
  exact ⟨Nat.le_refl _, Nat.lt_succ_self _⟩

theorem kept_opened : Kept r.2 (opened id r) := by
  intro i hi
  rw [getElem?_opened, if_neg (Nat.ne_of_lt hi)]

/-- a scope that is not remembered is not among the copies -/
theorem not_mem_of_lookup (h : c.copies.lookup id = none) : id ∉ c.copies.map Prod.fst := by
  intro hmem
  obtain ⟨x, hx, rfl⟩ := List.mem_map.1 hmem
  have hne := List.lookup_eq_none_iff.1 h x hx
  simp at hne

/-- the copy of a scope that is not remembered -/
theorem Surrounded.copied (h : Surrounded s c scope.parent r new) (hne : id ≠ c.stop)
    (hlookup : c.copies.lookup id = none) (hscope : s.scopes[id]? = some scope) {r' : Copying}
    {new' : List (ScopeId × ScopeId)} {source bindings : Table} (hperm : source.Perm scope.table)
    (h' : Filled s (opened id r) id r.2.store.scopes.size (some r.1) source [] r' new' bindings) :
    Copied s c id (r.2.store.scopes.size, r') (new' ++ ((id, r.2.store.scopes.size) :: new)) := by
  have hgrows : Grows c (opened id r) ((id, r.2.store.scopes.size) :: new) := h.grows.trans grows_opened
  have hstop : (opened id r).stop = c.stop := hgrows.stop
  -- filling the copy leaves alone what was there before it
  have hfill : Kept r.2 r' := by
    intro i hi
    have hi' : i < (opened id r).store.scopes.size := by
      rw [size_opened]
      exact Nat.lt_succ_of_lt hi
    rw [h'.kept i hi' (Nat.ne_of_lt hi), kept_opened i hi]
  have hgrows' : Grows r.2 r' (new' ++ [(id, r.2.store.scopes.size)]) := grows_opened.trans h'.grows
  refine ⟨hgrows.trans h'.grows, h.kept.trans h.grows.size hfill, ?_, ?_, ?_, ?_⟩
  · refine .inr ⟨by rw [hgrows'.stop, h.grows.stop]; exact hne, ?_⟩
    rw [hgrows'.copies]
    simp
  · intro x hx
    rcases List.mem_append.1 hx with hx | hx
    · exact h'.faithful x hx
    rcases List.mem_cons.1 hx with rfl | hx
    · have hstands : r'.StandsAround scope.parent r.1 := h.stands.mono hgrows'
      exact ⟨by rw [hgrows'.stop, h.grows.stop]; exact hne, scope, r.1, source, bindings, hscope, h'.scope, hstands,
        hperm, h'.binds⟩
    · exact (h.faithful x hx).mono hgrows' (hfill x.2 (h.grows.range x hx).2)
  · intro x hx
    refine ⟨hne, ?_⟩
    rcases List.mem_append.1 hx with hx | hx
    · have hlinked := h'.linked x hx
      rwa [hstop] at hlinked
    rcases List.mem_cons.1 hx with rfl | hx
    · exact .refl
    · obtain ⟨p, hp, hpstop, hlinked⟩ := h.linked x hx
      exact (hlinked.extend hfill.extends).head (.around hscope h'.scope hp rfl hpstop)
  · intro htame hnodup
    have htame := htame hne
    refine h'.once (by rw [hstop]; exact htame) ?_
    have hbefore : (r.2.copies.map Prod.fst).Nodup := by
      refine h.once (fun p hp hpstop => ?_) hnodup
      exact htame.of_leads (.around hscope hp hpstop)
    -- going outwards the scope was not met
    refine List.nodup_cons.2 ⟨fun hmem => ?_, hbefore⟩
    obtain ⟨x, hx, hid⟩ := List.mem_map.1 hmem
    rw [h.grows.copies] at hx
    rcases List.mem_append.1 hx with hx | hx
    · obtain ⟨p, hp, hpstop, hlinked⟩ := h.linked x hx
      have hreaches := hlinked.reaches
      rw [hid] at hreaches
      exact htame id p scope .refl hscope hp hpstop hreaches
    · exact not_mem_of_lookup hlookup (List.mem_map.2 ⟨x, hx, hid⟩)

/-- nothing is copied -/
theorem Copied.nothing {t : ScopeId} (h : c.Stands id t) : Copied s c id (t, c) [] :=
  ⟨.refl c, fun _ _ => rfl, h, by simp, by simp, fun _ h => h⟩

end Scopes

/-! ## The depth -/

section Depth

variable {s : Store} {c : Copying} {id : ScopeId}

/-- the scopes that are not remembered -/
def unknown (s : Store) (copies : List (ScopeId × ScopeId)) : Finset ScopeId :=
  (Finset.range s.scopes.size).filter fun id => copies.lookup id = none

/-- a depth that suffices to copy a scope -/
def depthFor (s : Store) (c : Copying) (id : ScopeId) : Nat :=
  (unknown s c.copies).card * (s.scopes.size + 1) + id + 1

theorem card_unknown_lt {copies : List (ScopeId × ScopeId)} (h : c.copies <:+ copies)
    (hid : id < s.scopes.size) (hlookup : c.copies.lookup id = none) (hmem : id ∈ copies.map Prod.fst) :
    (unknown s copies).card < (unknown s c.copies).card := by
  apply Finset.card_lt_card
  refine (Finset.ssubset_iff_of_subset ?_).2 ⟨id, ?_, ?_⟩
  · intro x hx
    rw [unknown, Finset.mem_filter] at hx ⊢
    exact ⟨hx.1, h.lookup_eq_none hx.2⟩
  · rw [unknown, Finset.mem_filter, Finset.mem_range]
    exact ⟨hid, hlookup⟩
  · rw [unknown, Finset.mem_filter, not_and]
    intro _ hnone
    obtain ⟨x, hx, rfl⟩ := List.mem_map.1 hmem
    have hne := List.lookup_eq_none_iff.1 hnone x hx
    simp at hne

/-- one more scope remembered, and any scope can be copied with the depth that is left -/
theorem depthFor_le {c' : Copying} {id' n : Nat} (h : (unknown s c'.copies).card < (unknown s c.copies).card)
    (hid' : id' < s.scopes.size) (hn : depthFor s c id ≤ n + 1) : depthFor s c' id' ≤ n := by
  have hmul := Nat.mul_le_mul_right (s.scopes.size + 1) (Nat.succ_le_of_lt h)
  rw [Nat.succ_mul] at hmul
  unfold depthFor at hn ⊢
  omega

/-- outwards the numbers of scopes decrease -/
theorem depthFor_outward {p : ScopeId} {n : Nat} (h : p < id) (hn : depthFor s c id ≤ n + 1) : depthFor s c p ≤ n := by
  refine Nat.le_of_lt_succ (Nat.lt_of_lt_of_le ?_ hn)
  exact Nat.succ_lt_succ (Nat.add_lt_add_left h _)

/-- the two stages of copying a scope that is not remembered, when the scopes that it leads to are copied -/
theorem scopeWithin_new (hs : s.WellFormed) {n : Nat} {scope : Scope}
    (ih : ∀ c id, Over s c → id < s.scopes.size → depthFor s c id ≤ n → ∃ new, Copied s c id (scopeWithin n id c) new)
    (hc : Over s c) (hid : id < s.scopes.size) (hn : depthFor s c id ≤ n + 1) (hlookup : c.copies.lookup id = none)
    (hscope : s.scopes[id]? = some scope) :
    ∃ r new new' bindings, r = around (scopeWithin n) scope.parent c ∧ Surrounded s c scope.parent r new ∧
      Filled s (opened id r) id r.2.store.scopes.size (some r.1) (r.2.arrange scope.table) []
        (table (scopeWithin n) r.2.store.scopes.size (r.2.arrange scope.table) (opened id r)) new' bindings := by
  have houtward : ∀ p, scope.parent = some p → ∃ new, Copied s c p (scopeWithin n p c) new := by
    intro p hp
    have hlt := hs.parent hscope hp
    exact ih c p hc (Nat.lt_trans hlt hid) (depthFor_outward hlt hn)
  obtain ⟨new, h⟩ := exists_surrounded houtward
  generalize hr : around (scopeWithin n) scope.parent c = r at h
  have hgrows : Grows c (opened id r) ((id, r.2.store.scopes.size) :: new) := h.grows.trans grows_opened
  have hinward : Copies s (scopeWithin n) (opened id r).copies := by
    intro c' id' hc' hknown hid'
    have hmem : id ∈ c'.copies.map Prod.fst :=
      List.map_subset Prod.fst hknown.subset (List.mem_map.2 ⟨_, List.mem_cons_self, rfl⟩)
    exact ih c' id' hc' hid' (depthFor_le (card_unknown_lt (hgrows.suffix.trans hknown) hid hlookup hmem) hid' hn)
  have hbefore : Over s r.2 := hc.of_kept h.kept h.grows.size
  have hover : Over s (opened id r) := hbefore.of_kept kept_opened grows_opened.size
  have hopened : (opened id r).store.scopes[r.2.store.scopes.size]? = some ⟨some r.1, []⟩ := by
    rw [getElem?_opened, if_pos rfl]
  obtain ⟨new', bindings, h'⟩ := table_filled hs hinward hscope hbefore.size (r.2.arrange_perm scope.table) _ [] [] rfl
    hover List.suffix_rfl hopened .nil
  exact ⟨r, new, new', bindings, rfl, h, h'⟩

theorem scopeWithin_copied (hs : s.WellFormed) (n : Nat) (c : Copying) (id : ScopeId) (hc : Over s c)
    (hid : id < s.scopes.size) (hn : depthFor s c id ≤ n) : ∃ new, Copied s c id (scopeWithin n id c) new := by
  induction n generalizing c id with
  | zero => exact absurd hn (Nat.not_succ_le_zero _)
  | succ n ih =>
    rw [scopeWithin]
    by_cases hstop : id = c.stop
    · refine ⟨[], ?_⟩
      rw [scopeWith, if_pos hstop]
      exact .nothing (.inl ⟨hstop, rfl⟩)
    cases hlookup : c.copies.lookup id with
    | some t =>
      refine ⟨[], ?_⟩
      simp only [scopeWith, if_neg hstop, hlookup]
      exact .nothing (.inr ⟨hstop, mem_of_lookup hlookup⟩)
    | none =>
      obtain ⟨scope, hscope⟩ : ∃ scope, s.scopes[id]? = some scope := ⟨_, Array.getElem?_eq_getElem hid⟩
      obtain ⟨r, new, new', bindings, hr, h, h'⟩ := scopeWithin_new hs ih hc hid hn hlookup hscope
      rw [scopeWith_new hstop hlookup (by rw [hc.kept id hid, hscope]), ← hr]
      exact ⟨_, h.copied hstop hlookup hscope (r.2.arrange_perm scope.table) h'⟩

/-- the depth suffices when nothing is remembered -/
theorem depthFor_le_depth {stop base : ScopeId} {order : CopyOrder} (hid : id < s.scopes.size) :
    depthFor s ⟨stop, base, order, s, []⟩ id ≤ depth s := by
  have hcard : (unknown s []).card ≤ s.scopes.size := by
    have hle := Finset.card_filter_le (Finset.range s.scopes.size) fun id =>
      ([] : List (ScopeId × ScopeId)).lookup id = none
    rwa [Finset.card_range] at hle
  have hmul := Nat.mul_le_mul_right (s.scopes.size + 1) hcard
  calc (unknown s []).card * (s.scopes.size + 1) + id + 1
      = (unknown s []).card * (s.scopes.size + 1) + (id + 1) := Nat.add_assoc _ _ _
    _ ≤ s.scopes.size * (s.scopes.size + 1) + (s.scopes.size + 1) :=
      Nat.add_le_add hmul (Nat.le_succ_of_le (Nat.succ_le_of_lt hid))
    _ = (s.scopes.size + 1) * (s.scopes.size + 1) := (Nat.succ_mul _ _).symm

/-- **Copying.** Copying a scope of a well-formed store gives faithful copies of what it reaches. -/
theorem exists_copied (hs : s.WellFormed) (stop base : ScopeId) (order : CopyOrder) (hid : id < s.scopes.size) :
    ∃ new, Copied s ⟨stop, base, order, s, []⟩ id (scopeWithin (depth s) id ⟨stop, base, order, s, []⟩) new :=
  scopeWithin_copied hs _ _ _ ⟨Nat.le_refl _, fun _ _ => rfl⟩ hid (depthFor_le_depth hid)

end Depth

end Snapshot

end Ouroboros
