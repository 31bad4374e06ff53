/-
Runs that stay inside the scopes they start from.

Given some scopes, a scope is under them (`Store.Under`) when it is one of them, or when it came later and the scope around
it is under them. A store encloses them (`Store.Encloses`) when what the scopes under them hold leads only to scopes under
them, and is as wanted. Opening a scope, binding names and copying scopes for spawned work keep a store so; the scopes that
are made for spawned work are under none that was there before.

So there is a discipline of runs that have to do only with scopes under the given ones and with values as wanted
(`Discipline.enclosed`), and its laws hold (`Discipline.enclosed_laws`).
-/
import Ouroboros.Proofs.Execution.Discipline
import Ouroboros.Proofs.Execution.Traversal
import Ouroboros.Proofs.Isolation.Regions

namespace Ouroboros

namespace Store

variable {s s' : Store} {A : Region} {k : Nat} {P : Value → Prop}

/-! ## Bindings of a changed store -/

theorem mem_define {id i : ScopeId} {name : Bytes} {v : Value} {scope : Scope} {b : Bytes × Value}
    (h : (s.define id name v).scopes[i]? = some scope) (hb : b ∈ scope.table) :
    (∃ old, s.scopes[i]? = some old ∧ b ∈ old.table) ∨ i = id ∧ b = (name, v) := by
  rw [Snapshot.getElem?_define] at h
  split at h
  · obtain ⟨old, hold, rfl⟩ := Option.map_eq_some_iff.mp h
    rcases Table.mem_insert hb with hb | hb
    · exact .inl ⟨old, hold, hb⟩
    · exact .inr ⟨(‹id = i›).symm, hb⟩
  · exact .inl ⟨scope, h, hb⟩

theorem mem_defineAll {id i : ScopeId} {bindings : List (Bytes × Value)} {scope : Scope} {b : Bytes × Value}
    (h : (s.defineAll id bindings).scopes[i]? = some scope) (hb : b ∈ scope.table) :
    (∃ old, s.scopes[i]? = some old ∧ b ∈ old.table) ∨ i = id ∧ b ∈ bindings := by
  induction bindings generalizing s with
  | nil => exact .inl ⟨scope, h, hb⟩
  | cons c rest ih =>
    rcases ih (s := s.define id c.1 c.2) h with ⟨old, hold, hb'⟩ | ⟨hi, hb'⟩
    · rcases mem_define hold hb' with hfound | ⟨hi, rfl⟩
      · exact .inl hfound
      · exact .inr ⟨hi, List.mem_cons_self⟩
    · exact .inr ⟨hi, List.mem_cons_of_mem _ hb'⟩

theorem parent?_defineAll (s : Store) (id i : ScopeId) (bindings : List (Bytes × Value)) :
    (s.defineAll id bindings).parent? i = s.parent? i := by
  induction bindings generalizing s with
  | nil => rfl
  | cons b rest ih => exact (ih (s.define id b.1 b.2)).trans (parent?_define ..)

theorem kept_opened (s : Store) (parent : ScopeId) (bindings : List (Bytes × Value)) :
    s.Kept (Eval.opened parent bindings s).2 := ((Kept.refl s).push _).defineAll (Nat.le_refl _) _

theorem parent?_opened (s : Store) (parent : ScopeId) (bindings : List (Bytes × Value)) :
    (Eval.opened parent bindings s).2.parent? s.scopes.size = some parent := by
  rw [Eval.opened, parent?_defineAll, parent?, getElem?_push, if_pos rfl]
  rfl

theorem mem_opened {parent i : ScopeId} {bindings : List (Bytes × Value)} {scope : Scope} {b : Bytes × Value}
    (h : (Eval.opened parent bindings s).2.scopes[i]? = some scope) (hb : b ∈ scope.table) :
    (∃ old, s.scopes[i]? = some old ∧ b ∈ old.table) ∨ i = s.scopes.size ∧ b ∈ bindings := by
  rcases mem_defineAll h hb with ⟨old, hold, hb'⟩ | hnew
  · rw [getElem?_push] at hold
    split at hold
    · cases hold
      cases hb'
    · exact .inl ⟨old, hold, hb'⟩
  · exact .inr hnew

theorem lt_of_parent? {i p : ScopeId} (h : s.parent? i = some p) : i < s.scopes.size := by
  obtain ⟨scope, hscope, -⟩ := Option.bind_eq_some_iff.mp h
  exact (Array.getElem?_eq_some_iff.mp hscope).1

theorem lt_of_getElem? {i : ScopeId} {scope : Scope} (h : s.scopes[i]? = some scope) : i < s.scopes.size :=
  (Array.getElem?_eq_some_iff.mp h).1

/-! ## Scopes under others -/

/-- the scope is one of `A`, or one from `k` on whose chain leads, by scopes from `k` on, to one of `A` -/
inductive Under (s : Store) (A : Region) (k : Nat) : ScopeId → Prop where
  | of {i : ScopeId} (h : A i) : Under s A k i
  | within {i p : ScopeId} (hk : k ≤ i) (hp : s.parent? i = some p) (h : Under s A k p) : Under s A k i

namespace Under

variable {i : ScopeId}

/-- scopes around scopes stayed where they were -/
theorem mono (h : s.Under A k i) (hparent : ∀ j < s.scopes.size, s'.parent? j = s.parent? j) : s'.Under A k i := by
  induction h with
  | of h => exact .of h
  | within hk hp _ ih =>
    refine .within hk ?_ ih
    rw [hparent _ (lt_of_parent? hp), hp]

/-- of the scopes that were there, none is under others than before -/
theorem of_later (hs : s.WellFormed) (hparent : ∀ j < s.scopes.size, s'.parent? j = s.parent? j)
    (hi : i < s.scopes.size) (h : s'.Under A k i) : s.Under A k i := by
  induction h with
  | of h => exact .of h
  | within hk hp _ ih =>
    rw [hparent _ hi] at hp
    exact .within hk hp (ih (Nat.lt_trans (hs.parent? hp) hi))

theorem lt (hA : ∀ j, A j → j < s.scopes.size) (h : s.Under A k i) : i < s.scopes.size := by
  cases h with
  | of h => exact hA i h
  | within _ hp _ => exact lt_of_parent? hp

/-- scopes that came and refer to each other only are under none that was there -/
theorem lt_of_closed {n : Nat} (hA : ∀ j, A j → j < n) (hnew : s'.Closed (n ≤ ·)) (h : s'.Under A k i) : i < n := by
  induction h with
  | of h => exact hA _ h
  | within _ hp _ ih =>
    by_contra hi
    exact absurd ih (Nat.not_lt.mpr (hnew.parent? (Nat.le_of_not_lt hi) hp))

end Under

/-- What the scopes under those of `A` hold is as `P` says and leads only to scopes under those of `A`. -/
structure Encloses (s : Store) (A : Region) (k : Nat) (P : Value → Prop) : Prop where
  there : ∀ i, A i → i < s.scopes.size
  around : ∀ {i p : ScopeId}, A i → s.parent? i = some p → A p
  table : ∀ {i : ScopeId} {scope : Scope} {b : Bytes × Value}, s.Under A k i → s.scopes[i]? = some scope →
    b ∈ scope.table → P b.2 ∧ b.2.In (s.Under A k)

namespace Encloses

theorem bound (h : s.Encloses A k P) {i : ScopeId} {name : Bytes} {v : Value} (hi : s.Under A k i)
    (hv : s.bound? i name = some v) : P v ∧ v.In (s.Under A k) := by
  obtain ⟨scope, hscope, hmem⟩ := Store.exists_mem_of_bound? hv
  exact h.table hi hscope hmem

theorem parent (h : s.Encloses A k P) {i p : ScopeId} (hi : s.Under A k i) (hp : s.parent? i = some p) :
    s.Under A k p := by
  cases hi with
  | of hi => exact .of (h.around hi hp)
  | within _ hp' h' =>
    cases hp.symm.trans hp'
    exact h'

/-- What the new store binds in scopes under those of `A` was bound before or is as wanted; the scopes around scopes that
were there stayed where they were. -/
theorem of_new (h : s.Encloses A k P) (hs : s.WellFormed) (hsize : s.scopes.size ≤ s'.scopes.size)
    (hparent : ∀ j < s.scopes.size, s'.parent? j = s.parent? j)
    (hnew : ∀ {i : ScopeId} {scope : Scope} {b : Bytes × Value}, s'.Under A k i → s'.scopes[i]? = some scope →
      b ∈ scope.table →
      (∃ old, s.scopes[i]? = some old ∧ b ∈ old.table) ∨ P b.2 ∧ b.2.In (s'.Under A k)) : s'.Encloses A k P := by
  refine ⟨fun i hi => Nat.lt_of_lt_of_le (h.there i hi) hsize, ?_, ?_⟩
  · intro i p hi hp
    rw [hparent i (h.there i hi)] at hp
    exact h.around hi hp
  · intro i scope b hi hscope hb
    rcases hnew hi hscope hb with ⟨old, hold, hb'⟩ | hb'
    · have hunder : s.Under A k i := hi.of_later hs hparent (lt_of_getElem? hold)
      obtain ⟨hP, hin⟩ := h.table hunder hold hb'
      exact ⟨hP, fun f hf => (hin f hf).mono hparent⟩
    · exact hb'

/-- one more scope -/
theorem opened (h : s.Encloses A k P) (hs : s.WellFormed) {parent : ScopeId} {bindings : List (Bytes × Value)}
    (hb : (Eval.opened parent bindings s).2.Under A k s.scopes.size →
      ∀ b ∈ bindings, P b.2 ∧ b.2.In ((Eval.opened parent bindings s).2.Under A k)) :
    (Eval.opened parent bindings s).2.Encloses A k P := by
  have hkept := kept_opened s parent bindings
  refine h.of_new hs hkept.size (fun _ => hkept.parent?) fun hi hscope hb' => ?_
  rcases mem_opened hscope hb' with hold | ⟨rfl, hb'⟩
  · exact .inl hold
  · exact .inr (hb hi _ hb')

/-- one more binding, or a new value of one -/
theorem define (h : s.Encloses A k P) (hs : s.WellFormed) {id : ScopeId} {name : Bytes} {v : Value}
    (hv : s.Under A k id → P v ∧ v.In (s.Under A k)) : (s.define id name v).Encloses A k P := by
  have hparent : ∀ j < s.scopes.size, (s.define id name v).parent? j = s.parent? j := fun j _ => parent?_define ..
  have hback : ∀ {i}, (s.define id name v).Under A k i → s.Under A k i := by
    intro i hi
    refine hi.mono fun j _ => ?_
    rw [parent?_define]
  refine h.of_new hs (Nat.le_of_eq (Snapshot.size_define ..).symm) hparent fun hi hscope hb => ?_
  rcases mem_define hscope hb with hold | ⟨rfl, rfl⟩
  · exact .inl hold
  · obtain ⟨hP, hin⟩ := hv (hback hi)
    exact .inr ⟨hP, fun f hf => (hin f hf).mono hparent⟩

/-- scopes came that refer to each other only -/
theorem of_kept (h : s.Encloses A k P) (hs : s.WellFormed) (hkept : s.Kept s')
    (hnew : s'.Closed (s.scopes.size ≤ ·)) : s'.Encloses A k P := by
  refine h.of_new hs hkept.size (fun _ => hkept.parent?) fun {i scope b} hi hscope hb => ?_
  rw [hkept.scopes i (hi.lt_of_closed h.there hnew)] at hscope
  exact .inl ⟨scope, hscope, hb⟩

end Encloses

end Store

/-! ## What a deed makes of the scopes -/

namespace Discipline

variable {D : Discipline} {m : Machine}

/-- the value is allowed, or is a function that is declared in the scope `home` -/
def Fresh (D : Discipline) (m : Machine) (home : ScopeId) (v : Value) : Prop :=
  D.value m v ∨ ∃ sig body, v = .function ⟨sig, body, home⟩ ∧ ∀ s ∈ body, D.Admits s

/-- what a deed makes of the scopes when it is told only what is allowed -/
inductive Makes (D : Discipline) (m : Machine) : Store → Prop where
  | same : Makes D m m.world.store
  | opened {parent : ScopeId} {bindings : List (Bytes × Value)} (hparent : D.scope m parent)
    (hbindings : ∀ b ∈ bindings, D.Fresh m m.size b.2) : Makes D m (Eval.opened parent bindings m.world.store).2
  | define {home : ScopeId} {name : Bytes} {v : Value} (hhome : D.scope m home) (hv : D.Fresh m home v) :
    Makes D m (m.world.store.define home name v)
  | spawned (v : Value) : Makes D m (Eval.spawned v m)

theorem fresh_bound {scope home : ScopeId} {decl : Declaration} (h : D.Told (.declare scope decl) m) :
    D.Fresh m home (decl.bound home) := by
  cases decl with
  | value name v => exact .inl h.2
  | function sig body => exact .inr ⟨sig, body, rfl, h.2⟩

theorem scope_of_told {scope : ScopeId} {decl : Declaration} (h : D.Told (.declare scope decl) m) : D.scope m scope := by
  cases decl with
  | value name v => exact h.1
  | function sig body => exact h.1

theorem makes_effect {d : Deed} (h : D.Told d m) : D.Makes m (d.effect m).world.store := by
  cases d with
  | openScope parent bindings =>
    rw [Deed.effect, Deed.act_openScope]
    exact .opened h.1 fun b hb => .inl (h.2 b hb)
  | declare scope decl =>
    rw [Deed.effect, Deed.act_declare]
    split
    · have hfresh : ∀ b ∈ [(decl.name, decl.bound m.size)], D.Fresh m m.size b.2 :=
        List.forall_mem_singleton.mpr (fresh_bound h)
      exact .opened (scope_of_told h) hfresh
    · exact .define (scope_of_told h) (fresh_bound h)
  | set owner name v =>
    rw [Deed.effect, Deed.act_set]
    simp only [Machine.withStore]
    split
    · exact .define h.2.1 (.inl h.2.2)
    · exact .same
  | builtin p args =>
    rw [Deed.effect, Deed.act]
    rcases (p.run_idle args m).1 with ⟨hstore, -, -⟩ | ⟨v, -, hstore, -, -⟩ | ⟨event, f, -, hstore, -, -⟩ <;> rw [hstore]
    · exact .same
    · exact .spawned v
    · exact .same
  | enter | leave | moveGlobal | remember => exact .same
  | trace function stage =>
    rw [Deed.effect, Deed.act, (Eval.quiet_trace function stage m).1]
    exact .same
  | note entry =>
    rw [Deed.effect, Deed.act, (Eval.quiet_log _ m).1]
    exact .same

/-- what a deed makes of the interpreter, and of what the host keeps, when it is told only what is allowed -/
structure Alters (D : Discipline) (m m' : Machine) : Prop where
  core : m'.interpreter.core = m.interpreter.core
  global : m'.interpreter.global = m.interpreter.global ∨ D.scope m m'.interpreter.global
  handlers : ∀ e ∈ m'.interpreter.handlers, ∀ v ∈ e.2, (∃ e' ∈ m.interpreter.handlers, v ∈ e'.2) ∨ D.value m v
  memory : m'.world.memory = m.world.memory ∨ ∀ v ∈ m'.world.memory, D.value m v

theorem Alters.of_eq {m' : Machine} (hinterpreter : m'.interpreter = m.interpreter)
    (hmemory : m'.world.memory = m.world.memory) : D.Alters m m' := by
  refine ⟨congrArg _ hinterpreter, .inl (congrArg _ hinterpreter), fun e he v hv => ?_, .inl hmemory⟩
  rw [hinterpreter] at he
  exact .inl ⟨e, he, hv⟩

theorem alters_effect {d : Deed} (h : D.Told d m) : D.Alters m (d.effect m) := by
  cases d with
  | openScope parent bindings =>
    rw [Deed.effect, Deed.act_openScope]
    exact .of_eq rfl rfl
  | declare scope decl =>
    rw [Deed.effect, Deed.act_declare]
    split <;> exact .of_eq rfl rfl
  | set owner name v => exact .of_eq rfl rfl
  | builtin p args =>
    rw [Deed.effect, Deed.act]
    rcases (p.run_idle args m).1 with ⟨-, hi, hhost⟩ | ⟨v, -, -, hi, hhost⟩ | ⟨event, f, hf, -, hi, hhost⟩
    · exact .of_eq hi hhost.memory
    · refine ⟨(congrArg Interpreter.core hi :), .inl (congrArg Interpreter.global hi :), fun e he v hv => ?_,
        .inl hhost.memory⟩
      rw [hi] at he
      exact .inl ⟨e, he, hv⟩
    · refine ⟨(congrArg Interpreter.core hi :), .inl (congrArg Interpreter.global hi :), fun e he v hv => ?_,
        .inl hhost.memory⟩
      rw [hi] at he
      rcases Primitive.mem_addHandler he hv with rfl | hold
      · exact .inr (h v hf)
      · exact .inl hold
  | enter | leave => exact ⟨rfl, .inl rfl, fun e he v hv => .inl ⟨e, he, hv⟩, .inl rfl⟩
  | moveGlobal scope => exact ⟨rfl, .inr h, fun e he v hv => .inl ⟨e, he, hv⟩, .inl rfl⟩
  | remember vs => exact ⟨rfl, .inl rfl, fun e he v hv => .inl ⟨e, he, hv⟩, .inr h⟩
  | trace function stage =>
    obtain ⟨-, hi, hhost, -⟩ := Eval.quiet_trace function stage m
    exact .of_eq hi hhost.memory
  | note entry =>
    obtain ⟨-, hi, hhost, -⟩ := Eval.quiet_log (fun _ => entry) m
    exact .of_eq hi hhost.memory

end Discipline

/-! ## The discipline -/

/-- values as `P` says that lead only to scopes under those of `A`, and these scopes -/
abbrev HostLaw.enclosed (A : Region) (k : Nat) (P : Value → Prop) : HostLaw Machine :=
  .lasting (fun m v => P v ∧ v.In (m.world.store.Under A k)) fun m i => m.world.store.Under A k i

/-- all that the machine holds, in scopes under those of `A`, as handlers and in what the host keeps, is as `P` says and
leads only to scopes under those of `A`. Given the same, the host's operations hand out only this; they have statements run
as `Q` says, and give new values only to bindings of scopes from `k` on. -/
structure Machine.Enclosed (A : Region) (k : Nat) (P : Value → Prop) (Q : Stmt → Prop) (m : Machine) : Prop where
  wellFormed : m.WellFormed
  size : k ≤ m.size
  store : m.world.store.Encloses A k P
  core : m.world.store.Under A k m.interpreter.core
  global : m.world.store.Under A k m.interpreter.global
  handlers : ∀ e ∈ m.interpreter.handlers, ∀ h ∈ e.2, P h ∧ h.In (m.world.store.Under A k)
  hosts : ∀ operation ∈ m.world.hosts, operation.Meets (.enclosed A k P) m ∧ operation.Spares (k ≤ ·) Q
  memory : m.world.hosts = #[] ∨ ∀ v ∈ m.world.memory, P v ∧ v.In (m.world.store.Under A k)

namespace Discipline

/-- runs that have to do only with scopes under those of `A`, with values as `P` says and statements as `Q` says, and that
give new values only to bindings of scopes from `k` on -/
def enclosed (A : Region) (k : Nat) (P : Value → Prop) (Q : Stmt → Prop) : Discipline where
  holds := Machine.Enclosed A k P Q
  value m v := P v ∧ v.In (m.world.store.Under A k)
  scope m i := m.world.store.Under A k i
  stmt := Q
  sets i := k ≤ i

/-- what is asked of values fits what is asked of statements: what evaluation makes is as wanted, and so is a function
exactly when the statements of its body are. Assignments are so only where all bindings may get new values. -/
structure Suits (k : Nat) (P : Value → Prop) (Q : Stmt → Prop) : Prop where
  made : ∀ {v : Value}, v.IsPlain → v.Sound → P v
  function : ∀ {f : Closure}, P (.function f) ↔ ∀ s ∈ f.body, s.Throughout (fun _ => True) Q
  assign : ∀ {pos : Pos} {name : Bytes} {x : Expr}, Q (.assign pos name x) → k = 0

variable {A : Region} {k : Nat} {P : Value → Prop} {Q : Stmt → Prop} {m : Machine}

theorem encloses_effect {d : Deed} (S : Suits k P Q) (hm : m.Enclosed A k P Q) (h : (enclosed A k P Q).Told d m) :
    (d.effect m).world.store.Encloses A k P := by
  have hwell := hm.wellFormed.store
  have hfresh : ∀ {s' : Store} {home : ScopeId} {v : Value}, (enclosed A k P Q).Fresh m home v →
      (∀ j < m.size, s'.parent? j = m.world.store.parent? j) → s'.Under A k home → P v ∧ v.In (s'.Under A k) := by
    intro s' home v hv hparent hhome
    rcases hv with ⟨hP, hin⟩ | ⟨sig, body, rfl, hbody⟩
    · exact ⟨hP, fun f hf => (hin f hf).mono hparent⟩
    · refine ⟨S.function.mpr hbody, fun f hf => ?_⟩
      cases hf
      exact hhome
  have hmakes := makes_effect h
  generalize (d.effect m).world.store = s' at hmakes
  rcases hmakes with _ | ⟨hparent, hbindings⟩ | ⟨hhome, hv⟩ | ⟨v⟩
  · exact hm.store
  · exact hm.store.opened hwell fun hnew b hb =>
      hfresh (hbindings b hb) (fun _ => (Store.kept_opened ..).parent?) hnew
  · exact hm.store.define hwell fun hhome => hfresh hv (fun _ _ => rfl) hhome
  · exact hm.store.of_kept hwell (Eval.spawned_kept v m) (Eval.closed_spawned v m)

theorem lt_of_under (hm : m.Enclosed A k P Q) {i : ScopeId} (hi : m.world.store.Under A k i) : i < m.size :=
  hi.lt hm.store.there

theorem fits_of_told (hm : m.Enclosed A k P Q) {d : Deed} (h : (enclosed A k P Q).Told d m) : d.Fits m.size := by
  have hscope : ∀ {i}, (enclosed A k P Q).scope m i → i < m.size := lt_of_under hm
  have hvalue : ∀ {v}, (enclosed A k P Q).value m v → v.Within m.size := fun hv f hf => hscope (hv.2 f hf)
  cases d with
  | openScope parent bindings => exact ⟨hscope h.1, fun b hb => hvalue (h.2 b hb)⟩
  | declare scope decl =>
    cases decl with
    | value name v => exact ⟨hscope h.1, hvalue h.2⟩
    | function sig body => exact hscope h.1
  | set owner name v => exact hvalue h.2.2
  | builtin p args => exact fun v hv => hvalue (h v hv)
  | remember vs => exact fun v hv => hvalue (h v hv)
  | moveGlobal scope => exact hscope h
  | enter | leave | trace | note => trivial

/-- what was under the given scopes stays under them -/
theorem under_effect (d : Deed) {i : ScopeId} (hi : m.world.store.Under A k i) :
    (d.effect m).world.store.Under A k i := hi.mono fun _ => (d.preserves_effect m).parent

theorem enclosed_effect (S : Suits k P Q) (hm : m.Enclosed A k P Q) {d : Deed} (h : (enclosed A k P Q).Told d m) :
    (d.effect m).Enclosed A k P Q := by
  have halters := alters_effect h
  have hmono : ∀ {v}, P v ∧ v.In (m.world.store.Under A k) → P v ∧ v.In ((d.effect m).world.store.Under A k) :=
    fun hv => ⟨hv.1, fun f hf => under_effect d (hv.2 f hf)⟩
  have hlater : (HostLaw.enclosed A k P).later m (d.effect m) := ⟨fun _ => hmono, fun _ => under_effect d⟩
  refine ⟨(d.wellFormed_effect hm.wellFormed (fits_of_told hm h)).1, ?_, encloses_effect S hm h, ?_, ?_, ?_, ?_, ?_⟩
  · exact Nat.le_trans hm.size (d.preserves_effect m).size
  · rw [halters.core]
    exact under_effect d hm.core
  · rcases halters.global with hglobal | hglobal
    · rw [hglobal]
      exact under_effect d hm.global
    · exact under_effect d hglobal
  · intro e he v hv
    rcases halters.handlers e he v hv with ⟨e', he', hv'⟩ | hv'
    · exact hmono (hm.handlers e' he' v hv')
    · exact hmono hv'
  · intro operation hmem
    rw [d.hosts_effect] at hmem
    exact ⟨(hm.hosts operation hmem).1.mono HostLaw.lasting_trans hlater, (hm.hosts operation hmem).2⟩
  · rw [d.hosts_effect]
    refine hm.memory.imp_right fun hmemory v hv => ?_
    rcases halters.memory with hsame | hnew
    · rw [hsame] at hv
      exact hmono (hmemory v hv)
    · exact hmono (hnew v hv)

/-- what a deed gives leads to scopes under the given ones -/
theorem given_effect (S : Suits k P Q) (hm : m.Enclosed A k P Q) {d : Deed} (h : (enclosed A k P Q).Told d m)
    {a : d.Answer} (ha : (d.act m).1 = .ok a) : (enclosed A k P Q).Given (d.effect m) d a := by
  have hopened : ∀ {parent} bindings, m.world.store.Under A k parent →
      (Eval.opened parent bindings m.world.store).2.Under A k m.size := by
    intro parent bindings hparent
    refine .within hm.size (Store.parent?_opened ..) (hparent.mono fun _ => ?_)
    exact (Store.kept_opened ..).parent?
  cases d with
  | openScope parent bindings =>
    rw [Deed.act_openScope] at ha
    cases ha
    rw [Deed.effect, Deed.act_openScope]
    exact ⟨hopened bindings h.1, hm.size⟩
  | declare scope decl =>
    have hscope := under_effect (.declare scope decl) (scope_of_told h)
    rw [Deed.effect, Deed.act_declare] at hscope ⊢
    rw [Deed.act_declare] at ha
    split at ha
    · cases ha
      rw [if_pos ‹_›]
      exact hopened [(decl.name, decl.bound m.size)] (scope_of_told h)
    · cases ha
      exact hscope
  | builtin p args =>
    have hplain := (p.run_idle args m).2 a ha
    exact ⟨S.made hplain (p.sound_run args m a ha), hplain.isIn _⟩
  | set | enter | leave | trace | moveGlobal | note | remember => trivial

/-- **The laws of enclosed runs.** -/
theorem enclosed_laws (S : Suits k P Q) : (enclosed A k P Q).Laws where
  bound hm hi hv := hm.store.bound hi hv
  parent hm hi hp := hm.store.parent hi hp
  global hm := hm.global
  core hm := hm.core
  handlers hm event h hh := by
    obtain ⟨e, he, hmem⟩ := Primitive.mem_handlersOf hh
    exact hm.handlers e he h hmem
  host hm hmem := hm.hosts _ hmem
  memory hm hmem := hm.memory.resolve_left fun hnone => Array.not_mem_empty _ (hnone ▸ hmem)
  assign h owner := S.assign h ▸ Nat.zero_le owner
  closure hf := ⟨hf.2 _ rfl, S.function.mp hf.1⟩
  made hplain hsound := ⟨S.made hplain hsound, hplain.isIn _⟩
  deed hm hd := ⟨⟨enclosed_effect S hm hd, fun hv => ⟨hv.1, fun f hf => under_effect _ (hv.2 f hf)⟩,
    fun hi => under_effect _ hi, Deed.hosts_effect _ _⟩, fun _ ha => given_effect S hm hd ha⟩

end Discipline

end Ouroboros
