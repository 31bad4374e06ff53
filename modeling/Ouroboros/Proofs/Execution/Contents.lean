/-
What a machine holds.

Functions reach a machine by declarations, and from there they go into scopes, into the list of handlers and into the copies
for spawned work, always with the body they were declared with. So when the bodies of all functions that a machine holds are
as some terms have it (`Terms.Holds`), each step of trees and builtins that obey the terms leaves it so. It leaves the
active calls as they are too, and if it fails, then with a failure that no call has handed on yet (`Eval.Yields`).
-/
import Ouroboros.Proofs.Execution.Judgments
import Ouroboros.Proofs.Snapshot.Holding

namespace Ouroboros

namespace Eval

namespace Terms

variable {T : Terms}

/-! ## Scopes -/

/-- all values that scopes bind names to are as the terms have it -/
def store (T : Terms) (s : Store) : Prop :=
  ∀ (i : ScopeId) (scope : Scope), s.scopes[i]? = some scope → ∀ b ∈ scope.table, T.value b.2

variable {s : Store}

theorem store_bound (h : T.store s) {i : ScopeId} {name : Bytes} {v : Value} (hv : s.bound? i name = some v) :
    T.value v := by
  obtain ⟨scope, hscope, hmem⟩ := Store.exists_mem_of_bound? hv
  exact h i scope hscope _ hmem

theorem store_lookUp (h : T.store s) {i : ScopeId} {name : Bytes} {v : Value} (hv : s.lookup? i name = some v) :
    T.value v := by
  obtain ⟨owner, -, hbound⟩ := Option.bind_eq_some_iff.mp hv
  exact store_bound h hbound

/-- one more scope -/
theorem store_add (h : T.store s) {scope : Scope} (hscope : ∀ b ∈ scope.table, T.value b.2) :
    T.store ⟨s.scopes.push scope⟩ := by
  intro i sc hsc
  rw [Array.getElem?_push] at hsc
  split at hsc
  · obtain rfl := Option.some.inj hsc
    exact hscope
  · exact h i sc hsc

theorem store_push (h : T.store s) (parent : Option ScopeId) : T.store (s.push parent).2 :=
  store_add h (List.forall_mem_nil _)

theorem store_pushCore (h : T.store s) : T.store s.pushCore.2.2 := by
  have hcore : T.store ⟨s.scopes.push ⟨none, coreTable⟩⟩ :=
    store_add h fun b hb => T.value_of_plain (coreTable_plain.2 b hb)
  exact store_add hcore (List.forall_mem_nil _)

theorem store_define (h : T.store s) {v : Value} (hv : T.value v) (id : ScopeId) (name : Bytes) :
    T.store (s.define id name v) := by
  intro i scope hscope b hb
  rw [Snapshot.getElem?_define] at hscope
  split at hscope
  · obtain ⟨old, hold, rfl⟩ := Option.map_eq_some_iff.mp hscope
    rcases Table.mem_insert hb with hb | rfl
    · exact h i old hold b hb
    · exact hv
  · exact h i scope hscope b hb

theorem store_defineAll (h : T.store s) (scope : ScopeId) {bindings : List (Bytes × Value)}
    (hb : ∀ b ∈ bindings, T.value b.2) : T.store (s.defineAll scope bindings) := by
  induction bindings generalizing s with
  | nil => exact h
  | cons b rest ih =>
    rw [List.forall_mem_cons] at hb
    exact ih (store_define h hb.1 scope b.1) hb.2

/-- a copy of a function has its body -/
theorem invariant_store : Snapshot.Invariant T.store T.value where
  held h hscope hb := h _ _ hscope _ hb
  push parent h := store_push h (some parent)
  define target name h hv := store_define h hv target name
  copied {f} scope hf := by
    intro g hg
    cases hg
    exact hf f rfl

theorem store_spawned (v : Value) {m : Machine} (h : T.store m.world.store) : T.store (spawned v m) :=
  spawned_bears invariant_store (store_pushCore h) v

end Terms

/-! ## Machines -/

/-- The machine stands at the site, and all functions that it holds, in scopes and as handlers, are as the terms have it.
Its host adds no operations, and its graphics backend gives no diagnostics but such as builtins fail with. The active calls
were made at places that the terms allow, or without a place. -/
structure Terms.Holds (T : Terms) (c : Site) (m : Machine) : Prop where
  store : T.store m.world.store
  handlers : ∀ e ∈ m.interpreter.handlers, ∀ h ∈ e.2, T.value h
  hosts : m.world.hosts = #[]
  refuses : m.world.RefusesWith Diagnostic.IsFresh
  calls : ∀ frame ∈ c.frames, T.place frame.pos ∨ frame.pos = .unknown
  limit : m.interpreter.limit = c.limit
  frames : m.interpreter.frames = c.frames

namespace Terms.Holds

variable {T : Terms} {c : Site} {m m' : Machine}

theorem withStore (h : T.Holds c m) {s : Store} (hs : T.store s) : T.Holds c (m.withStore s) :=
  { h with store := hs }

theorem congr (h : T.Holds c m) (hstore : m'.world.store = m.world.store) (hinterpreter : m'.interpreter = m.interpreter)
    (hhosts : m'.world.hosts = m.world.hosts) (hrefuses : m'.world.RefusesWith Diagnostic.IsFresh) : T.Holds c m' := by
  obtain ⟨i, w⟩ := m'
  obtain rfl : i = m.interpreter := hinterpreter
  refine ⟨?_, h.handlers, hhosts.trans h.hosts, hrefuses, h.calls, h.limit, h.frames⟩
  rw [hstore]
  exact h.store

theorem handlersOf (h : T.Holds c m) (event : Bytes) : ∀ v ∈ Primitive.handlersOf m.interpreter event, T.value v := by
  intro v hv
  obtain ⟨e, he, hmem⟩ := Primitive.mem_handlersOf hv
  exact h.handlers e he v hmem

/-- a builtin apart from its calls -/
theorem idle (h : T.Holds c m) (p : Primitive) {args : List Value} (hargs : ∀ v ∈ args, T.value v) :
    T.Holds c (p.run Deed.idle args m).2 := by
  have hrefuses := (p.raises_run Diagnostic.IsFresh args m h.refuses).1
  rcases (p.run_idle args m).1 with ⟨hstore, hi, hhost⟩ | ⟨v, -, hstore, hi, hhost⟩ | ⟨event, f, hf, hstore, hi, hhost⟩
  · exact h.congr hstore hi hhost.hosts hrefuses
  · have hspawned : T.Holds c ⟨{ m.interpreter with path := true :: m.interpreter.path },
        { m.world with store := spawned v m }⟩ := { h with store := Terms.store_spawned v h.store }
    exact hspawned.congr hstore hi hhost.hosts hrefuses
  · have hhandler : T.Holds c { m with interpreter :=
        { m.interpreter with handlers := Primitive.addHandler event f m.interpreter.handlers } } := by
      refine { h with handlers := fun e he v hv => ?_ }
      rcases Primitive.mem_addHandler he hv with rfl | ⟨e', he', hv'⟩
      · exact hargs v hf
      · exact h.handlers e' he' v hv'
    exact hhandler.congr hstore hi hhost.hosts hrefuses

end Terms.Holds

/-! ## Failures that arise -/

/-- a place that the terms allow, or none, but then one of the calls was made at such a place -/
def Terms.Located (T : Terms) (frames : List Frame) (pos : Pos) : Prop :=
  T.place pos ∨ pos = .unknown ∧ ∃ frame ∈ frames, T.place frame.pos

/-- a failure as it arises at a site: no call has handed it on yet -/
structure Terms.Arises (T : Terms) (c : Site) (d : Diagnostic) : Prop where
  trace : d.trace = []
  place : T.Located c.frames d.pos
  overflow : d.kind = .stackOverflow → c.frames.length = c.limit.toNat

theorem Terms.Arises.of_fault {T : Terms} {c : Site} {fault : Fault} (h : fault.isOwn = true) {pos : Pos}
    (hpos : T.Located c.frames pos) : T.Arises c ⟨fault, pos, [], false⟩ :=
  ⟨rfl, hpos, fun hkind => absurd hkind (Fault.isOwn_iff.mp h).2⟩

/-! ## Steps -/

/-- from a machine that holds what the terms allow the step leads to such a machine at the same site, gives only what `V`
says, and fails only with a failure that arises there -/
def Yields (T : Terms) (c : Site) {α : Type} (V : α → Prop) (x : Eval α) : Prop := ∀ m : Machine, T.Holds c m →
  T.Holds c (x m).2 ∧ (∀ a, (x m).1 = .ok a → V a) ∧ ∀ d, (x m).1 = .error d → T.Arises c d

variable {T : Terms} {c : Site} {α : Type} {V : α → Prop} {x : Eval α}

namespace Yields

theorem fail {d : Diagnostic} (h : T.Arises c d) : Yields T c V (Action.fail d) := by
  intro m hm
  refine ⟨hm, nofun, ?_⟩
  rintro e ⟨⟩
  exact h

theorem asks {f : Machine → α} (h : ∀ m, T.Holds c m → V (f m)) : Yields T c V (Action.asks f) := by
  intro m hm
  refine ⟨hm, ?_, ?_⟩
  · rintro a ⟨⟩
    exact h m hm
  · rintro d ⟨⟩

theorem pure {a : α} (h : V a) : Yields T c V (Pure.pure a) := asks (f := fun _ => a) fun _ _ => h

/-- a step that only has to do with scopes -/
theorem of_onScopes {f : Store → α × Store} (h : OnScopes f x) (hf : ∀ s, T.store s → T.store (f s).2 ∧ V (f s).1) :
    Yields T c V x := by
  intro m hm
  obtain ⟨hstore, hV⟩ := hf m.world.store hm.store
  rw [h m]
  refine ⟨hm.withStore hstore, ?_, ?_⟩
  · rintro a ⟨⟩
    exact hV
  · rintro d ⟨⟩

theorem log (entry : Machine → LogEntry) : Yields T c (fun _ => True) (Eval.log entry) := by
  intro m hm
  obtain ⟨hstore, hinterpreter, hhost, -⟩ := quiet_log entry m
  have hrefuses := (Raises.log (Q := Diagnostic.IsFresh) entry m hm.refuses).1
  refine ⟨hm.congr hstore hinterpreter hhost.hosts hrefuses, fun _ _ => trivial, ?_⟩
  rintro d ⟨⟩

theorem assign {pos : Pos} (hpos : T.place pos) (scope : ScopeId) (name : Bytes) {v : Value} (hv : T.value v) :
    Yields T c (fun _ => True) (Eval.assign pos scope name v) := by
  intro m hm
  rcases assign_apply pos scope name v m with ⟨fault, hfault, h⟩ | ⟨owner, -, -, h⟩
  · rw [h]
    exact fail (.of_fault hfault (.inl hpos)) m hm
  · rw [h]
    refine ⟨hm.withStore (Terms.store_define hm.store hv owner name), fun _ _ => trivial, ?_⟩
    rintro d ⟨⟩

theorem declare (hscope : ∀ i, T.scope i) (scope : ScopeId) {d : Declaration} (hd : ∀ i, T.value (d.bound i)) :
    Yields T c T.scope (Eval.declare scope d.name d.bound) := by
  refine .of_onScopes (onScopes_declare scope d) fun s hs => ⟨?_, hscope _⟩
  unfold declared
  split
  · exact Terms.store_defineAll (Terms.store_push hs _) _ (List.forall_mem_singleton.mpr (hd _))
  · exact Terms.store_define hs (hd scope) scope _

theorem openScope (hscope : ∀ i, T.scope i) (parent : ScopeId) {bindings : List (Bytes × Value)}
    (hb : ∀ b ∈ bindings, T.value b.2) : Yields T c T.scope (Deed.act (.openScope parent bindings)) :=
  .of_onScopes (onScopes_openScope parent bindings) fun _ hs =>
    ⟨Terms.store_defineAll (Terms.store_push hs _) _ hb, hscope _⟩

/-- a builtin apart from its calls, inside a call that was made at a place -/
theorem idle (hcalls : T.Located c.frames .unknown) (p : Primitive) {args : List Value} (hargs : ∀ v ∈ args, T.value v) :
    Yields T c T.value (p.run Deed.idle args) := by
  intro m hm
  refine ⟨hm.idle p hargs, fun v hv => T.value_of_plain ((p.run_idle args m).2 v hv), fun d hd => ?_⟩
  obtain ⟨fault, hfault, rfl⟩ : d.IsFresh := ((p.raises_run Diagnostic.IsFresh args m hm.refuses).2 d hd).elim id id
  exact .of_fault hfault hcalls

end Yields

end Eval

end Ouroboros
