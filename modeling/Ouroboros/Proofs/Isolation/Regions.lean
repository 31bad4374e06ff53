/-
Runs stay in their region.

A region is a set of scopes. A machine is inside a region when its interpreter refers to scopes of the region only, and
these to each other only. From such a machine, tasks that are told only of scopes of the region do deeds that are told only
of scopes of the region (`Eval.confined`), and so do the operations of a host (`Operation.confined_each`). Such deeds leave
all other scopes as they are (`Deed.kept_performAll`), and the machine inside the region (`Deed.inside_performAll`).

A region may have scopes that are not there yet. Those that evaluation opens for statements have to belong to it. Those that
are made for spawned work belong to it all, or none of them does: they refer to each other only
(`Eval.closed_spawned`). So a region can leave out the scopes of spawned work before the work is spawned.
-/
import Ouroboros.Proofs.Execution.Captures
import Ouroboros.Proofs.Execution.Matching

namespace Ouroboros

/-- a set of scopes, some of which may not be there yet -/
abbrev Region := ScopeId → Prop

/-- the value refers to scopes of the region only -/
def Value.In (A : Region) (v : Value) : Prop := ∀ f, v = .function f → A f.scope

/-- in the region, at every stage of a run -/
def HostLaw.inside (A : Region) : HostLaw Unit := ⟨fun _ _ => True, fun _ v => v.In A, fun _ scope => A scope⟩

/-- given scopes of the region only, the host's operation hands out only such -/
abbrev HostOperation.In (A : Region) (operation : HostOperation) : Prop := operation.Meets (.inside A) ()

theorem Value.IsPlain.isIn {v : Value} (h : v.IsPlain) (A : Region) : v.In A := fun f hf => absurd hf (h f)

theorem Store.size_defineAll (s : Store) (id : ScopeId) (bindings : List (Bytes × Value)) :
    (s.defineAll id bindings).scopes.size = s.scopes.size := by
  induction bindings generalizing s with
  | nil => rfl
  | cons b rest ih => exact (ih _).trans (Snapshot.size_define ..)

/-! ## Closed regions -/

/-- the scopes of the region refer to scopes of the region only -/
structure Store.Closed (A : Region) (s : Store) : Prop where
  parent : ∀ {i : ScopeId} {scope : Scope} {p : ScopeId}, A i → s.scopes[i]? = some scope → scope.parent = some p → A p
  table : ∀ {i : ScopeId} {scope : Scope} {b : Bytes × Value}, A i → s.scopes[i]? = some scope → b ∈ scope.table →
    b.2.In A

namespace Store.Closed

variable {A : Region} {s : Store}

theorem parent? (h : s.Closed A) {i p : ScopeId} (hi : A i) (hp : s.parent? i = some p) : A p := by
  obtain ⟨scope, hscope, hparent⟩ := Option.bind_eq_some_iff.mp hp
  exact h.parent hi hscope hparent

theorem bound (h : s.Closed A) {i : ScopeId} {name : Bytes} {v : Value} (hi : A i) (hv : s.bound? i name = some v) :
    v.In A := by
  obtain ⟨scope, hscope, hmem⟩ := Store.exists_mem_of_bound? hv
  exact h.table hi hscope hmem

theorem chainWithin (h : s.Closed A) {steps : Nat} {i e : ScopeId} (hi : A i) (he : e ∈ s.chainWithin steps i) :
    A e := by
  induction steps generalizing i with
  | zero => exact absurd he List.not_mem_nil
  | succ steps ih =>
    rw [Store.chainWithin] at he
    rcases List.mem_cons.mp he with rfl | he
    · exact hi
    · cases hp : s.parent? i with
      | none =>
        rw [hp] at he
        exact absurd he List.not_mem_nil
      | some p =>
        rw [hp] at he
        exact ih (h.parent? hi hp) he

theorem lookup? (h : s.Closed A) {i : ScopeId} {name : Bytes} {v : Value} (hi : A i) (hv : s.lookup? i name = some v) :
    v.In A := by
  obtain ⟨owner, howner, hbound⟩ := Option.bind_eq_some_iff.mp hv
  exact h.bound (h.chainWithin hi (List.mem_of_find?_eq_some howner)) hbound

/-- the scopes of the region are the same in another store -/
theorem congr {s' : Store} (h : s.Closed A) (hsame : ∀ i, A i → s'.scopes[i]? = s.scopes[i]?) : s'.Closed A := by
  constructor
  · intro i scope p hi hscope
    rw [hsame i hi] at hscope
    exact h.parent hi hscope
  · intro i scope b hi hscope
    rw [hsame i hi] at hscope
    exact h.table hi hscope

/-- one more scope, which refers to the region if it belongs to it -/
theorem add (h : s.Closed A) {scope : Scope} (hparent : A s.scopes.size → ∀ p, scope.parent = some p → A p)
    (htable : A s.scopes.size → ∀ b ∈ scope.table, b.2.In A) : Store.Closed A ⟨s.scopes.push scope⟩ := by
  constructor
  · intro i sc p hi hsc hp
    rw [Array.getElem?_push] at hsc
    split at hsc
    · subst i
      cases hsc
      exact hparent hi p hp
    · exact h.parent hi hsc hp
  · intro i sc b hi hsc hb
    rw [Array.getElem?_push] at hsc
    split at hsc
    · subst i
      cases hsc
      exact htable hi b hb
    · exact h.table hi hsc hb

theorem push (h : s.Closed A) {parent : ScopeId} (hparent : A s.scopes.size → A parent) :
    (s.push (some parent)).2.Closed A := by
  refine h.add (fun hnew p hp => ?_) nofun
  cases hp
  exact hparent hnew

theorem define (h : s.Closed A) {id : ScopeId} {v : Value} (hv : A id → v.In A) (name : Bytes) :
    (s.define id name v).Closed A := by
  constructor
  · intro i scope p hi hscope hp
    rw [Snapshot.getElem?_define] at hscope
    split at hscope
    · obtain ⟨old, hold, rfl⟩ := Option.map_eq_some_iff.mp hscope
      exact h.parent hi hold hp
    · exact h.parent hi hscope hp
  · intro i scope b hi hscope hb
    rw [Snapshot.getElem?_define] at hscope
    split at hscope
    · subst i
      obtain ⟨old, hold, rfl⟩ := Option.map_eq_some_iff.mp hscope
      rcases Table.mem_insert hb with hb | rfl
      · exact h.table hi hold hb
      · exact hv hi
    · exact h.table hi hscope hb

theorem defineAll (h : s.Closed A) {id : ScopeId} {bindings : List (Bytes × Value)}
    (hb : A id → ∀ b ∈ bindings, b.2.In A) : (s.defineAll id bindings).Closed A := by
  induction bindings generalizing s with
  | nil => exact h
  | cons b rest ih =>
    refine ih (h.define (fun hid => hb hid b List.mem_cons_self) b.1) fun hid c hc => ?_
    exact hb hid c (List.mem_cons_of_mem _ hc)

end Store.Closed

/-! ## Copies -/

namespace Snapshot

variable {k : Nat}

/-- from the scope `k` on, scopes refer to scopes from `k` on, and copies and builtins stand there -/
structure Behind (k : Nat) (c : Copying) : Prop where
  closed : c.store.Closed (k ≤ ·)
  size : k ≤ c.store.scopes.size
  base : k ≤ c.base
  copies : ∀ x ∈ c.copies, k ≤ x.2

/-- copying goes on behind `k`, and what stands for the scope is there -/
def StaysBehind (k : Nat) (copy : Copy) : Prop := ∀ id c, Behind k c → Behind k (copy id c).2 ∧ k ≤ (copy id c).1

theorem value_behind {copy : Copy} (hcopy : StaysBehind k copy) (v : Value) {c : Copying} (h : Behind k c) :
    Behind k (value copy v c).2 ∧ (value copy v c).1.In (k ≤ ·) := by
  cases v with
  | function f =>
    obtain ⟨hbehind, hscope⟩ := hcopy f.scope c h
    refine ⟨hbehind, ?_⟩
    rintro _ ⟨⟩
    exact hscope
  | unit | number | string | bool | builtin | range | unknown => exact ⟨h, nofun⟩

theorem Behind.define {c : Copying} (h : Behind k c) {v : Value} (hv : v.In (k ≤ ·)) (target : ScopeId) (name : Bytes) :
    Behind k { c with store := c.store.define target name v } := by
  refine ⟨h.closed.define (fun _ => hv) name, ?_, h.base, h.copies⟩
  rw [size_define]
  exact h.size

theorem table_behind {copy : Copy} (hcopy : StaysBehind k copy) (target : ScopeId) (t : Table) {c : Copying}
    (h : Behind k c) : Behind k (table copy target t c) := by
  induction t generalizing c with
  | nil => exact h
  | cons b t ih =>
    obtain ⟨hbehind, hvalue⟩ := value_behind hcopy b.2 h
    exact ih (hbehind.define hvalue target b.1)

theorem scopeWith_behind {copy : Copy} (hcopy : StaysBehind k copy) : StaysBehind k (scopeWith copy) := by
  intro id c h
  by_cases hstop : id = c.stop
  · rw [scopeWith, if_pos hstop]
    exact ⟨h, h.base⟩
  cases hlookup : c.copies.lookup id with
  | some t =>
    simp only [scopeWith, if_neg hstop, hlookup]
    exact ⟨h, h.copies (id, t) (mem_of_lookup hlookup)⟩
  | none =>
    cases hscope : c.store.scopes[id]? with
    | none =>
      simp only [scopeWith, if_neg hstop, hlookup, hscope]
      exact ⟨h, h.base⟩
    | some scope =>
      rw [scopeWith_new hstop hlookup hscope]
      obtain ⟨haround, hparent⟩ : Behind k (around copy scope.parent c).2 ∧ k ≤ (around copy scope.parent c).1 := by
        cases scope.parent with
        | none => exact ⟨h, h.base⟩
        | some p => exact hcopy p c h
      generalize around copy scope.parent c = r at haround hparent
      have hopened : Behind k (opened id r) := by
        refine ⟨haround.closed.push fun _ => hparent, ?_, haround.base, ?_⟩
        · rw [size_opened]
          exact Nat.le_succ_of_le haround.size
        · intro x hx
          rcases List.mem_cons.mp hx with rfl | hx
          · exact haround.size
          · exact haround.copies x hx
      exact ⟨table_behind hcopy _ _ hopened, haround.size⟩

theorem scopeWithin_behind (n : Nat) : StaysBehind k (scopeWithin n) := by
  induction n with
  | zero => exact fun _ _ h => ⟨h, h.base⟩
  | succ n ih => exact scopeWith_behind ih

end Snapshot

namespace Eval

/-- before anything is copied -/
theorem behind_copying (m : Machine) : Snapshot.Behind m.size (copying m) := by
  have hcore : Store.Closed (m.size ≤ ·) ⟨m.world.store.scopes.push ⟨none, coreTable⟩⟩ := by
    have hold : m.world.store.Closed (m.size ≤ ·) := by
      constructor
      · intro i scope p hi hscope
        rw [Array.getElem?_eq_none hi] at hscope
        cases hscope
      · intro i scope b hi hscope
        rw [Array.getElem?_eq_none hi] at hscope
        cases hscope
    exact hold.add (fun _ => nofun) fun _ b hb => (coreTable_plain.2 b hb).isIn _
  refine ⟨hcore.add (fun _ p hp => ?_) fun _ => nofun,
    (newInterpreter_kept m.world m.interpreter.limit (false :: m.interpreter.path)).size,
    Nat.le_refl _, fun x hx => absurd hx List.not_mem_nil⟩
  cases hp
  exact Nat.le_refl _

/-- what a new interpreter has in the place of a function refers only to new scopes, and so do these -/
theorem transfer_behind (v : Value) (m : Machine) :
    (transfer m.interpreter.core m.size (copying m).order v (copying m).store).2.Closed (m.size ≤ ·) ∧
      (transfer m.interpreter.core m.size (copying m).order v (copying m).store).1.In (m.size ≤ ·) := by
  have hbehind := behind_copying m
  have htake : (Snapshot.take m.interpreter.core m.size (copying m).order v (copying m).store).2.Closed (m.size ≤ ·) ∧
      (Snapshot.take m.interpreter.core m.size (copying m).order v (copying m).store).1.In (m.size ≤ ·) := by
    obtain ⟨hafter, hvalue⟩ := Snapshot.value_behind
      (Snapshot.scopeWithin_behind (Snapshot.depth (copying m).store)) v hbehind
    exact ⟨hafter.closed, hvalue⟩
  cases v with
  | builtin b =>
    refine ⟨hbehind.closed, ?_⟩
    simp only [transfer, rebound]
    cases hlookup : (copying m).store.lookup? m.size b.name with
    | none => nofun
    | some v => exact hbehind.closed.lookup? (Nat.le_refl _) hlookup
  | unit | number | string | bool | function | range | unknown => exact htake

theorem closed_spawned (v : Value) (m : Machine) : (spawned v m).Closed (m.size ≤ ·) := (transfer_behind v m).1

end Eval

/-! ## Machines and deeds -/

/-- the interpreter refers to scopes of the region only, and these to each other only; the host keeps no functions -/
structure Machine.Inside (A : Region) (m : Machine) : Prop where
  closed : m.world.store.Closed A
  core : A m.interpreter.core
  global : A m.interpreter.global
  handlers : ∀ e ∈ m.interpreter.handlers, ∀ h ∈ e.2, h.In A
  hosts : ∀ operation ∈ m.world.hosts, operation.In A
  memory : ∀ v ∈ m.world.memory, v.IsPlain

theorem Machine.Inside.handlersOf {A : Region} {m : Machine} (h : m.Inside A) (event : Bytes) :
    ∀ v ∈ Primitive.handlersOf m.interpreter event, v.In A := by
  intro v hv
  obtain ⟨e, he, hmem⟩ := Primitive.mem_handlersOf hv
  exact h.handlers e he v hmem

namespace Deed

variable {A : Region} {d : Deed} {m : Machine}

/-- what the deed is told refers to scopes of the region only -/
def In (A : Region) : Deed → Prop
  | .openScope parent bindings => A parent ∧ ∀ b ∈ bindings, b.2.In A
  | .declare scope (.value _ v) => A scope ∧ v.In A
  | .declare scope (.function ..) => A scope
  | .set owner _ v => A owner ∧ v.In A
  | .builtin _ args => ∀ v ∈ args, v.In A
  | .moveGlobal scope => A scope
  | .remember vs => ∀ v ∈ vs, v.In A
  | .enter .. | .leave | .trace .. | .note .. => True

/-- whether the deed is that of a builtin -/
def isBuiltin : Deed → Bool
  | .builtin .. => true
  | _ => false

/-- a host keeps no functions -/
def KeepsPlain (d : Deed) : Prop := ∀ vs, d = .remember vs → ∀ v ∈ vs, v.IsPlain

/-- what is new in the store after the deed belongs to the region, if it was opened for statements; what a builtin made
belongs to it all, or none of it does; and the host keeps no functions -/
structure Sorted (A : Region) (d : Deed) (m : Machine) : Prop where
  plain : d.KeepsPlain
  wellFormed : (d.effect m).world.store.WellFormed
  opened : d.isBuiltin = false → ∀ i, m.size ≤ i → i < (d.effect m).size → A i
  alike : ∀ i, m.size ≤ i → i < (d.effect m).size → (A i ↔ A m.size)

/-- what the deed gives refers to scopes of the region only -/
def AnswerIn (A : Region) : (d : Deed) → d.Answer → Prop
  | .openScope .., (scope : ScopeId) | .declare .., (scope : ScopeId) => A scope
  | .builtin .., (v : Value) => v.In A
  | .set .., _ | .enter .., _ | .leave, _ | .trace .., _ | .moveGlobal .., _ | .note .., _ | .remember _, _ => True

theorem In.scope {scope : ScopeId} {decl : Declaration} (h : (declare scope decl).In A) : A scope := by
  cases decl with
  | value => exact h.1
  | function => exact h

theorem In.bound {scope target : ScopeId} {decl : Declaration} (h : (declare scope decl).In A) (ht : A target) :
    (decl.bound target).In A := by
  cases decl with
  | value name v => exact h.2
  | function sig body =>
    rintro f ⟨⟩
    exact ht

end Deed

/-- scopes came that refer to each other only, and belong to the region all or not at all -/
theorem Store.Closed.of_kept {A : Region} {s s' : Store} (h : s.Closed A) (hkept : s.Kept s')
    (hnew : s'.Closed (s.scopes.size ≤ ·)) (hs' : s'.WellFormed)
    (halike : ∀ i, s.scopes.size ≤ i → i < s'.scopes.size → (A i ↔ A s.scopes.size)) : s'.Closed A := by
  have hlt : ∀ {i : ScopeId} {scope : Scope}, s'.scopes[i]? = some scope → i < s'.scopes.size := by
    intro i scope hscope
    exact (Array.getElem?_eq_some_iff.mp hscope).1
  constructor
  · intro i scope p hi hscope hp
    by_cases hold : i < s.scopes.size
    · rw [hkept.scopes i hold] at hscope
      exact h.parent hi hscope hp
    · have hle := Nat.le_of_not_lt hold
      have hpi := hs'.parent hscope hp
      have hmark := (halike i hle (hlt hscope)).1 hi
      exact (halike p (hnew.parent hle hscope hp) (Nat.lt_trans hpi (hlt hscope))).2 hmark
  · rintro i scope ⟨name, v⟩ hi hscope hb f rfl
    by_cases hold : i < s.scopes.size
    · rw [hkept.scopes i hold] at hscope
      exact h.table hi hscope hb f rfl
    · have hle := Nat.le_of_not_lt hold
      have hmark := (halike i hle (hlt hscope)).1 hi
      exact (halike f.scope (hnew.table hle hscope hb f rfl) (hs'.function hscope hb)).2 hmark

namespace Machine.Inside

variable {A : Region} {m m' : Machine}

/-- other scopes -/
theorem withStore (h : m.Inside A) {s : Store} (hs : s.Closed A) : (m.withStore s).Inside A :=
  ⟨hs, h.core, h.global, h.handlers, h.hosts, h.memory⟩

/-- another machine with the same host, the same outermost scopes, and scopes and handlers that stay in the region -/
theorem congr (h : m.Inside A) (hclosed : m'.world.store.Closed A)
    (hcore : m'.interpreter.core = m.interpreter.core) (hglobal : m'.interpreter.global = m.interpreter.global)
    (hhandlers : ∀ e ∈ m'.interpreter.handlers, ∀ v ∈ e.2, v.In A) (hhost : m.world.SameHost m'.world) :
    m'.Inside A := by
  refine ⟨hclosed, ?_, ?_, hhandlers, ?_, ?_⟩
  · rw [hcore]
    exact h.core
  · rw [hglobal]
    exact h.global
  · rw [hhost.hosts]
    exact h.hosts
  · rw [hhost.memory]
    exact h.memory

/-- another machine with the same scopes, interpreter and host -/
theorem of_same (h : m.Inside A) (hstore : m'.world.store = m.world.store) (hinterpreter : m'.interpreter = m.interpreter)
    (hhost : m.world.SameHost m'.world) : m'.Inside A := by
  refine h.congr ?_ (congrArg _ hinterpreter) (congrArg _ hinterpreter) ?_ hhost
  · rw [hstore]
    exact h.closed
  · rw [hinterpreter]
    exact h.handlers

end Machine.Inside

namespace Deed

variable {A : Region} {d : Deed} {m : Machine}

theorem inside_openScope {parent : ScopeId} {bindings : List (Bytes × Value)} (h : m.Inside A)
    (hd : (openScope parent bindings).In A) (hs : (openScope parent bindings).Sorted A m) :
    ((openScope parent bindings).effect m).Inside A ∧ ∀ a, ((openScope parent bindings).act m).1 = .ok a →
      (openScope parent bindings).AnswerIn A a := by
  have hnew : A m.size := by
    refine hs.opened rfl m.size (Nat.le_refl _) ?_
    rw [effect, act_openScope]
    exact Nat.lt_of_lt_of_le (Nat.lt_succ_self _) (Nat.le_of_eq ((Store.size_defineAll ..).trans (Store.size_push ..)).symm)
  rw [effect, act_openScope]
  refine ⟨h.withStore ((h.closed.push fun _ => hd.1).defineAll fun _ => hd.2), ?_⟩
  rintro a ⟨⟩
  exact hnew

theorem inside_declare {scope : ScopeId} {decl : Declaration} (h : m.Inside A) (hd : (declare scope decl).In A)
    (hs : (declare scope decl).Sorted A m) :
    ((declare scope decl).effect m).Inside A ∧ ∀ a, ((declare scope decl).act m).1 = .ok a →
      (declare scope decl).AnswerIn A a := by
  by_cases htaken : (m.world.store.bound? scope decl.name).isSome = true
  · have hnew : A m.size := by
      refine hs.opened rfl m.size (Nat.le_refl _) ?_
      rw [effect, act_declare, if_pos htaken]
      exact Nat.lt_of_lt_of_le (Nat.lt_succ_self _)
        (Nat.le_of_eq ((Snapshot.size_define ..).trans (Store.size_push ..)).symm)
    rw [effect, act_declare, if_pos htaken]
    refine ⟨h.withStore ((h.closed.push fun _ => hd.scope).define (fun _ => hd.bound hnew) _), ?_⟩
    rintro a ⟨⟩
    exact hnew
  · rw [effect, act_declare, if_neg htaken]
    refine ⟨h.withStore (h.closed.define (fun hscope => hd.bound hscope) _), ?_⟩
    rintro a ⟨⟩
    exact hd.scope

theorem inside_builtin {p : Primitive} {args : List Value} (h : m.Inside A) (hd : (builtin p args).In A)
    (hs : (builtin p args).Sorted A m) : ((builtin p args).effect m).Inside A := by
  have hwell := hs.wellFormed
  have halike := hs.alike
  change (p.run idle args m).2.world.store.WellFormed at hwell
  change ∀ i, m.size ≤ i → i < (p.run idle args m).2.world.store.scopes.size → (A i ↔ A m.size) at halike
  change (p.run idle args m).2.Inside A
  cases (p.run_idle args m).1 with
  | nothing hstore hinterpreter hhost => exact h.of_same hstore hinterpreter hhost
  | spawned v hv hstore hinterpreter hhost =>
    rw [hstore] at hwell halike
    have hspawned : (Eval.spawned v m).Closed A :=
      h.closed.of_kept (Eval.spawned_kept v m) (Eval.closed_spawned v m) hwell halike
    refine h.congr ?_ ?_ ?_ ?_ hhost
    · rwa [hstore]
    · rw [hinterpreter]
    · rw [hinterpreter]
    · rw [hinterpreter]
      exact h.handlers
  | registered event v hv hstore hinterpreter hhost =>
    refine h.congr ?_ ?_ ?_ ?_ hhost
    · rw [hstore]
      exact h.closed
    · rw [hinterpreter]
    · rw [hinterpreter]
    · rw [hinterpreter]
      intro e he w hw
      rcases Primitive.mem_addHandler he hw with rfl | ⟨e', he', hw'⟩
      · exact hd w hv
      · exact h.handlers e' he' w hw'

/-- **One deed.** A deed that is told only of scopes of the region leaves the machine inside it, and gives only what
refers to the region. -/
theorem inside_effect (h : m.Inside A) (hd : d.In A) (hs : d.Sorted A m) :
    (d.effect m).Inside A ∧ ∀ a, (d.act m).1 = .ok a → d.AnswerIn A a := by
  cases d with
  | openScope parent bindings => exact inside_openScope h hd hs
  | declare scope decl => exact inside_declare h hd hs
  | set owner name v =>
    rw [effect, act_set]
    split
    · exact ⟨h.withStore (h.closed.define (fun _ => hd.2) _), fun _ _ => trivial⟩
    · exact ⟨h.withStore h.closed, fun _ _ => trivial⟩
  | builtin p args =>
    refine ⟨inside_builtin h hd hs, fun v hv => ?_⟩
    exact ((Primitive.run_idle p args m).2 v hv).isIn A
  | enter | leave => exact ⟨h.congr h.closed rfl rfl h.handlers (.refl _), fun _ _ => trivial⟩
  | moveGlobal scope => exact ⟨⟨h.closed, h.core, hd, h.handlers, h.hosts, h.memory⟩, fun _ _ => trivial⟩
  | remember vs => exact ⟨⟨h.closed, h.core, h.global, h.handlers, h.hosts, hs.plain vs rfl⟩, fun _ _ => trivial⟩
  | trace function stage =>
    obtain ⟨hstore, hinterpreter, hhost, -⟩ := Eval.quiet_trace function stage m
    exact ⟨h.of_same hstore hinterpreter hhost, fun _ _ => trivial⟩
  | note entry =>
    obtain ⟨hstore, hinterpreter, hhost, -⟩ := Eval.quiet_log (fun _ => entry) m
    exact ⟨h.of_same hstore hinterpreter hhost, fun _ _ => trivial⟩

/-- a deed that is told only of scopes of the region leaves the others alone -/
theorem kept_effect (hd : d.In A) {i : ScopeId} (hi : i < m.size) (hA : ¬A i) :
    (d.effect m).world.store.scopes[i]? = m.world.store.scopes[i]? := by
  have hdefine : ∀ {id : ScopeId}, A id → ∀ name v,
      (m.world.store.define id name v).scopes[i]? = m.world.store.scopes[i]? := by
    intro id hid name v
    rw [Snapshot.getElem?_define, if_neg]
    rintro rfl
    exact hA hid
  cases d with
  | openScope parent bindings =>
    rw [effect, act_openScope]
    exact (((Store.Kept.refl _).push _).defineAll (Nat.le_refl _) bindings).scopes i hi
  | declare scope decl =>
    rw [effect, act_declare]
    split
    · exact (((Store.Kept.refl _).push _).define (Nat.le_refl _) _ _).scopes i hi
    · exact hdefine hd.scope _ _
  | set owner name v =>
    rw [effect, act_set]
    split
    · exact hdefine hd.1 _ _
    · rfl
  | builtin p args =>
    change (p.run idle args m).2.world.store.scopes[i]? = _
    cases (p.run_idle args m).1 with
    | nothing hstore | registered _ _ _ hstore => rw [hstore]
    | spawned v _ hstore =>
      rw [hstore]
      exact (Eval.spawned_kept v m).scopes i hi
  | enter | leave | moveGlobal | remember => rfl
  | trace function stage => rw [effect, act, (Eval.quiet_trace function stage m).1]
  | note entry => rw [effect, act, (Eval.quiet_log _ m).1]

/-- **Many deeds** leave the machine inside the region when each of them is told only of scopes of the region. -/
theorem inside_performAll {deeds : List Deed} (h : m.Inside A) (hd : ∀ d ∈ deeds, d.In A)
    (hs : Along (Sorted A) deeds m) : (performAll deeds m).Inside A := by
  induction deeds generalizing m with
  | nil => exact h
  | cons d deeds ih =>
    rw [List.forall_mem_cons] at hd
    exact ih (inside_effect h hd.1 hs.1).1 hd.2 hs.2

/-- **Many deeds** leave alone the scopes outside of the region. -/
theorem kept_performAll {deeds : List Deed} (hd : ∀ d ∈ deeds, d.In A) {i : ScopeId} (hi : i < m.size) (hA : ¬A i) :
    (performAll deeds m).world.store.scopes[i]? = m.world.store.scopes[i]? := by
  induction deeds generalizing m with
  | nil => rfl
  | cons d deeds ih =>
    rw [List.forall_mem_cons] at hd
    rw [performAll_cons, ih hd.2 (Nat.lt_of_lt_of_le hi (d.preserves_effect m).size), kept_effect hd.1 hi hA]

end Deed

/-! ## Tasks -/

/-- every scope of the region with itself -/
def Region.self (A : Region) : Pairing := fun i i' => i' = i ∧ A i

section Self

variable {A : Region}

theorem Value.In.paired {v : Value} (h : v.In A) : v.Paired A.self v := by
  cases v with
  | function f => exact .function f.sig f.body ⟨rfl, h f rfl⟩
  | unit | number | string | bool | builtin | range | unknown => exact .plain fun _ h => by cases h

theorem Value.Paired.self {v v' : Value} (h : v.Paired A.self v') : v' = v ∧ v.In A := by
  cases h with
  | function sig body h =>
    refine ⟨by rw [h.1], ?_⟩
    rintro _ ⟨⟩
    exact h.2
  | plain h => exact ⟨rfl, h.isIn A⟩

theorem paired_self {vs vs' : List Value} (h : List.Forall₂ (Value.Paired A.self) vs vs') :
    vs' = vs ∧ ∀ v ∈ vs, v.In A := by
  induction h with
  | nil => exact ⟨rfl, List.forall_mem_nil _⟩
  | cons h _ ih =>
    obtain ⟨rfl, hv⟩ := h.self
    obtain ⟨rfl, hvs⟩ := ih
    exact ⟨rfl, List.forall_mem_cons.mpr ⟨hv, hvs⟩⟩

theorem bindingsPaired_self {bs bs' : List (Bytes × Value)} (h : BindingsPaired A.self bs bs') :
    bs' = bs ∧ ∀ b ∈ bs, b.2.In A := by
  induction h with
  | nil => exact ⟨rfl, List.forall_mem_nil _⟩
  | @cons b b' _ _ h _ ih =>
    obtain ⟨hname, hvalue⟩ := h
    obtain ⟨hsame, hv⟩ := hvalue.self
    obtain ⟨rfl, hbs⟩ := ih
    refine ⟨?_, List.forall_mem_cons.mpr ⟨hv, hbs⟩⟩
    rw [Prod.ext hname hsame]

theorem Deed.Paired.self {d d' : Deed} (h : d.Paired A.self d') : d' = d ∧ d.In A := by
  cases h with
  | openScope h hbs =>
    obtain ⟨rfl, hin⟩ := bindingsPaired_self hbs
    exact ⟨by rw [h.1], h.2, hin⟩
  | declare h hd =>
    obtain ⟨rfl, hscope⟩ := h
    cases hd with
    | value name hv =>
      obtain ⟨rfl, hin⟩ := hv.self
      exact ⟨rfl, hscope, hin⟩
    | function => exact ⟨rfl, hscope⟩
  | set name h hv =>
    obtain ⟨rfl, hscope⟩ := h
    obtain ⟨rfl, hin⟩ := hv.self
    exact ⟨rfl, hscope, hin⟩
  | builtin p h =>
    obtain ⟨rfl, hin⟩ := paired_self h
    exact ⟨rfl, hin⟩
  | enter | leave | trace | note => exact ⟨rfl, trivial⟩
  | moveGlobal h =>
    obtain ⟨rfl, hscope⟩ := h
    exact ⟨rfl, hscope⟩
  | remember h =>
    obtain ⟨rfl, hin⟩ := paired_self h
    exact ⟨rfl, hin⟩

theorem Deed.AnswerIn.paired {d : Deed} {a : d.Answer} (h : d.AnswerIn A a) : AnswersPaired A.self d d a a := by
  cases d with
  | openScope | declare => exact ⟨rfl, h⟩
  | builtin => exact Value.In.paired h
  | set | enter | leave | trace | moveGlobal | note | remember => trivial

/-- everything else of a machine and itself is paired -/
def Common.all : Common := ⟨True, True, True⟩

theorem HostRequest.Meets.paired {r : HostRequest} (h : r.Meets (.inside A) ()) : r.Paired A.self .all r := by
  cases r with
  | call f args => exact .call (Value.In.paired h.1) (List.forall₂_same.2 fun v hv => Value.In.paired (h.2 v hv))
  | exec p scope =>
    refine .exec p ?_ trivial
    cases scope with
    | none => exact .none
    | some s => exact .some ⟨rfl, h s rfl⟩
  | execSource name source => exact .execSource name source trivial
  | register name arity index => exact .register name arity index trivial
  | define scope name v => exact .define name ⟨rfl, h.1⟩ (Value.In.paired h.2)
  | set scope name v => exact .set name ⟨rfl, h.1⟩ (Value.In.paired h.2)
  | lookUp scope name => exact .lookUp name ⟨rfl, h⟩
  | core => exact .core trivial
  | global => exact .global trivial
  | newScope parent => exact .newScope ⟨rfl, h⟩
  | kept => exact .kept trivial
  | remember vs => exact .remember (List.forall₂_same.2 fun v hv => Value.In.paired (h v hv)) trivial

theorem endsAlike_self {ε : Type} {a a' : Except ε Value} (h : EndsAlike (Value.Paired A.self) a a') :
    a' = a ∧ ∀ v, a = .ok v → v.In A := by
  cases h with
  | ok h =>
    obtain ⟨rfl, hv⟩ := h.self
    refine ⟨rfl, ?_⟩
    rintro _ ⟨⟩
    exact hv
  | error e => exact ⟨rfl, nofun⟩

theorem HostRequest.AnswersPaired.self {r : HostRequest} {a a' : r.Answer} (h : r.AnswersPaired A.self r a a') :
    a' = a ∧ r.AnswerMeets (.inside A) () a := by
  cases r with
  | call | exec | execSource => exact endsAlike_self h
  | lookUp scope name =>
    change Option.Rel (Value.Paired A.self) _ _ at h
    cases h with
    | none => exact ⟨rfl, nofun⟩
    | some h =>
      obtain ⟨rfl, hv⟩ := h.self
      refine ⟨rfl, ?_⟩
      rintro _ ⟨⟩
      exact hv
  | core | global | newScope => exact h
  | kept => exact paired_self h
  | set => exact ⟨h, trivial⟩
  | register | define | remember => exact ⟨rfl, trivial⟩

/-- an action that hands out only scopes of the region, and itself -/
theorem HostAction.Meets.paired {action : HostAction} (h : action.Meets (.inside A) ()) :
    action.Paired A.self .all action := by
  induction action with
  | answer v => exact .answer (Value.In.paired h)
  | fail d => exact .fail d
  | ask r next ih =>
    refine .ask (HostRequest.Meets.paired h.1) fun a a' ha => ?_
    obtain ⟨rfl, hanswer⟩ := HostRequest.AnswersPaired.self ha
    exact ih a' (h.2 () trivial a' hanswer)

theorem HostOperation.In.paired {operation : HostOperation} (h : operation.In A) :
    operation.Paired A.self .all operation := by
  intro vs vs' hvs
  obtain ⟨rfl, hin⟩ := paired_self hvs
  exact (h () trivial vs' hin).paired

end Self

/-- a machine inside the region, and itself -/
theorem Machine.correspondence_inside (A : Region) :
    Correspondence A.self .all (fun m m' => m' = m ∧ m.Inside A) (Deed.Sorted A) (Deed.Sorted A) where
  bound := by
    rintro _ m ⟨rfl, hm⟩ _ i ⟨rfl, hi⟩ name
    cases hv : m.world.store.bound? i name with
    | none => exact .none
    | some v => exact .some (hm.closed.bound hi hv).paired
  parent := by
    rintro _ m ⟨rfl, hm⟩ _ i ⟨rfl, hi⟩
    cases hp : m.world.store.parent? i with
    | none => exact .none
    | some p => exact .some ⟨rfl, hm.closed.parent? hi hp⟩
  core := by
    rintro _ m ⟨rfl, -⟩ _ i ⟨rfl, -⟩
    exact Iff.rfl
  limit := by
    rintro _ m ⟨rfl, -⟩
    rfl
  frames := by
    rintro _ m ⟨rfl, -⟩
    rfl
  handlers := by
    rintro _ m ⟨rfl, hm⟩ event
    exact List.forall₂_same.2 fun v hv => (hm.handlersOf event v hv).paired
  hosts := by
    rintro _ m ⟨rfl, hm⟩ index
    cases ha : m.world.hosts[index]? with
    | none => exact .none
    | some operation => exact .some (HostOperation.In.paired (hm.hosts operation (Array.mem_of_getElem? ha)))
  global := by
    rintro - _ m ⟨rfl, hm⟩
    refine ⟨⟨rfl, hm.global⟩, ?_⟩
    rintro _ i ⟨rfl, -⟩
    exact Iff.rfl
  builtins := by
    rintro - _ m ⟨rfl, hm⟩
    exact ⟨rfl, hm.core⟩
  memory := by
    rintro - _ m ⟨rfl, hm⟩
    exact List.forall₂_same.2 fun v hv => .plain (hm.memory v hv)
  deed := by
    rintro _ m ⟨rfl, hm⟩ d d' hd hs -
    obtain ⟨rfl, hin⟩ := hd.self
    obtain ⟨hinside, hanswer⟩ := Deed.inside_effect hm hin hs
    refine ⟨?_, rfl, hinside⟩
    cases hact : (d'.act m).1 with
    | error e => exact .error e
    | ok a => exact .ok (hanswer a hact).paired

namespace Eval

variable {A : Region} {m : Machine} {n : Nat} {ds : List Deed}

/-- **Tasks stay in their region.** What a task does, when it is told only of scopes of the region, is told only of scopes
of the region, and so is what it gives. -/
theorem confined {t : Task} {r : Except Diagnostic t.Answer} (ht : t.Paired A.self t)
    (hrun : Task.runWithin n t m = some (r, ds)) (hm : m.Inside A) (hs : Deed.Along (Deed.Sorted A) ds m) :
    (∀ d ∈ ds, d.In A) ∧ ∀ a, r = .ok a → t.AnswersPaired A.self t a a := by
  obtain ⟨hend, hds⟩ := ((matches_runWithin (Machine.correspondence_inside A) n).paired ht).alike ⟨rfl, hm⟩ hrun hrun hs hs
  refine ⟨fun d hd => ?_, ?_⟩
  · exact (List.forall₂_same.1 hds d hd).self.2
  · rintro a rfl
    cases hend with
    | ok h => exact h

end Eval

/-! ## Operations of a host -/

namespace Operation

open Eval

variable {A : Region} {m : Machine} {n : Nat}

/-- what the operation is told refers to scopes of the region only -/
def In (A : Region) : Operation → Prop
  | .exec _ scope => ∀ s, scope = some s → A s
  | .execSource .. => True
  | .call f args => f.In A ∧ ∀ v ∈ args, v.In A

theorem In.paired {op : Operation} (h : op.In A) : op.Paired A.self op := by
  cases op with
  | exec p scope =>
    refine .exec p ?_
    cases scope with
    | none => exact .none
    | some s => exact .some ⟨rfl, h s rfl⟩
  | execSource name source => exact .execSource name source
  | call f args => exact .call (Value.In.paired h.1) (List.forall₂_same.2 fun v hv => Value.In.paired (h.2 v hv))

theorem confined_runWithin {op : Operation} (hop : op.In A) {r : Except Diagnostic Outcome} {ds : List Deed}
    (hrun : op.runWithin n m = some (r, ds)) (hm : m.Inside A) (hs : Deed.Along (Deed.Sorted A) ds m) :
    ∀ d ∈ ds, d.In A := by
  have hmatches := matches_runWithin (Machine.correspondence_inside A) trivial n hop.paired
  exact fun d hd => (List.forall₂_same.1 (hmatches.alike ⟨rfl, hm⟩ hrun hrun hs hs).2 d hd).self.2

/-- **Operations stay in their region.** What operations do one after the other, when they are told only of scopes of the
region, is told only of scopes of the region. -/
theorem confined_each {ops : List Operation} (hops : ∀ op ∈ ops, op.In A) {r : Except Diagnostic (List Outcome)}
    {ds : List Deed} (hrun : runEachWithin n ops m = some (r, ds)) (hm : m.Inside A)
    (hs : Deed.Along (Deed.Sorted A) ds m) : ∀ d ∈ ds, d.In A := by
  induction ops generalizing m r ds with
  | nil =>
    cases hrun
    exact List.forall_mem_nil _
  | cons op ops ih =>
    rw [List.forall_mem_cons] at hops
    rcases Course.bind_eq_some hrun with ⟨e, he, -⟩ | ⟨_, ds₁, ds₂, hop, hnext, rfl⟩
    · exact confined_runWithin hops.1 he hm hs
    · rw [Deed.along_append] at hs
      have hfirst := confined_runWithin hops.1 hop hm hs.1
      have hinside := Deed.inside_performAll hm hfirst hs.1
      have hrest : ∀ d ∈ ds₂, d.In A := by
        rcases Course.bind_eq_some hnext with ⟨e, he, -⟩ | ⟨_, ds₃, ds₄, hops', ⟨⟩, rfl⟩
        · exact ih hops.2 he hinside hs.2
        · rw [List.append_nil] at hs ⊢
          exact ih hops.2 hops' hinside hs.2
      intro d hd
      rcases List.mem_append.mp hd with hd | hd
      · exact hfirst d hd
      · exact hrest d hd

end Operation

end Ouroboros
