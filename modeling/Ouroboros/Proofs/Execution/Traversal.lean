/-
What holds of all courses.

Tasks are put together from few courses: they read the machine, do deeds, fail, and carry out other tasks. So what holds of
these, and is handed on from a course to the one behind it, holds of the tasks (`Eval.CourseRules.expr`,
`Eval.CourseRules.stmt` and so on). Calls enter and leave, say so in the debug log, and catch failures; what is said about
these is said apart, and so it is about the operations of a host (`Eval.RunRules.expand`).
-/
import Ouroboros.Proofs.Execution.Hosts
import Ouroboros.Proofs.Execution.Tasks

namespace Ouroboros

/-- whether the deed has to do with scopes or builtins only -/
def Deed.isInner : Deed → Bool
  | .openScope .. | .declare .. | .set .. | .builtin .. => true
  | _ => false

namespace Eval

/-- something that holds of the courses of which tasks are made, and is handed on from a course to the one behind it -/
structure CourseRules (P : ∀ ⦃α : Type⦄, Course α → Prop) : Prop where
  pure : ∀ {α : Type} (a : α), P (Pure.pure a)
  fail : ∀ {α : Type} (e : Diagnostic), P (Course.fail e : Course α)
  reads : ∀ {α : Type} (f : Machine → Except Diagnostic α), P (Course.reads f)
  bind : ∀ {α β : Type} {x : Course α} {k : α → Course β}, P x → (∀ a, P (k a)) → P (x >>= k)
  deed : ∀ {d : Deed}, d.isInner = true → P (Course.deed d)

/-- it holds of the tasks of which trees are made, but for the calls in them -/
structure HoldsInside (P : ∀ ⦃α : Type⦄, Course α → Prop) (run : Task.Runner) : Prop where
  owner : ∀ scope name, P (run (.owner scope name))
  expr : ∀ scope e, P (run (.expr scope e))
  exprs : ∀ scope es, P (run (.exprs scope es))
  stmt : ∀ scope s, P (run (.stmt scope s))
  stmts : ∀ scope ss last, P (run (.stmts scope ss last))
  rounds : ∀ scope var body next high, P (run (.rounds scope var body next high))
  copy : ∀ id c, P (run (.copy id c))

variable {P : ∀ ⦃α : Type⦄, Course α → Prop} {run : Task.Runner}

namespace CourseRules

theorem asks (R : CourseRules P) {α : Type} (f : Machine → α) : P (Course.asks f) := R.reads fun m => .ok (f m)

theorem failAt (R : CourseRules P) {α : Type} (pos : Pos) (fault : Fault) : P (Course.failAt pos fault : Course α) :=
  R.fail _

theorem ite {α : Type} {p : Prop} [Decidable p] {x y : Course α} (hx : P x) (hy : P y) : P (if p then x else y) := by
  split
  · exact hx
  · exact hy

/-! ## Names -/

theorem owner (R : CourseRules P) (I : HoldsInside P run) (scope : ScopeId) (name : Bytes) :
    P (Course.owner run scope name) := by
  refine R.bind (R.asks _) fun s => ?_
  unfold Course.ownerIn
  split
  · exact R.pure _
  · split
    · exact I.owner _ name
    · exact R.pure _

theorem lookUp (R : CourseRules P) (I : HoldsInside P run) (scope : ScopeId) (name : Bytes) :
    P (Course.lookUp run scope name) := by
  refine R.bind (I.owner scope name) fun o => ?_
  cases o with
  | none => exact R.pure _
  | some owner => exact R.asks _

theorem bindHere (R : CourseRules P) (scope : ScopeId) (name : Bytes) (v : Value) :
    P (Course.bindHere scope name v) := by
  refine R.bind (R.asks _) fun b => ite (R.deed (d := .set scope name v) rfl) ?_
  exact R.bind (R.deed (d := .declare ..) rfl) fun _ => R.pure _

theorem setVisible (R : CourseRules P) (I : HoldsInside P run) (scope : ScopeId) (name : Bytes) (v : Value) :
    P (Course.setVisible run scope name v) := by
  refine R.bind (I.owner scope name) fun o => ?_
  cases o with
  | none => exact R.pure _
  | some owner => exact R.bind (R.deed (d := .set ..) rfl) fun _ => R.pure _

theorem assign (R : CourseRules P) (I : HoldsInside P run) (pos : Pos) (scope : ScopeId) (name : Bytes) (v : Value) :
    P (Course.assign run pos scope name v) := by
  refine R.bind (I.owner scope name) fun o => ?_
  cases o with
  | none => exact R.failAt _ _
  | some owner => exact R.bind (R.asks _) fun core => ite (R.failAt _ _) (R.deed (d := .set owner name v) rfl)

/-! ## Trees -/

/-- an expression, if calls in it are as said -/
theorem expr (R : CourseRules P) (I : HoldsInside P run) (scope : ScopeId) (e : Expr)
    (hcall : ∀ pos callee args, e = .call pos callee args → P (Course.expr run scope e)) : P (Course.expr run scope e) := by
  cases e with
  | number | string => exact R.pure _
  | ident pos name =>
    refine R.bind (R.lookUp I scope name) fun o => ?_
    cases o with
    | none => exact R.failAt _ _
    | some v => exact R.pure _
  | group pos inner | await pos inner => exact I.expr scope inner
  | binary pos op left right => exact R.bind (I.expr scope left) fun a => R.bind (I.expr scope right) fun b => R.reads _
  | range pos low high => exact R.bind (I.expr scope low) fun a => R.bind (I.expr scope high) fun b => R.reads _
  | call pos callee args => exact hcall pos callee args rfl

theorem exprs (R : CourseRules P) (I : HoldsInside P run) (scope : ScopeId) (es : List Expr) :
    P (Course.exprs run scope es) := by
  cases es with
  | nil => exact R.pure _
  | cons e rest => exact R.bind (I.expr scope e) fun v => R.bind (I.exprs scope rest) fun vs => R.pure _

theorem block (R : CourseRules P) (I : HoldsInside P run) (scope : ScopeId) (ss : List Stmt) :
    P (Course.block run scope ss) :=
  R.bind (R.deed (d := .openScope ..) rfl) fun inner => R.bind (I.stmts inner ss .unit) fun _ => R.pure _

theorem stmt (R : CourseRules P) (I : HoldsInside P run) (scope : ScopeId) (s : Stmt) : P (Course.stmt run scope s) := by
  cases s with
  | expr pos x => exact R.bind (I.expr scope x) fun v => R.pure _
  | letDecl pos name type init =>
    exact R.bind (I.expr scope init) fun v => R.bind (R.deed (d := .declare ..) rfl) fun target => R.pure _
  | fnDecl pos sig bodyPos body => exact R.bind (R.deed (d := .declare ..) rfl) fun target => R.pure _
  | assign pos name value =>
    exact R.bind (I.expr scope value) fun v => R.bind (R.assign I pos scope name v) fun _ => R.pure _
  | cond pos test thenPos thenBody otherwise =>
    refine R.bind (I.expr scope test) fun v => ?_
    split
    · exact R.bind (R.block I scope thenBody) fun c => R.pure _
    · cases otherwise with
      | none => exact R.pure _
      | some s => exact R.bind (I.stmt scope s) fun r => R.pure _
  | loop pos var bounds bodyPos body =>
    refine R.bind (I.expr scope bounds) fun v => ?_
    cases v with
    | range low high => exact R.bind (I.rounds scope var body low high) fun c => R.pure _
    | unit | number | string | bool | function | builtin | unknown => exact R.failAt _ _
  | ret pos value =>
    refine R.bind (R.asks _) fun frames => ?_
    split
    · exact R.failAt _ _
    · cases value with
      | none => exact R.pure _
      | some x => exact R.bind (I.expr scope x) fun v => R.pure _
  | block pos body => exact R.bind (R.block I scope body) fun c => R.pure _

theorem stmts (R : CourseRules P) (I : HoldsInside P run) (scope : ScopeId) (ss : List Stmt) (last : Value) :
    P (Course.stmts run scope ss last) := by
  cases ss with
  | nil => exact R.pure _
  | cons s rest =>
    refine R.bind (I.stmt scope s) fun r => ?_
    rcases r with ⟨inner, v | v⟩
    · exact I.stmts inner rest v
    · exact R.pure _

theorem rounds (R : CourseRules P) (I : HoldsInside P run) (scope : ScopeId) (var : Bytes) (ss : List Stmt)
    (next high : Int) : P (Course.rounds run scope var ss next high) := by
  unfold Course.rounds
  split
  · refine R.bind (R.deed (d := .openScope ..) rfl) fun inner => R.bind (I.stmts inner ss .unit) fun c => ?_
    cases c with
    | normal v => exact I.rounds scope var ss (next + 1) high
    | returned v => exact R.pure _
  · exact R.pure _

/-! ## Copies -/

theorem copyTable (R : CourseRules P) (I : HoldsInside P run) (target : ScopeId) (t : Table) (c : Snapshot.Copying) :
    P (Course.copyTable run target t c) := by
  induction t generalizing c with
  | nil => exact R.pure _
  | cons b rest ih =>
    obtain ⟨name, v⟩ := b
    cases v with
    | function f => exact R.bind (I.copy f.scope c) fun r => ih _
    | unit | number | string | bool | builtin | range | unknown => exact ih _

theorem copy (R : CourseRules P) (I : HoldsInside P run) (id : ScopeId) (c : Snapshot.Copying) :
    P (Course.copy run id c) := by
  unfold Course.copy
  split
  · exact R.pure _
  · split
    · exact R.pure _
    · exact R.pure _
    · refine R.bind ?_ fun r => R.bind (R.copyTable I _ _ _) fun c => R.pure _
      unfold Course.copyAround
      split
      · exact I.copy _ _
      · exact R.pure _

end CourseRules

/-! ## Runs -/

/-- something that holds of all that is done between calls -/
structure RunRules (P : ∀ ⦃α : Type⦄, Course α → Prop) : Prop extends CourseRules P where
  attempt : ∀ {α : Type} {x : Course α}, P x → P (Course.attempt x)
  trace : ∀ (function : Bytes) (stage : CallStage), P (Course.deed (.trace function stage))
  note : ∀ entry : LogEntry, P (Course.deed (.note entry))

namespace RunRules

variable {R : RunRules P}

theorem inside (hrun : ∀ t, P (run t)) : HoldsInside P run where
  owner _ _ := hrun _
  expr _ _ := hrun _
  exprs _ _ := hrun _
  stmt _ _ := hrun _
  stmts _ _ _ := hrun _
  rounds _ _ _ _ _ := hrun _
  copy _ _ := hrun _

theorem callExpr (R : RunRules P) (hrun : ∀ t, P (run t)) (scope : ScopeId) (pos : Pos) (callee : Expr) (args : List Expr) :
    P (Course.expr run scope (.call pos callee args)) := by
  refine R.bind (hrun (.expr scope callee)) fun f => R.bind (R.trace _ _) fun _ => ?_
  exact R.bind (hrun (.exprs scope args)) fun vs => R.bind (R.trace _ _) fun _ => hrun (.call f vs pos)

theorem handlers (R : RunRules P) (hrun : ∀ t, P (run t)) (hs : List Value) : P (Course.handlers run hs) := by
  cases hs with
  | nil => exact R.pure _
  | cons h rest => exact R.bind (hrun (.call h [] .unknown)) fun _ => hrun (.handlers rest)

theorem program (R : RunRules P) (hrun : ∀ t, P (run t)) (scope : ScopeId) (ss : List Stmt) (last : Value) :
    P (Course.program run scope ss last) := by
  cases ss with
  | nil => exact R.pure _
  | cons s rest =>
    refine R.bind (R.attempt (hrun (.stmt scope s))) fun r => ?_
    rcases r with d | ⟨inner, v | v⟩
    · exact R.pure _
    · exact hrun (.program inner rest v)
    · exact R.pure _

theorem exec (R : RunRules P) (hrun : ∀ t, P (run t)) (hmove : ∀ scope, P (Course.deed (.moveGlobal scope)))
    (p : Program) (scope : Option ScopeId) : P (Course.exec run p scope) := by
  unfold Course.exec
  split
  · refine R.bind (R.asks _) fun first => R.bind (hrun (.program first p.stmts .unit)) fun r => ?_
    refine R.bind (R.asks _) fun global => ?_
    dsimp only
    split
    · exact R.bind (hmove _) fun _ => R.pure _
    · exact R.pure _
  · exact R.pure _

theorem execSource (R : RunRules P) (hrun : ∀ t, P (run t)) (hmove : ∀ scope, P (Course.deed (.moveGlobal scope)))
    (name source : Bytes) : P (Course.execSource run name source) :=
  R.bind (R.note _) fun _ => R.exec hrun hmove _ none

/-! ### Builtins -/

/-- answering a host's operation; what it has run may move the global scope, and what it keeps is its own affair -/
theorem answer (R : RunRules P) (hrun : ∀ t, P (run t)) (r : HostRequest)
    (hmove : r.runs = true → ∀ scope, P (Course.deed (.moveGlobal scope)))
    (hremember : ∀ vs, r = .remember vs → P (Course.deed (.remember vs))) : P (Course.answer run r) := by
  cases r with
  | call f args => exact R.attempt (hrun (.call f args .unknown))
  | exec p scope => exact R.exec hrun (hmove rfl) p scope
  | execSource name source => exact R.execSource hrun (hmove rfl) name source
  | register name arity index => exact R.bind (R.asks _) fun core => R.bindHere core name _
  | define scope name v => exact R.bindHere scope name v
  | set scope name v => exact R.setVisible (inside hrun) scope name v
  | lookUp scope name => exact R.lookUp (inside hrun) scope name
  | core | global | kept => exact R.asks _
  | newScope parent => exact R.deed (d := .openScope ..) rfl
  | remember vs => exact hremember vs rfl

/-- an operation of a host that asks only what `Q` admits -/
theorem host (R : RunRules P) {Q : HostRequest → Prop} (hanswer : ∀ r, Q r → P (Course.answer run r)) {action : HostAction}
    (h : action.AsksOnly Q) : P (Course.host run action) := by
  induction action with
  | answer v => exact R.pure v
  | fail d => exact R.fail d
  | ask r next ih => exact R.bind (hanswer r h.1) fun a => ih a (h.2 a)

theorem primitive (R : RunRules P) (hrun : ∀ t, P (run t)) (p : Primitive) (args : List Value) :
    P (Course.primitive run p args) := by
  have hidle : P (Course.deed (.builtin p args)) := R.deed (d := .builtin p args) rfl
  unfold Course.primitive
  split
  · exact hidle
  · exact R.bind hidle fun _ => hrun (.call _ [] .unknown)
  · exact R.bind (R.asks _) fun hs => R.bind hidle fun v => R.bind (hrun (.handlers hs)) fun _ => R.pure _
  · exact R.bind (R.asks _) fun c => R.bind (hrun (.copy _ c)) fun _ => hidle

theorem body (R : RunRules P) (hrun : ∀ t, P (run t))
    (hhost : ∀ name arity index args, P (Course.builtin run (.ofHost name arity index) args)) (args : List Value)
    (callee : Callee) : P (Course.body run args callee) := by
  cases callee with
  | declared f => exact R.bind (R.deed (d := .openScope ..) rfl) fun scope => hrun (.stmts scope f.body .unit)
  | builtin b =>
    obtain ⟨name, arity, p | index⟩ := b
    · exact R.bind (R.primitive hrun p args) fun v => R.pure _
    · exact R.bind (hhost name arity index args) fun v => R.pure _

/-- **Tasks are made of these courses**, apart from entering and leaving calls and from the operations of the host. -/
theorem expand (R : RunRules P) (hrun : ∀ t, P (run t)) (hcall : ∀ f args pos, P (Course.call run f args pos))
    (hhost : ∀ name arity index args, P (Course.builtin run (.ofHost name arity index) args)) (t : Task) :
    P (t.expand run) := by
  cases t with
  | owner scope name => exact R.owner (inside hrun) scope name
  | expr scope e =>
    refine R.expr (inside hrun) scope e ?_
    rintro pos callee args rfl
    exact R.callExpr hrun scope pos callee args
  | exprs scope es => exact R.exprs (inside hrun) scope es
  | stmt scope s => exact R.stmt (inside hrun) scope s
  | stmts scope ss last => exact R.stmts (inside hrun) scope ss last
  | rounds scope var ss next high => exact R.rounds (inside hrun) scope var ss next high
  | call f args pos => exact hcall f args pos
  | body callee args => exact R.body hrun hhost args callee
  | handlers hs => exact R.handlers hrun hs
  | copy id c => exact R.copy (inside hrun) id c
  | program scope ss last => exact R.program hrun scope ss last

end RunRules

end Eval

/-! ## The deeds of a run -/

theorem Deed.sameHost_effect {d : Deed} (hd : ∀ vs, d ≠ .remember vs) (m : Machine) :
    m.world.SameHost (d.effect m).world := by
  cases d with
  | openScope =>
    rw [effect, act_openScope]
    exact ⟨rfl, rfl, rfl⟩
  | declare =>
    rw [effect, act_declare]
    split
    · exact ⟨rfl, rfl, rfl⟩
    · exact ⟨rfl, rfl, rfl⟩
  | set | enter | leave | moveGlobal => exact ⟨rfl, rfl, rfl⟩
  | remember vs => exact absurd rfl (hd vs)
  | trace function stage => exact (Eval.quiet_trace function stage m).2.2.1
  | note entry => exact (Eval.quiet_log (fun _ => entry) m).2.2.1
  | builtin p args =>
    change m.world.SameHost (p.run idle args m).2.world
    cases (p.run_idle args m).1 with
    | nothing _ _ hhost | spawned _ _ _ _ hhost | registered _ _ _ _ _ hhost => exact hhost

theorem Deed.hosts_effect (d : Deed) (m : Machine) : (d.effect m).world.hosts = m.world.hosts := by
  by_cases hd : ∀ vs, d ≠ .remember vs
  · exact (d.sameHost_effect hd m).hosts
  · obtain ⟨vs, rfl⟩ := not_forall_not.mp hd
    rfl

theorem Deed.orders_effect (d : Deed) (m : Machine) : (d.effect m).world.orders = m.world.orders := by
  by_cases hd : ∀ vs, d ≠ .remember vs
  · exact (d.sameHost_effect hd m).orders
  · obtain ⟨vs, rfl⟩ := not_forall_not.mp hd
    rfl

theorem hosts_performAll (deeds : List Deed) (m : Machine) : (performAll deeds m).world.hosts = m.world.hosts := by
  induction deeds generalizing m with
  | nil => rfl
  | cons d deeds ih => exact (ih _).trans (d.hosts_effect m)

theorem orders_performAll (deeds : List Deed) (m : Machine) : (performAll deeds m).world.orders = m.world.orders := by
  induction deeds generalizing m with
  | nil => rfl
  | cons d deeds ih => exact (ih _).trans (d.orders_effect m)

/-- whatever the arguments are, the host's operations ask only what `Q` admits -/
def World.HostsAsk (Q : HostRequest → Prop) (w : World) : Prop :=
  ∀ operation ∈ w.hosts, ∀ args, (operation args).AsksOnly Q

/-- the host's operations do not get over failures -/
def World.HostsPassOn (w : World) : Prop := ∀ operation ∈ w.hosts, ∀ args, (operation args).PassesOn

/-- when the host asks only what `Q` admits, every deed of the course is as `D` says -/
def Course.Does (Q : HostRequest → Prop) (D : Deed → Prop) ⦃α : Type⦄ (x : Course α) : Prop :=
  ∀ m r ds, m.world.HostsAsk Q → x m = some (r, ds) → ∀ d ∈ ds, D d

namespace Course.Does

variable {Q : HostRequest → Prop} {D : Deed → Prop} {α β : Type}

theorem of_idle {x : Course α} (h : ∀ m r ds, x m = some (r, ds) → ds = []) : x.Does Q D := by
  intro m r ds _ hx
  rw [h m r ds hx]
  exact List.forall_mem_nil _

theorem bind {x : Course α} {k : α → Course β} (hx : x.Does Q D) (hk : ∀ a, (k a).Does Q D) : (x >>= k).Does Q D := by
  intro m r ds hhosts h
  rcases bind_eq_some h with ⟨e, he, -⟩ | ⟨a, ds₁, ds₂, hfirst, hnext, rfl⟩
  · exact hx m _ ds hhosts he
  · have hlater : (performAll ds₁ m).world.HostsAsk Q := by
      rw [World.HostsAsk, hosts_performAll]
      exact hhosts
    exact List.forall_mem_append.mpr ⟨hx m _ ds₁ hhosts hfirst, hk a _ r ds₂ hlater hnext⟩

theorem attempt {x : Course α} (hx : x.Does Q D) : (Course.attempt x).Does Q D := by
  intro m r ds hhosts h
  obtain ⟨⟨s, ds⟩, hs, heq⟩ := Option.map_eq_some_iff.1 h
  cases heq
  exact hx m s ds hhosts hs

theorem deed {d : Deed} (h : D d) : (Course.deed d).Does Q D := by
  rintro m r ds - ⟨⟩
  exact List.forall_mem_singleton.mpr h

end Course.Does

/-- `D` holds of all deeds, but for what becomes of the global scope and of what the host keeps: of this it holds when it is
done for a question that `Q` admits -/
structure Deed.DoneFor (Q : HostRequest → Prop) (D : Deed → Prop) : Prop where
  plain : ∀ d, (∀ scope, d ≠ .moveGlobal scope) → (∀ vs, d ≠ .remember vs) → D d
  moves : ∀ r, Q r → r.runs = true → ∀ scope, D (.moveGlobal scope)
  keeps : ∀ vs, Q (.remember vs) → D (.remember vs)

namespace Eval

variable {Q : HostRequest → Prop} {D : Deed → Prop} {run : Task.Runner}

theorem does_rules (hD : Deed.DoneFor Q D) : RunRules (Course.Does Q D) where
  pure _ := .of_idle fun _ _ _ h => by cases h; rfl
  fail _ := .of_idle fun _ _ _ h => by cases h; rfl
  reads _ := .of_idle fun _ _ _ h => by cases h; rfl
  bind := .bind
  attempt := .attempt
  deed {d} h := by
    refine .deed (hD.plain d ?_ ?_)
    · rintro scope rfl
      cases h
    · rintro vs rfl
      cases h
  trace _ _ := .deed (hD.plain _ nofun nofun)
  note _ := .deed (hD.plain _ nofun nofun)

theorem does_settle (hD : Deed.DoneFor Q D) (callee : Callee) (pos : Pos) (r : Except Diagnostic Completion) :
    (Course.settle callee pos r).Does Q D := by
  have R := does_rules hD
  have hleave : (Course.deed .leave).Does Q D := .deed (hD.plain _ nofun nofun)
  rcases r with d | v | v
  · exact .bind (R.asks _) fun frames => .bind hleave fun _ => R.fail _
  · exact .bind hleave fun _ => .bind (R.trace _ _) fun _ => .bind (R.trace _ _) fun _ => R.pure _
  · exact .bind hleave fun _ => .bind (R.trace _ _) fun _ => .bind (R.trace _ _) fun _ => R.pure _

theorem does_call (hD : Deed.DoneFor Q D) (hrun : ∀ t, (run t).Does Q D) (f : Value) (args : List Value) (pos : Pos) :
    (Course.call run f args pos).Does Q D := by
  have R := does_rules hD
  unfold Course.call
  cases calleeFor f args with
  | error fault => exact R.failAt pos fault
  | ok callee =>
    refine .bind (R.asks _) fun i => CourseRules.ite (P := Course.Does Q D) (R.failAt _ _) ?_
    refine .bind (.deed (hD.plain (.enter _) nofun nofun)) fun _ => .bind (R.trace _ _) fun _ => ?_
    exact .bind (hrun (.body callee args)).attempt fun r => does_settle hD callee pos r

/-- the operation is one of those that ask only what `Q` admits -/
theorem does_host (hD : Deed.DoneFor Q D) (hrun : ∀ t, (run t).Does Q D) (name : Bytes) (arity : Option Nat) (index : Nat)
    (args : List Value) : (Course.builtin run (.ofHost name arity index) args).Does Q D := by
  have R := does_rules hD
  intro m r ds hhosts h
  rw [Course.builtin_ofHost] at h
  cases hoperation : m.world.hosts[index]? with
  | none =>
    rw [hoperation] at h
    exact R.pure _ m r ds hhosts h
  | some operation =>
    rw [hoperation] at h
    have hanswer : ∀ r : HostRequest, Q r → (Course.answer run r).Does Q D := by
      intro r hr
      refine R.answer hrun r (fun hruns scope => .deed (hD.moves r hr hruns scope)) ?_
      rintro vs rfl
      exact .deed (hD.keeps vs hr)
    exact R.host hanswer (hhosts operation (Array.mem_of_getElem? hoperation) args) m r ds hhosts h

/-- **The deeds of a task.** A task does only deeds that are done for all tasks, and those that the host's questions lead
to. -/
theorem does_runWithin (hD : Deed.DoneFor Q D) (n : Nat) (t : Task) : (Task.runWithin n t).Does Q D := by
  induction n generalizing t with
  | zero => exact .of_idle fun _ _ _ h => by cases h
  | succ n ih => exact (does_rules hD).expand ih (does_call hD ih) (does_host hD ih) t

end Eval

end Ouroboros
