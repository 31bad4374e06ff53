/-
Spawned work is isolated.

Spawning a function makes a new interpreter and copies for it what the function sees. The copying comes to an end, whatever
the functions and scopes refer to, and leaves all scopes that are there as they are; from the copied function only new
scopes are reached, the new interpreter's builtins among them (`Spawned`).

From then on there are two regions that do not refer to each other: the scopes of the spawned work, and all others. What
runs in the one leaves the other alone. So the work, run to its end, changes no scope but its own and no interpreter but its
own (`Machine.runJob_kept`), and nothing that is done later in the program that spawned it changes a scope of the work.
`Operation.spawn_isolates` says it of every spawning in all that a host can have a machine do.
-/
import Mathlib.Logic.Relation
import Ouroboros.Proofs.Execution.Outside
import Ouroboros.Proofs.Execution.Traversal
import Ouroboros.Proofs.Isolation.Regions

namespace Ouroboros

/-! ## Confined hosts -/

/-- a question of a host that keeps no functions -/
def HostRequest.KeepsPlain (r : HostRequest) : Prop := ∀ vs, r = .remember vs → ∀ v ∈ vs, v.IsPlain

/-- a host that has no functions and scopes but those that it is handed by the interpreter that calls it, and keeps none of
them between its calls -/
structure World.Confined (w : World) : Prop where
  hosts : ∀ operation ∈ w.hosts, ∀ A, operation.In A
  keeps : w.HostsAsk HostRequest.KeepsPlain
  memory : ∀ v ∈ w.memory, v.IsPlain

/-- a world without a host -/
theorem World.Confined.of_empty {w : World} (hhosts : w.hosts = #[]) (hmemory : w.memory = []) : w.Confined := by
  refine ⟨?_, ?_, ?_⟩
  · rw [hhosts]
    exact fun operation h => absurd h (Array.not_mem_empty operation)
  · intro operation h
    rw [hhosts] at h
    exact absurd h (Array.not_mem_empty operation)
  · rw [hmemory]
    exact List.forall_mem_nil _

namespace Operation

open Eval

/-- when the host asks only what `Q` admits, every deed of an operation is as `D` says -/
theorem does_runWithin {Q : HostRequest → Prop} {D : Deed → Prop} (hD : Deed.DoneFor Q D)
    (hmove : ∀ scope, D (.moveGlobal scope)) (n : Nat) (op : Operation) : (op.runWithin n).Does Q D := by
  have R := does_rules hD
  have htasks := Eval.does_runWithin hD n
  cases op with
  | exec p scope => exact R.exec htasks (fun scope => .deed (hmove scope)) p scope
  | execSource name source => exact R.execSource htasks (fun scope => .deed (hmove scope)) name source
  | call f args => exact R.bind (R.attempt (htasks (.call f args .unknown))) fun r => R.pure _

theorem does_runEachWithin {Q : HostRequest → Prop} {D : Deed → Prop} (hD : Deed.DoneFor Q D)
    (hmove : ∀ scope, D (.moveGlobal scope)) (n : Nat) (ops : List Operation) : (runEachWithin n ops).Does Q D := by
  have R := does_rules hD
  induction ops with
  | nil => exact R.pure _
  | cons op ops ih => exact R.bind (does_runWithin hD hmove n op) fun _ => R.bind ih fun _ => R.pure _

end Operation

/-- the deeds done for hosts that keep no functions -/
theorem Deed.doneFor_keepsPlain : Deed.DoneFor HostRequest.KeepsPlain Deed.KeepsPlain where
  plain _ _ h vs hd := absurd hd (h vs)
  moves _ _ _ _ := nofun
  keeps vs h := by
    rintro _ ⟨⟩
    exact h vs rfl

/-- a confined host stays so when it keeps no functions -/
theorem World.Confined.effect {m : Machine} (h : m.world.Confined) {d : Deed} (hd : d.KeepsPlain) :
    (d.effect m).world.Confined := by
  have hhosts := d.hosts_effect m
  refine ⟨?_, ?_, ?_⟩
  · rw [hhosts]
    exact h.hosts
  · rw [HostsAsk, hhosts]
    exact h.keeps
  · by_cases hremember : ∀ vs, d ≠ .remember vs
    · rw [(d.sameHost_effect hremember m).memory]
      exact h.memory
    · obtain ⟨vs, rfl⟩ := not_forall_not.mp hremember
      exact hd vs rfl

/-! ## Regions at the start and along a run -/

/-- a well-formed machine with a confined host is inside any region that has all scopes that are there -/
theorem Machine.WellFormed.inside {m : Machine} (h : m.WellFormed) (hhost : m.world.Confined) {A : Region}
    (hA : ∀ i < m.size, A i) : m.Inside A := by
  refine ⟨⟨?_, ?_⟩, hA _ h.core, hA _ h.global, ?_, fun operation ho => hhost.hosts operation ho A, hhost.memory⟩
  · intro i scope p _ hscope hp
    have hi := (Array.getElem?_eq_some_iff.mp hscope).1
    exact hA p (Nat.lt_trans (h.store.parent hscope hp) hi)
  · rintro i scope ⟨name, v⟩ _ hscope hb f rfl
    exact hA f.scope (h.store.function hscope hb)
  · intro e he v hv f hf
    exact hA f.scope (h.handlers e he v hv f hf)

namespace Deed

variable {A : Region} {m : Machine}

theorem size_performAll (deeds : List Deed) (m : Machine) : m.size ≤ (performAll deeds m).size := by
  induction deeds generalizing m with
  | nil => exact Nat.le_refl _
  | cons d deeds ih => exact Nat.le_trans (d.preserves_effect m).size (ih _)

/-- when the region has all scopes that come, the deeds sort them into it -/
theorem along_sorted {deeds : List Deed} (hm : m.WellFormed) (hfit : AllFit deeds m) (hplain : ∀ d ∈ deeds, d.KeepsPlain)
    (hA : ∀ i, m.size ≤ i → i < (performAll deeds m).size → A i) : Along (Sorted A) deeds m := by
  induction deeds generalizing m with
  | nil => trivial
  | cons d deeds ih =>
    rw [List.forall_mem_cons] at hplain
    have hwell := (d.wellFormed_effect hm hfit.1).1
    have hsize := size_performAll deeds (d.effect m)
    have hnew : ∀ i, m.size ≤ i → i < (d.effect m).size → A i := fun i hle hlt =>
      hA i hle (Nat.lt_of_lt_of_le hlt hsize)
    refine ⟨⟨hplain.1, hwell.store, fun _ => hnew, fun i hle hlt => ?_⟩, ih hwell hfit.2 hplain.2 fun i hle => ?_⟩
    · exact iff_of_true (hnew i hle hlt) (hnew m.size (Nat.le_refl _) (Nat.lt_of_le_of_lt hle hlt))
    · exact hA i (Nat.le_trans (d.preserves_effect m).size hle)

end Deed

/-! ## What spawning leaves -/

/-- one scope refers to another: it is around it, or it is the first that a function bound there sees -/
inductive Store.Refers (s : Store) (i : ScopeId) : ScopeId → Prop where
  | around {p : ScopeId} (h : s.parent? i = some p) : Refers s i p
  | bound {name : Bytes} {f : Closure} (h : s.bound? i name = some (.function f)) : Refers s i f.scope

theorem Store.Closed.reached {A : Region} {s : Store} (h : s.Closed A) {i j : ScopeId} (hi : A i)
    (hj : Relation.ReflTransGen s.Refers i j) : A j := by
  induction hj with
  | refl => exact hi
  | tail _ hstep ih =>
    cases hstep with
    | around hp => exact h.parent? ih hp
    | bound hv => exact h.bound ih hv _ rfl

/-- the machine with one more piece of work that waits -/
def Machine.enqueue (m : Machine) (job : Job) : Machine :=
  { m with world := { m.world with jobs := m.world.jobs ++ [job] } }

/-- the machine whose next spawn is another one -/
def Machine.advance (m : Machine) : Machine :=
  { m with interpreter := { m.interpreter with path := true :: m.interpreter.path } }

namespace Eval

/-- the work that is left when a function is spawned -/
def jobFor (v : Value) (m : Machine) : Job :=
  let path := m.interpreter.path
  let (child, w) := m.world.newInterpreter m.interpreter.limit (false :: path)
  ⟨child, (transfer m.interpreter.core child.core (w.orders path) v w.store).1, v.callName⟩

theorem spawn_closed (v : Value) {m : Machine} (h : m.world.closed = true) :
    Eval.spawn v m = raise .spawnClosed (m.withStore (spawned v m)).advance := by
  obtain ⟨i, w⟩ := m
  cases w
  cases h
  rfl

theorem spawn_open (v : Value) {m : Machine} (h : m.world.closed = false) :
    Eval.spawn v m =
      log (fun _ => ⟨text "spawn scheduled", []⟩) ((m.withStore (spawned v m)).advance.enqueue (jobFor v m)) := by
  obtain ⟨i, w⟩ := m
  cases w
  cases h
  rfl

theorem log_jobs (entry : Machine → LogEntry) (m : Machine) : (log entry m).2.world.jobs = m.world.jobs := by
  rw [log_apply]
  split <;> rfl

/-- spawned work waits, unless no more is taken -/
theorem spawn_jobs (v : Value) (m : Machine) : (Eval.spawn v m).2.world.jobs =
    if m.world.closed then m.world.jobs else m.world.jobs ++ [jobFor v m] := by
  cases h : m.world.closed with
  | true =>
    rw [spawn_closed v h]
    rfl
  | false =>
    rw [spawn_open v h, log_jobs]
    rfl

/-- spawning a function without parameters -/
theorem run_spawn_function {f : Closure} (hf : f.sig.params = []) (m : Machine) :
    ((Deed.builtin .spawn [.function f]).effect m).world.store = spawned (.function f) m ∧
      ((Deed.builtin .spawn [.function f]).effect m).world.jobs = (Eval.spawn (.function f) m).2.world.jobs := by
  have hrun : Primitive.run Deed.idle .spawn [.function f] =
      (Eval.spawn (.function f) >>= fun _ => return .unit) := by
    simp only [Primitive.run, Primitive.functionArg, Value.isFunction, hf]
    rfl
  have hstore := (Primitive.spawn_apply (.function f) m).1
  rw [Deed.effect, Deed.act, hrun, Action.bind_apply]
  rcases hspawn : Eval.spawn (.function f) m with ⟨e | _, m'⟩
  · rw [hspawn] at hstore
    exact ⟨hstore, rfl⟩
  · rw [hspawn] at hstore
    exact ⟨hstore, rfl⟩

/-- what stands for the scope of a spawned function, and the copying when it is done -/
def copied (f : Closure) (m : Machine) : ScopeId × Snapshot.Copying :=
  Snapshot.scopeWithin (Snapshot.depth (copying m).store) f.scope (copying m)

end Eval

open Eval in
/-- what spawning the function `f` on the machine `m` comes to, when `m'` is the machine after it -/
structure Spawned (f : Closure) (m m' : Machine) : Prop where
  /-- copying what the function sees ends, and what it has made is the store -/
  ends : Ends (fun n => Task.runWithin n (.copy f.scope (copying m))) (copied f m)
  store : m'.world.store = (copied f m).2.store
  /-- the scopes that were there are as they were -/
  kept : m.world.store.Kept m'.world.store
  /-- only new scopes are reached from the copied function -/
  reached : ∀ i, Relation.ReflTransGen m'.world.store.Refers (copied f m).1 i → m.size ≤ i ∧ i < m'.size
  /-- the work waits, unless no more is taken -/
  jobs : m'.world.jobs = if m.world.closed then m.world.jobs else m.world.jobs ++ [jobFor (.function f) m]
  /-- it is to call the copied function in an interpreter with builtins, global scope and handlers of its own -/
  job : (jobFor (.function f) m).work = .function { f with scope := (copied f m).1 } ∧
    (jobFor (.function f) m).interpreter =
      ⟨m.size, m.size + 1, m.interpreter.limit, [], [], false :: m.interpreter.path⟩

namespace Eval

variable {f : Closure} {m : Machine}

theorem size_spawned (v : Value) (m : Machine) : m.size + 2 ≤ (spawned v m).scopes.size := by
  have hnew : (copying m).store.scopes.size = m.size + 2 := by
    simp only [copying, World.newInterpreter, Store.pushCore, Array.size_push]
  have hkept := (transfer_kept m.interpreter.core m.size (copying m).order v (copying m).store).size
  rw [hnew] at hkept
  exact hkept

/-- the scopes that spawning makes refer to each other only -/
theorem closed_new (hm : m.WellFormed) (v : Value) :
    (spawned v m).Closed fun i => m.size ≤ i ∧ i < (spawned v m).scopes.size := by
  have hclosed := closed_spawned v m
  have hwell := spawned_wellFormed v hm.store
  constructor
  · intro i scope p hi hscope hp
    exact ⟨hclosed.parent hi.1 hscope hp, Nat.lt_trans (hwell.parent hscope hp) hi.2⟩
  · rintro i scope ⟨name, v⟩ hi hscope hb g rfl
    exact ⟨hclosed.table hi.1 hscope hb g rfl, hwell.function hscope hb⟩

/-- the work refers to the scopes that spawning makes -/
theorem jobFor_in (hm : m.WellFormed) (v : Value) :
    (jobFor v m).work.In fun i => m.size ≤ i ∧ i < (spawned v m).scopes.size := by
  have hbehind := (transfer_behind v m).2
  have hsound : Snapshot.Sound (copying m) := by
    refine ⟨hm.store.pushCore, ?_, fun x hx => absurd hx List.not_mem_nil⟩
    simp only [copying, World.newInterpreter, Store.pushCore, Array.size_push]
    exact Nat.lt_succ_of_lt (Nat.lt_succ_self _)
  have hwithin : (jobFor v m).work.Within (spawned v m).scopes.size := by
    have htake := (Snapshot.value_careful (Snapshot.scopeWithin_careful (Snapshot.depth (copying m).store)) v hsound).2.2
    cases v with
    | builtin b =>
      change (rebound m.size b (copying m).store).Within (copying m).store.scopes.size
      unfold rebound
      cases hlookup : (copying m).store.lookup? m.size b.name with
      | none =>
        intro f hf
        cases hf
      | some v =>
        obtain ⟨owner, -, hbound⟩ := Option.bind_eq_some_iff.mp hlookup
        exact hsound.store.bound hbound
    | unit | number | string | bool | function | range | unknown => exact htake
  exact fun f hf => ⟨hbehind f hf, hwithin f hf⟩

theorem spawned_effect (hm : m.WellFormed) (hf : f.sig.params = []) (hscope : f.scope < m.size) :
    Spawned f m ((Deed.builtin .spawn [.function f]).effect m) := by
  obtain ⟨hstore, hjobs⟩ := run_spawn_function hf m
  have hin := jobFor_in hm (.function f)
  refine ⟨ends_copying hm.store hscope, hstore, ?_, fun i hi => ?_, ?_, rfl, rfl⟩
  · rw [hstore]
    exact spawned_kept _ m
  · change m.size ≤ i ∧ i < ((Deed.builtin .spawn [.function f]).effect m).world.store.scopes.size
    rw [hstore] at hi ⊢
    exact (closed_new hm (.function f)).reached (hin _ rfl) hi
  · rw [hjobs]
    exact spawn_jobs _ m

end Eval

/-! ## The work and the others -/

/-- the work refers to scopes of the region only, and these to each other only -/
structure Job.Housed (B : Region) (job : Job) (s : Store) : Prop where
  closed : s.Closed B
  there : ∀ i, B i → i < s.scopes.size
  work : job.work.In B
  core : B job.interpreter.core
  global : B job.interpreter.global
  handlers : job.interpreter.handlers = []

namespace Job.Housed

variable {B : Region} {job : Job} {s s' : Store}

/-- the scopes of the region are the same in another store -/
theorem congr (h : job.Housed B s) (hsame : ∀ i, B i → s'.scopes[i]? = s.scopes[i]?) : job.Housed B s' := by
  refine ⟨h.closed.congr hsame, fun i hi => ?_, h.work, h.core, h.global, h.handlers⟩
  obtain ⟨scope, hscope⟩ : ∃ scope, s.scopes[i]? = some scope := ⟨_, Array.getElem?_eq_getElem (h.there i hi)⟩
  rw [← hsame i hi] at hscope
  exact (Array.getElem?_eq_some_iff.mp hscope).1

/-- the interpreter of the work, with its scopes and those to come -/
theorem inside {m : Machine} (h : job.Housed B m.world.store) (hhost : m.world.Confined) :
    Machine.Inside (fun i => B i ∨ m.size ≤ i) ⟨job.interpreter, m.world⟩ := by
  refine ⟨⟨?_, ?_⟩, .inl h.core, .inl h.global, ?_, fun operation ho => hhost.hosts operation ho _, hhost.memory⟩
  · rintro i scope p (hi | hi) hscope hp
    · exact .inl (h.closed.parent hi hscope hp)
    · rw [Array.getElem?_eq_none hi] at hscope
      cases hscope
  · rintro i scope b (hi | hi) hscope hb f hf
    · exact .inl (h.closed.table hi hscope hb f hf)
    · rw [Array.getElem?_eq_none hi] at hscope
      cases hscope
  · rw [h.handlers]
    exact List.forall_mem_nil _

theorem wellFormed {m : Machine} (h : job.Housed B m.world.store) (hm : m.WellFormed) :
    Machine.WellFormed ⟨job.interpreter, m.world⟩ := by
  refine ⟨hm.store, h.there _ h.core, h.there _ h.global, ?_, hm.hosts, hm.memory⟩
  rw [h.handlers]
  exact List.forall_mem_nil _

end Job.Housed

/-- the report of a failure changes no scope -/
theorem Machine.runJob_store (m : Machine) (job : Job) :
    (m.runJob job).world.store = (Machine.call ⟨job.interpreter, m.world⟩ job.work []).2.world.store := by
  simp only [Machine.runJob]
  rcases Machine.call ⟨job.interpreter, m.world⟩ job.work [] with ⟨ds | v, child⟩
  · exact (Eval.quiet_log _ child).1
  · rfl

/-- **Work changes no scope but its own.** Work that refers to a region only leaves all other scopes that are there as they
are. -/
theorem Machine.runJob_kept {B : Region} {m : Machine} {job : Job} (hm : m.WellFormed) (hhost : m.world.Confined)
    (h : job.Housed B m.world.store) {i : ScopeId} (hi : i < m.size) (hB : ¬B i) :
    (m.runJob job).world.store.scopes[i]? = m.world.store.scopes[i]? := by
  have hwell := h.wellFormed hm
  have hwork : (Operation.call job.work []).Fits m.size :=
    ⟨fun f hf => h.there _ (h.work f hf), List.forall_mem_nil _⟩
  have hin : (Operation.call job.work []).In fun i => B i ∨ m.size ≤ i :=
    ⟨fun f hf => .inl (h.work f hf), List.forall_mem_nil _⟩
  obtain ⟨N, deeds, hends, hdeeds, hfit⟩ := (Operation.settles_step _ hwork
    (c := ⟨job.interpreter.limit, job.interpreter.frames⟩) _ ⟨hwell, rfl, rfl⟩ (Nat.le_refl _)).ends
  have hplain := Operation.does_runWithin Deed.doneFor_keepsPlain (fun _ => nofun) N _ ⟨job.interpreter, m.world⟩ _ deeds
    hhost.keeps (hends N (Nat.le_refl _))
  have hsorted : Deed.Along (Deed.Sorted fun i => B i ∨ m.size ≤ i) deeds ⟨job.interpreter, m.world⟩ :=
    Deed.along_sorted hwell hfit hplain fun i hle _ => .inr hle
  have hconfined := Operation.confined_runWithin hin (hends N (Nat.le_refl _)) (h.inside hhost) hsorted
  have hstore := congrArg (fun m => m.world.store.scopes[i]?) hdeeds
  rw [runJob_store]
  refine hstore.symm.trans (Deed.kept_performAll hconfined hi ?_)
  rintro (hold | hnew)
  · exact hB hold
  · exact Nat.not_lt.mpr hnew hi

namespace Eval

variable {f : Closure} {m : Machine}

/-- the work is at home in the scopes that spawning makes -/
theorem jobFor_housed (hm : m.WellFormed) (v : Value) :
    (jobFor v m).Housed (fun i => m.size ≤ i ∧ i < (spawned v m).scopes.size) (spawned v m) := by
  have hsize := size_spawned v m
  refine ⟨closed_new hm v, fun _ h => h.2, jobFor_in hm v, ?_, ?_, rfl⟩
  · exact ⟨Nat.le_refl _, Nat.lt_of_lt_of_le (Nat.lt_succ_of_lt (Nat.lt_succ_self _)) hsize⟩
  · exact ⟨Nat.le_succ _, Nat.lt_of_lt_of_le (Nat.lt_succ_self _) hsize⟩

end Eval

namespace Deed

variable {m : Machine} {before behind : List Deed} {d : Deed}

/-- the region without the scopes that a builtin has made -/
theorem along_sorted_cut (hm : m.WellFormed) (hfit : AllFit (before ++ d :: behind) m)
    (hplain : ∀ d' ∈ before ++ d :: behind, d'.KeepsPlain) (hd : d.isBuiltin = true) :
    Along (Sorted fun i => ¬((performAll before m).size ≤ i ∧ i < (d.effect (performAll before m)).size))
      (before ++ d :: behind) m := by
  rw [allFit_append] at hfit
  rw [List.forall_mem_append, List.forall_mem_cons] at hplain
  obtain ⟨hbefore, hdeed, hbehind⟩ := hfit
  have hmiddle := wellFormed_performAll hm hbefore
  have hafter := (d.wellFormed_effect hmiddle hdeed).1
  rw [along_append]
  refine ⟨along_sorted hm hbefore hplain.1 fun i _ hlt hcut => ?_, ⟨hplain.2.1, hafter.store, ?_, fun i hle hlt => ?_⟩,
    along_sorted hafter hbehind hplain.2.2 fun i hle _ hcut => ?_⟩
  · exact Nat.not_lt.mpr hcut.1 hlt
  · rw [hd]
    nofun
  · have hfirst := Nat.lt_of_le_of_lt hle hlt
    exact iff_of_false (fun h => h ⟨hle, hlt⟩) fun h => h ⟨Nat.le_refl _, hfirst⟩
  · exact Nat.not_lt.mpr hle hcut.2

end Deed

/-- the scopes that have come from one machine to a later one -/
def Machine.since (m m' : Machine) : Region := fun i => m.size ≤ i ∧ i < m'.size

/-- a machine on which the scopes of a region are those of another machine -/
def Machine.Agrees (B : Region) (m m' : Machine) : Prop :=
  ∀ i, B i → m'.world.store.scopes[i]? = m.world.store.scopes[i]?

open Eval in
/-- from `m` to `m'` the function `f` is spawned, and as long as the scopes made for it are as they were on `m'`, its work
when it is run to its end changes none but these and leaves the interpreter that runs meanwhile as it is -/
structure Isolated (f : Closure) (m m' : Machine) : Prop extends Spawned f m m' where
  run : ∀ later : Machine, later.WellFormed → later.world.Confined → m'.Agrees (m.since m') later →
    (later.runJob (jobFor (.function f) m)).interpreter = later.interpreter ∧
    ∀ i < later.size, ¬m.since m' i →
      (later.runJob (jobFor (.function f) m)).world.store.scopes[i]? = later.world.store.scopes[i]?

namespace Eval

theorem isolated_effect {f : Closure} {m : Machine} (hm : m.WellFormed) (hf : f.sig.params = [])
    (hscope : f.scope < m.size) : Isolated f m ((Deed.builtin .spawn [.function f]).effect m) := by
  have hspawned := spawned_effect hm hf hscope
  refine ⟨hspawned, fun later hlater hhost hagrees => ⟨rfl, fun i hi hother => ?_⟩⟩
  have hhoused := jobFor_housed hm (.function f)
  rw [← (run_spawn_function hf m).1] at hhoused
  exact later.runJob_kept hlater hhost (hhoused.congr hagrees) hi hother

end Eval

namespace Operation

open Eval

/-- **Spawned work is isolated.** All operations of a host, one after the other, on a well-formed machine come to an end. Of
whatever they do: where a function `f` without parameters is spawned, the copying of what it sees ends and leaves all scopes
as they are, only new scopes are reached from the copy, and the work when it is run to its end changes no other scope
(`Isolated`); and after any of what is done later the scopes made for the work are as they were, when the host is told of
none of them. -/
theorem spawn_isolates (ops : List Operation) (m : Machine) (hm : m.WellFormed) (hops : EachFits m ops) :
    ∃ N deeds, (∀ n, N ≤ n → runEachWithin n ops m = some (.ok (performEach m ops).1, deeds)) ∧
      performAll deeds m = (performEach m ops).2 ∧
      ∀ before f between after, deeds = before ++ .builtin .spawn [.function f] :: (between ++ after) →
        f.sig.params = [] →
        let start := performAll before m
        let done := performAll (before ++ [.builtin .spawn [.function f]]) m
        let later := performAll (before ++ .builtin .spawn [.function f] :: between) m
        Isolated f start done ∧ later.WellFormed ∧
          (m.world.Confined → (∀ op ∈ ops, op.In fun i => ¬start.since done i) → done.Agrees (start.since done) later) := by
  have h := settles_each (c := ⟨m.interpreter.limit, m.interpreter.frames⟩) ops ⟨hm, rfl, rfl⟩ hops
  obtain ⟨N, deeds, hends, hdeeds, hfit⟩ := h.ends
  refine ⟨N, deeds, hends, hdeeds, ?_⟩
  rintro before f between after rfl hf
  have hdone : performAll (before ++ [.builtin .spawn [.function f]]) m =
      (Deed.builtin .spawn [.function f]).effect (performAll before m) := performAll_append ..
  have hlater : performAll (before ++ .builtin .spawn [.function f] :: between) m =
      performAll between ((Deed.builtin .spawn [.function f]).effect (performAll before m)) := performAll_append ..
  have hcut := hfit
  rw [Deed.allFit_append] at hcut
  obtain ⟨hbefore, hspawn, hbehind⟩ := hcut
  have hstart := Deed.wellFormed_performAll hm hbefore
  have heffect := (Deed.wellFormed_effect _ hstart hspawn).1
  simp only [hdone, hlater]
  refine ⟨isolated_effect hstart hf (hspawn _ (List.mem_singleton_self _) f rfl), ?_, fun hhost htold i hi => ?_⟩
  · exact Deed.wellFormed_performAll heffect (Deed.allFit_append.mp hbehind).1
  · -- all that is done stays in the region without the scopes of the work
    have hplain := does_runEachWithin Deed.doneFor_keepsPlain (fun _ => nofun) N _ _ _ _ hhost.keeps
      (hends N (Nat.le_refl _))
    have hsorted := Deed.along_sorted_cut hm hfit hplain rfl
    have hinside : m.Inside fun i => ¬(performAll before m).since
        ((Deed.builtin .spawn [.function f]).effect (performAll before m)) i :=
      hm.inside hhost fun i hlt hsince => Nat.not_lt.mpr (Nat.le_trans (Deed.size_performAll before m) hsince.1) hlt
    have hconfined := confined_each htold (hends N (Nat.le_refl _)) hinside hsorted
    refine Deed.kept_performAll (fun d hd => hconfined d ?_) hi.2 (fun h => h hi)
    simp [hd]

/-- a function that gives `x` a value, declared in the scope with the number 1, which binds the function itself -/
def worker : Closure :=
  ⟨⟨text "work", [], none, false, false⟩, [.assign .unknown (text "x") (.string .unknown (text "mine"))], 1⟩

/-- a program that declares `x` and the function, spawns the function and then gives `x` a value -/
def spawning : Program where
  stmts := [.letDecl .unknown (text "x") none (.string .unknown (text "old")),
    .fnDecl .unknown worker.sig .unknown worker.body,
    .expr .unknown (.call .unknown (.ident .unknown (text "spawn")) [.ident .unknown (text "work")]),
    .assign .unknown (text "x") (.string .unknown (text "new"))]
  errors := []

/-- what it does up to the spawning -/
def beforeSpawning : List Deed :=
  [.declare 1 (.value (text "x") (.string (text "old"))), .declare 1 (.function worker.sig worker.body),
    .trace (text "spawn") .aboutToCall, .trace (text "spawn") .argsEvaluated, .enter ⟨text "spawn", .unknown⟩,
    .trace (text "spawn") .bodyExecuting]

/-- what it does from then on -/
def behindSpawning : List Deed :=
  [.leave, .trace (text "spawn") .returnSignal, .trace (text "spawn") .completed,
    .set 1 (text "x") (.string (text "new")), .moveGlobal 1]

theorem runEachWithin_spawning (n : Nat) : runEachWithin (n + 12) [exec spawning none] (Machine.start .fresh 10) =
    some (.ok [.ok .unit], beforeSpawning ++ .builtin .spawn [.function worker] :: behindSpawning) := rfl

/-- the scope of the function is copied, with the function in it, and keeps its `x` -/
theorem spawn_isolates_worker :
    let start := performAll beforeSpawning (Machine.start .fresh 10)
    let done := performAll (beforeSpawning ++ [.builtin .spawn [.function worker]]) (Machine.start .fresh 10)
    let later := performAll (beforeSpawning ++ .builtin .spawn [.function worker] :: behindSpawning)
      (Machine.start .fresh 10)
    (Machine.start .fresh 10).WellFormed ∧ EachFits (Machine.start .fresh 10) [exec spawning none] ∧
    worker.sig.params = [] ∧ Isolated worker start done ∧ done.Agrees (start.since done) later ∧
    start.since done 4 ∧ done.world.store.lookup? 4 (text "x") = some (.string (text "old")) ∧
    later.world.store.lookup? 1 (text "x") = some (.string (text "new")) := by
  have hfits : EachFits (Machine.start .fresh 10) [exec spawning none] := ⟨nofun, trivial⟩
  obtain ⟨N, deeds, hends, -, hcut⟩ := spawn_isolates _ _ (Machine.wellFormed_start 10) hfits
  have hdeeds : deeds = beforeSpawning ++ .builtin .spawn [.function worker] :: (behindSpawning ++ []) := by
    rw [List.append_nil]
    have hsame := (hends (N + 12) (Nat.le_add_right N 12)).symm.trans (runEachWithin_spawning N)
    exact (Prod.mk.inj (Option.some.inj hsame)).2
  obtain ⟨hisolated, -, hagrees⟩ := hcut beforeSpawning worker behindSpawning [] hdeeds rfl
  have htold : ∀ op ∈ [exec spawning none], op.In fun i =>
      ¬(performAll beforeSpawning (Machine.start .fresh 10)).since
        (performAll (beforeSpawning ++ [.builtin .spawn [.function worker]]) (Machine.start .fresh 10)) i := by
    rw [List.forall_mem_singleton]
    nofun
  have hhost : (Machine.start .fresh 10).world.Confined := .of_empty rfl rfl
  exact ⟨Machine.wellFormed_start 10, hfits, rfl, hisolated, hagrees hhost htold,
    ⟨by decide +kernel, by decide +kernel⟩, rfl, rfl⟩

/-- a machine whose host gives away a function of the global scope that gives `x` a value -/
def leaking : Machine := (Machine.start .fresh 10).register (text "setter") (some 0) fun _ =>
  .answer (.function ⟨⟨text "set", [], none, false, false⟩,
    [.assign .unknown (text "x") (.string .unknown (text "new"))], 1⟩)

/-- a function that calls what `get` gives, declared in the scope with the number 1 -/
def reacher : Closure :=
  ⟨⟨text "work", [], none, false, false⟩,
    [.expr .unknown (.call .unknown (.call .unknown (.ident .unknown (text "get")) []) [])], 1⟩

/-- a program that declares `x` and the function, for which `get` is the operation of the host, and spawns the function -/
def reaching : Program where
  stmts := [.letDecl .unknown (text "x") none (.string .unknown (text "old")),
    .letDecl .unknown (text "get") none (.ident .unknown (text "setter")),
    .fnDecl .unknown reacher.sig .unknown reacher.body,
    .expr .unknown (.call .unknown (.ident .unknown (text "spawn")) [.ident .unknown (text "work")])]
  errors := []

/-- a machine with spawned work that says what time it is -/
def clocked : Machine :=
  ((Machine.start .fresh 10).execSource [] (text "fn work() \x7b print(clock()); \x7d spawn(work);")).2

/-- for each piece of waiting work, whether it says that five seconds have passed -/
def fiveSeconds (m : Machine) : List Bool :=
  m.world.jobs.map fun job => (m.runJob job).world.record.any fun e => e = .out (text "5.0\n")

/-- The work that gets at a function of the global scope gives the `x` there a value. And the clock is no binding: work
looks at the one that the program goes on with. -/
theorem spawned_work_reaches_out :
    fiveSeconds clocked = [false] ∧ fiveSeconds (clocked.execSource [] (text "sleep(5);")).2 = [true] ∧
    let m := (performEach leaking [exec reaching none]).2
    leaking.WellFormed ∧ EachFits leaking [exec reaching none] ∧ m.interpreter.global = 1 ∧
    (m.world.store.bound? 1 (text "x")).map Value.shown = some (text "old") ∧
    (m.world.jobs.map fun job => ((m.runJob job).world.store.bound? 1 (text "x")).map Value.shown) =
      [some (text "new")] := by
  have hwell : leaking.WellFormed := (Machine.wellFormed_start 10).register _ _ fun n hn _ _ f hf => by
    cases hf
    exact hn
  have hearly : fiveSeconds clocked = [false] := by decide +kernel
  have hlate : fiveSeconds (clocked.execSource [] (text "sleep(5);")).2 = [true] := by decide +kernel
  exact ⟨hearly, hlate, hwell, ⟨nofun, trivial⟩, by decide +kernel, by decide +kernel, by decide +kernel⟩

end Operation

end Ouroboros
