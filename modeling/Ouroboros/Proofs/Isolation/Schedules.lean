/-
Schedules of spawned work.

A session answers the requests of a host one after the other, and between them, and at the end, waiting work is run in
whatever order until none is left (`Schedule`). What it does to the outside is what each piece of work and each request
yields by itself, with all the work that comes of it (`Yields`, `Answered`); nothing in this depends on the order.

Two things carry the argument. Work yields the same on every machine on which its own region, the outside and the host
operations are the same (`Yields.stay`), for runs of work on twins do the same. And along a schedule the region of a piece
of work stays as it is until its turn comes (`Machine.Underway`). So the induction over a session goes from its end to its
start: what the rest of the session yields after a step, it yields before the step, and what the step does comes to it
(`Machine.Underway.yields_answer`, `Machine.Underway.yields_run`). `Schedule.yields` is the result.
-/
import Mathlib.Algebra.Order.Group.Multiset
import Ouroboros.Proofs.Isolation.Waiting

namespace Ouroboros

/-! ## What stays -/

/-- the scopes of the region stand for themselves, and those to come for each other in order -/
def Region.stay (A : Region) (s s' : Store) : Pairing := fun i i' =>
  (i' = i ∧ A i) ∨ ∃ k, i = s.scopes.size + k ∧ i' = s'.scopes.size + k

section Stay

variable {A : Region} {s s' : Store}

theorem Region.oneToOne_stay (h : ∀ i, A i → i < s.scopes.size) (h' : ∀ i, A i → i < s'.scopes.size) :
    (A.stay s s').OneToOne := by
  rintro i i' j j' (⟨rfl, hi⟩ | ⟨k, rfl, rfl⟩) (⟨rfl, hj⟩ | ⟨l, rfl, rfl⟩)
  · exact Iff.rfl
  · refine iff_of_false ?_ ?_
    · exact Nat.ne_of_lt (Nat.lt_of_lt_of_le (h _ hi) (Nat.le_add_right _ l))
    · exact Nat.ne_of_lt (Nat.lt_of_lt_of_le (h' _ hi) (Nat.le_add_right _ l))
  · refine iff_of_false ?_ ?_
    · exact Nat.ne_of_gt (Nat.lt_of_lt_of_le (h _ hj) (Nat.le_add_right _ k))
    · exact Nat.ne_of_gt (Nat.lt_of_lt_of_le (h' _ hj) (Nat.le_add_right _ k))
  · rw [Nat.add_left_cancel_iff, Nat.add_left_cancel_iff]

theorem Value.In.stay {v : Value} (h : v.In A) : v.Paired (A.stay s s') v := h.paired.mono fun _ _ => .inl

/-- a store in which the scopes of a closed region are the same -/
theorem Store.Closed.stay (h : s.Closed A) (hsame : ∀ i, A i → s'.scopes[i]? = s.scopes[i]?) :
    s.Twin (A.stay s s') s' := by
  constructor
  · rintro i i' (⟨rfl, hi⟩ | ⟨k, rfl, rfl⟩)
    · rw [hsame i' hi]
      cases hscope : s.scopes[i']? with
      | none => exact .none
      | some scope =>
        refine .some ⟨?_, List.forall₂_same.2 fun b hb => ⟨rfl, (h.table hi hscope hb).stay⟩⟩
        cases hparent : scope.parent with
        | none => exact .none
        | some p => exact .some (.inl ⟨rfl, h.parent hi hscope hparent⟩)
    · rw [Array.getElem?_eq_none (Nat.le_add_right _ _), Array.getElem?_eq_none (Nat.le_add_right _ _)]
      exact .none
  · exact fun k => .inr ⟨k, rfl, rfl⟩

end Stay

/-- a machine inside two regions is inside what they share, when its host has no scopes of its own -/
theorem Machine.Inside.inter {A A' : Region} {m : Machine} (h : m.Inside A) (h' : m.Inside A') (hhost : m.world.Confined) :
    m.Inside fun i => A i ∧ A' i := by
  refine ⟨⟨fun hi hscope hp => ?_, fun hi hscope hb f hf => ?_⟩, ⟨h.core, h'.core⟩, ⟨h.global, h'.global⟩,
    fun e he v hv f hf => ?_, fun operation ho => hhost.hosts operation ho _, h.memory⟩
  · exact ⟨h.closed.parent hi.1 hscope hp, h'.closed.parent hi.2 hscope hp⟩
  · exact ⟨h.closed.table hi.1 hscope hb f hf, h'.closed.table hi.2 hscope hb f hf⟩
  · exact ⟨h.handlers e he v hv f hf, h'.handlers e he v hv f hf⟩

/-- machines with the same outside, host operations and orders of copying -/
structure Machine.Around (m m' : Machine) : Prop where
  outside : m'.outside = m.outside
  hosts : m'.world.hosts = m.world.hosts
  orders : m'.world.orders = m.world.orders

theorem Machine.Around.symm {m m' : Machine} (h : m.Around m') : m'.Around m :=
  ⟨h.outside.symm, h.hosts.symm, h.orders.symm⟩

/-- every operation of the host is portable -/
def World.HostsPortable (w : World) : Prop := ∀ operation ∈ w.hosts, operation.Portable

namespace Machine

variable {P : Pairing} {m₀ m₀' m m' : Machine}

/-- what follows is counted from the machines themselves -/
theorem Alike.rebase (h : Alike P m₀ m₀' m m') : Alike P m m' m m' :=
  ⟨h.store, h.outside, h.hosts, h.portable, h.orders, ⟨#[], Array.append_empty.symm, Array.append_empty.symm⟩,
    ⟨[], [], (List.append_nil _).symm, (List.append_nil _).symm, .nil⟩⟩

theorem Twin.rebase (h : Twin P m₀ m₀' m m') : Twin P m m' m m' := ⟨h.toAlike.rebase, h.interpreter⟩

/-- a machine on which the scopes of a closed region and all around are the same -/
theorem alike_stay {A : Region} (hclosed : m.world.store.Closed A)
    (hsame : ∀ i, A i → m'.world.store.scopes[i]? = m.world.store.scopes[i]?) (haround : m.Around m')
    (hportable : m.world.HostsPortable) : Alike (A.stay m.world.store m'.world.store) m m' m m' :=
  ⟨hclosed.stay hsame, haround.outside, haround.hosts, hportable, haround.orders,
    ⟨#[], Array.append_empty.symm, Array.append_empty.symm⟩,
    ⟨[], [], (List.append_nil _).symm, (List.append_nil _).symm, .nil⟩⟩

end Machine

/-! ## Work that refers to what is there -/

/-- the work refers to the first `n` scopes only -/
structure Job.Within (n : Nat) (job : Job) : Prop where
  work : job.work.Within n
  core : job.interpreter.core < n
  global : job.interpreter.global < n
  handlers : job.interpreter.handlers = []

theorem Job.Within.mono {n k : Nat} {job : Job} (h : job.Within n) (hk : n ≤ k) : job.Within k :=
  ⟨h.work.mono hk, Nat.lt_of_lt_of_le h.core hk, Nat.lt_of_lt_of_le h.global hk, h.handlers⟩

theorem Job.Housed.within {B : Region} {job : Job} {s : Store} (h : job.Housed B s) : job.Within s.scopes.size :=
  ⟨fun f hf => h.there _ (h.work f hf), h.there _ h.core, h.there _ h.global, h.handlers⟩

/-- the world in which work is run: its scopes and host refer to scopes that are there -/
structure Machine.Sound (m : Machine) : Prop where
  store : m.world.store.WellFormed
  hosts : ∀ operation ∈ m.world.hosts, operation.Within m.size
  memory : ∀ v ∈ m.world.memory, v.Within m.size

theorem Machine.WellFormed.sound {m : Machine} (h : m.WellFormed) : m.Sound := ⟨h.store, h.hosts, h.memory⟩

theorem Machine.Sound.child {m : Machine} (hm : m.Sound) {job : Job} (hjob : job.Within m.size) :
    (m.child job).WellFormed := by
  refine ⟨hm.store, hjob.core, hjob.global, ?_, hm.hosts, hm.memory⟩
  change ∀ e ∈ job.interpreter.handlers, _
  rw [hjob.handlers]
  exact List.forall_mem_nil _

namespace Deed

open Eval

theorem taken_within {deeds : List Deed} {m : Machine} (hm : m.WellFormed) (hfit : AllFit deeds m) :
    ∀ job ∈ taken (trail deeds m), job.Within (performAll deeds m).size := by
  induction deeds generalizing m with
  | nil => exact List.forall_mem_nil _
  | cons d deeds ih =>
    rw [trail, taken_cons, performAll_cons]
    intro job hjob
    rcases List.mem_append.mp hjob with hjob | hjob
    · obtain ⟨v, -, rfl, hstore⟩ := accepted_eq_some (Option.mem_toList.mp hjob)
      have hwithin := (jobFor_housed hm v).within
      rw [← hstore] at hwithin
      exact hwithin.mono (size_performAll deeds _)
    · exact ih (d.wellFormed_effect hm hfit.1).1 hfit.2 job hjob

end Deed

/-- what a run leaves of a world: a well-formed store with at least as many scopes, the same host operations and orders of
copying, and new work and kept values that refer to what is there -/
structure Machine.Grown (m m' : Machine) : Prop where
  store : m'.world.store.WellFormed
  memory : ∀ v ∈ m'.world.memory, v.Within m'.size
  hosts : m'.world.hosts = m.world.hosts
  orders : m'.world.orders = m.world.orders
  size : m.size ≤ m'.size
  jobs : ∃ js, m'.world.jobs = m.world.jobs ++ js ∧ ∀ job ∈ js, job.Within m'.size

theorem Machine.Grown.sound {m m' : Machine} (h : m.Grown m') (hm : m.Sound) : m'.Sound := by
  refine ⟨h.store, ?_, h.memory⟩
  rw [h.hosts]
  exact fun operation ho => (hm.hosts operation ho).mono h.size

theorem Machine.Grown.around {m m' : Machine} (h : m.Grown m') (houtside : m'.outside = m.outside) : m.Around m' :=
  ⟨houtside, h.hosts, h.orders⟩

theorem Operation.grown {op : Operation} {m : Machine} (hm : m.WellFormed) (hop : op.Fits m.size) :
    m.Grown (op.perform m).2 := by
  obtain ⟨deeds, hdoes⟩ := exists_does hm hop
  obtain ⟨hdeeds, hfit⟩ := hdoes.spec hm hop
  rw [← hdeeds]
  have hwell := Deed.wellFormed_performAll hm hfit
  exact ⟨hwell.store, hwell.memory, hosts_performAll deeds m, orders_performAll deeds m, Deed.size_performAll deeds m, _,
    (Deed.steady_performAll deeds m).jobs, Deed.taken_within hm hfit⟩

theorem Machine.grown_runJob {m : Machine} {job : Job} (hm : m.Sound) (hjob : job.Within m.size) :
    m.Grown (m.runJob job) := by
  have hfits : (Operation.call job.work []).Fits (m.child job).size := ⟨hjob.work, List.forall_mem_nil _⟩
  have hgrown := Operation.grown (hm.child hjob) hfits
  obtain ⟨js, hjobs, hjs⟩ := hgrown.jobs
  obtain ⟨after, hstore, -, hhost, hreport, hrun⟩ := m.runJob_after job
  have hsize : after.size = ((Operation.call job.work []).perform (m.child job)).2.size :=
    congrArg (fun s => s.scopes.size) hstore
  have hwell := hgrown.store
  have hmemory := hgrown.memory
  rw [← hstore] at hwell
  rw [← hsize, ← hhost.memory] at hmemory
  rw [← hsize] at hjs
  rw [hrun]
  refine ⟨hwell, hmemory, hhost.hosts.trans hgrown.hosts, hhost.orders.trans hgrown.orders,
    hgrown.size.trans_eq hsize.symm, js, ?_, hjs⟩
  exact (hreport.jobs.trans (List.append_nil _)).trans hjobs

namespace Machine

/-- a well-formed machine on which all work that waits refers to scopes that are there -/
structure Stocked (m : Machine) : Prop extends m.WellFormed where
  jobs : ∀ job ∈ m.world.jobs, job.Within m.size

theorem Grown.stocked {m m' : Machine} (h : m.Grown m') (hjobs : ∀ job ∈ m.world.jobs, job.Within m.size)
    (hm' : m'.WellFormed) : m'.Stocked := by
  obtain ⟨js, hjs, hnew⟩ := h.jobs
  refine ⟨hm', ?_⟩
  rw [hjs]
  intro job hjob
  rcases List.mem_append.mp hjob with hjob | hjob
  · exact (hjobs job hjob).mono h.size
  · exact hnew job hjob

theorem Stocked.answer {m : Machine} (h : m.Stocked) {op : Operation} (hop : op.Fits m.size) :
    (op.perform m).2.Stocked := by
  obtain ⟨-, -, -, -, hwell⟩ := op.exists_effort h.toWellFormed hop
  exact (Operation.grown h.toWellFormed hop).stocked h.jobs hwell

/-- any piece of work can be taken out, and run -/
theorem Stocked.run {m : Machine} (h : m.Stocked) {before behind : List Job} {job : Job}
    (hjobs : m.world.jobs = before ++ job :: behind) :
    ((m.withJobs (before ++ behind)).child job).WellFormed ∧
      (Operation.call job.work []).Fits ((m.withJobs (before ++ behind)).child job).size ∧
      m.size ≤ ((m.withJobs (before ++ behind)).runJob job).size ∧
      ((m.withJobs (before ++ behind)).runJob job).Stocked := by
  have hsound : (m.withJobs (before ++ behind)).Sound := ⟨h.store, h.hosts, h.memory⟩
  have hwithin : job.Within (m.withJobs (before ++ behind)).size := h.jobs job (by simp [hjobs])
  have hsub : (before ++ behind).Sublist m.world.jobs := by
    rw [hjobs]
    exact List.Sublist.append_left (List.sublist_cons_self job behind) before
  have hgrown := grown_runJob hsound hwithin
  have hafter := hgrown.sound hsound
  refine ⟨hsound.child hwithin, ⟨hwithin.work, List.forall_mem_nil _⟩, hgrown.size,
    hgrown.stocked (fun other hother => h.jobs other (hsub.subset hother))
      ⟨hafter.store, ?_, ?_, ?_, hafter.hosts, hafter.memory⟩⟩
  · exact Nat.lt_of_lt_of_le h.core hgrown.size
  · exact Nat.lt_of_lt_of_le h.global hgrown.size
  · exact fun e he v hv => (h.handlers e he v hv).mono hgrown.size

end Machine

/-- work that waits comes to an end when the oldest is run first, that spawned meanwhile included -/
inductive Machine.Ends : Machine → Prop where
  | idle {m : Machine} (jobs : m.world.jobs = []) : m.Ends
  | run {m : Machine} {job : Job} {rest : List Job} (jobs : m.world.jobs = job :: rest)
    (further : ((m.withJobs rest).runJob job).Ends) : m.Ends

namespace Machine

theorem drain_idle {m : Machine} (h : m.world.jobs = []) : m.drain = m := by
  rw [drain_eq, runOldest, h]

theorem drain_run {m : Machine} {job : Job} {rest : List Job} (h : m.world.jobs = job :: rest) :
    m.drain = ((m.withJobs rest).runJob job).drain := by
  rw [drain_eq, runOldest, h]
  rfl

/-- what holds of a machine and is kept by running the oldest work holds when all work is done -/
theorem Ends.drain_induction {Q : Machine → Prop} (hstep : ∀ (m : Machine) (job : Job) (rest : List Job),
    m.world.jobs = job :: rest → Q m → Q ((m.withJobs rest).runJob job)) {m : Machine} (h : m.Ends) (hm : Q m) :
    Q m.drain := by
  induction h with
  | idle jobs =>
    rw [drain_idle jobs]
    exact hm
  | run jobs _ ih =>
    rw [drain_run jobs]
    exact ih (hstep _ _ _ jobs hm)

end Machine

/-- from machines on which the same was done since, the same came to the record and to the waiting work -/
theorem Machine.Alike.growth {P : Pairing} {m₀ m₀' m m' : Machine} (h : Alike P m₀ m₀' m m') (hgrown : m₀.Grown m)
    (hgrown' : m₀'.Grown m') {es : Array Effect} {new : List Job} (record : m.world.record = m₀.world.record ++ es)
    (jobs : m.world.jobs = m₀.world.jobs ++ new) :
    ∃ new', m'.world.record = m₀'.world.record ++ es ∧ m'.world.jobs = m₀'.world.jobs ++ new' ∧
      List.Forall₂ (Job.Paired P) new new' ∧ (∀ job ∈ new, job.Within m.size) ∧ ∀ job ∈ new', job.Within m'.size := by
  obtain ⟨es', hes, hes'⟩ := h.record
  obtain ⟨new₁, new', hnew, hnew', hpaired⟩ := h.jobs
  obtain ⟨new₂, hnew₂, hwithin⟩ := hgrown.jobs
  obtain ⟨new₂', hnew₂', hwithin'⟩ := hgrown'.jobs
  obtain rfl : es = es' := (Array.append_right_inj _).mp (record.symm.trans hes)
  obtain rfl : new = new₁ := List.append_cancel_left (jobs.symm.trans hnew)
  obtain rfl : new = new₂ := List.append_cancel_left (jobs.symm.trans hnew₂)
  obtain rfl : new' = new₂' := List.append_cancel_left (hnew'.symm.trans hnew₂')
  exact ⟨new', hes', hnew', hpaired, hwithin, hwithin'⟩

/-! ## What work yields -/

/-- run to its end, with all the work that it leaves, each piece of work does this to the outside in all -/
inductive Yields : Machine → List Job → Multiset Effect → Prop where
  | nil (m : Machine) : Yields m [] 0
  | cons {m : Machine} {job : Job} {rest new : List Job} {es : Array Effect} {E E' : Multiset Effect}
    (record : (m.runJob job).world.record = m.world.record ++ es)
    (jobs : (m.runJob job).world.jobs = m.world.jobs ++ new)
    (further : Yields (m.runJob job) new E) (others : Yields m rest E') :
    Yields m (job :: rest) (es.toList + E + E')

namespace Yields

variable {m m' : Machine} {js js' : List Job} {E E' : Multiset Effect}

/-- nothing is left open -/
theorem unique (h : Yields m js E) (h' : Yields m js E') : E' = E := by
  induction h generalizing E' with
  | nil m =>
    cases h' with
    | nil => rfl
  | cons record jobs _ _ ih₁ ih₂ =>
    cases h' with
    | cons record' jobs' further' others' =>
      rw [record, Array.append_right_inj] at record'
      rw [jobs, List.append_cancel_left_eq] at jobs'
      subst record' jobs'
      rw [ih₁ further', ih₂ others']

theorem append_iff : Yields m (js ++ js') E ↔ ∃ E₁ E₂, Yields m js E₁ ∧ Yields m js' E₂ ∧ E = E₁ + E₂ := by
  induction js generalizing E with
  | nil =>
    refine ⟨fun h => ⟨0, E, .nil m, h, (zero_add E).symm⟩, ?_⟩
    rintro ⟨E₁, E₂, h₁, h₂, rfl⟩
    cases h₁ with
    | nil =>
      rw [zero_add]
      exact h₂
  | cons job js ih =>
    constructor
    · intro h
      cases h with
      | cons record jobs further others =>
        obtain ⟨E₁, E₂, h₁, h₂, rfl⟩ := ih.mp others
        exact ⟨_, E₂, .cons record jobs further h₁, h₂, (add_assoc _ _ _).symm⟩
    · rintro ⟨E₁, E₂, h₁, h₂, rfl⟩
      cases h₁ with
      | cons record jobs further others =>
        rw [add_assoc]
        exact .cons record jobs further (ih.mpr ⟨_, E₂, others, h₂, rfl⟩)

/-- **Work yields the same on twins.** -/
theorem twin {P : Pairing} (hP : P.OneToOne) (h : Yields m js E) (halike : Machine.Alike P m m' m m') (hm : m.Sound)
    (hm' : m'.Sound) (hjs : List.Forall₂ (Job.Paired P) js js') (hwithin : ∀ job ∈ js, job.Within m.size)
    (hwithin' : ∀ job ∈ js', job.Within m'.size) : Yields m' js' E := by
  induction h generalizing m' js' with
  | nil m =>
    cases hjs
    exact .nil m'
  | @cons m job rest new es E E' record jobs _ _ ih₁ ih₂ =>
    rcases hjs with _ | @⟨_, job', _, rest', hjob, hrest⟩
    rw [List.forall_mem_cons] at hwithin hwithin'
    have hafter := Machine.runJob_twin hP halike hjob (hm.child hwithin.1) (hm'.child hwithin'.1) hwithin.1.work
      hwithin'.1.work
    have hgrown := Machine.grown_runJob hm hwithin.1
    have hgrown' := Machine.grown_runJob hm' hwithin'.1
    obtain ⟨new', hrecord', hjobs', hpaired, hnews, hnews'⟩ := hafter.growth hgrown hgrown' record jobs
    exact .cons hrecord' hjobs' (ih₁ hafter.rebase (hgrown.sound hm) (hgrown'.sound hm') hpaired hnews hnews')
      (ih₂ halike hm hm' hrest hwithin.2 hwithin'.2)

/-- work yields the same when its region and all around are the same -/
theorem stay_one {B : Region} {job : Job} (h : Yields m [job] E) (hhoused : job.Housed B m.world.store)
    (hsame : ∀ i, B i → m'.world.store.scopes[i]? = m.world.store.scopes[i]?) (hm : m.Sound) (hm' : m'.Sound)
    (hportable : m.world.HostsPortable) (haround : m.Around m') : Yields m' [job] E := by
  have hhoused' := hhoused.congr hsame
  have hpaired : job.Paired (B.stay m.world.store m'.world.store) job := by
    refine ⟨⟨.inl ⟨rfl, hhoused.core⟩, .inl ⟨rfl, hhoused.global⟩, rfl, rfl, ?_, rfl⟩, hhoused.work.stay, rfl⟩
    rw [hhoused.handlers]
    exact .nil
  refine h.twin (Region.oneToOne_stay hhoused.there hhoused'.there)
    (Machine.alike_stay hhoused.closed hsame haround hportable) hm hm' (.cons hpaired .nil) ?_ ?_
  · exact List.forall_mem_singleton.mpr hhoused.within
  · exact List.forall_mem_singleton.mpr hhoused'.within

theorem stay {homes : List (Job × Region)} (h : Yields m (homes.map Prod.fst) E)
    (hhoused : ∀ x ∈ homes, x.1.Housed x.2 m.world.store)
    (hsame : ∀ x ∈ homes, ∀ i, x.2 i → m'.world.store.scopes[i]? = m.world.store.scopes[i]?) (hm : m.Sound)
    (hm' : m'.Sound) (hportable : m.world.HostsPortable) (haround : m.Around m') :
    Yields m' (homes.map Prod.fst) E := by
  induction homes generalizing E with
  | nil =>
    cases h
    exact .nil m'
  | cons x homes ih =>
    rw [List.forall_mem_cons] at hhoused hsame
    rw [List.map_cons, ← List.singleton_append] at h ⊢
    obtain ⟨E₁, E₂, h₁, h₂, rfl⟩ := append_iff.mp h
    have hfirst := h₁.stay_one hhoused.1 hsame.1 hm hm' hportable haround
    exact append_iff.mpr ⟨E₁, E₂, hfirst, ih h₂ hhoused.2 hsame.2, rfl⟩

end Yields

/-! ## Requests of the host -/

/-- what a host asks for in a session: an operation, or the call of a function that has a name by then -/
inductive Request where
  | operation (op : Operation)
  | callNamed (name : Bytes) (args : List Value)

namespace Request

variable {r : Request} {m m' : Machine} {n : Nat}

/-- the operation that is asked for, when its turn comes -/
def on (m : Machine) : Request → Operation
  | .operation op => op
  | .callNamed name args => .call ((m.world.store.lookup? m.interpreter.global name).getD .unit) args

/-- what is asked for refers to the first `n` scopes only -/
def Fits (n : Nat) : Request → Prop
  | .operation op => op.Fits n
  | .callNamed _ args => ∀ v ∈ args, v.Within n

theorem on_in {A : Region} (h : r.Fits n) (hA : ∀ i < n, A i) (hm : m.Inside A) : (r.on m).In A := by
  cases r with
  | operation op => exact Operation.Fits.isIn h hA
  | callNamed name args =>
    refine ⟨?_, fun v hv f hf => hA _ (h v hv f hf)⟩
    cases hlookup : m.world.store.lookup? m.interpreter.global name with
    | none => nofun
    | some v => exact hm.closed.lookup? hm.global hlookup

theorem on_fits (h : r.Fits n) (hn : n ≤ m.size) (hm : m.WellFormed) : (r.on m).Fits m.size := by
  cases r with
  | operation op =>
    cases op with
    | exec p scope => exact fun s hs => Nat.lt_of_lt_of_le (h s hs) hn
    | execSource => trivial
    | call f args => exact ⟨Value.Within.mono h.1 hn, fun v hv => Value.Within.mono (h.2 v hv) hn⟩
  | callNamed name args =>
    refine ⟨?_, fun v hv => Value.Within.mono (h v hv) hn⟩
    cases hlookup : m.world.store.lookup? m.interpreter.global name with
    | none => exact Value.within_unit _
    | some v =>
      obtain ⟨owner, -, hbound⟩ := Option.bind_eq_some_iff.mp hlookup
      exact hm.store.bound hbound

theorem on_paired {P : Pairing} {m₀ m₀' : Machine} (h : Machine.Twin P m₀ m₀' m m') (hm : m.WellFormed)
    (hm' : m'.WellFormed) (hself : ∀ i < n, P i i) (hr : r.Fits n) : (r.on m).Paired P (r.on m') := by
  have hvalue : ∀ {v : Value}, v.Within n → v.Paired P v := by
    intro v hv
    have hin : v.In (· < n) := hv
    refine hin.paired.mono ?_
    rintro i _ ⟨rfl, hlt⟩
    exact hself _ hlt
  have hvalues : ∀ {vs : List Value}, (∀ v ∈ vs, v.Within n) → List.Forall₂ (Value.Paired P) vs vs := fun hvs =>
    List.forall₂_same.2 fun v hv => hvalue (hvs v hv)
  cases r with
  | operation op =>
    cases op with
    | exec p scope =>
      refine .exec p ?_
      cases scope with
      | none => exact .none
      | some s => exact .some (hself s (hr s rfl))
    | execSource name source => exact .execSource name source
    | call f args => exact .call (hvalue hr.1) (hvalues hr.2)
  | callNamed name args =>
    refine .call ?_ (hvalues hr)
    rcases rel_cases (h.store.lookup? hm.store hm'.store h.interpreter.global name) with
      ⟨hnone, hnone'⟩ | ⟨v, v', hsome, hsome', hpaired⟩
    · rw [hnone, hnone']
      exact .unit
    · rw [hsome, hsome']
      exact hpaired

end Request

/-- answered one after the other, with all the work that is left run to its end, each request does this to the outside in
all -/
inductive Answered : Machine → List Request → Multiset Effect → Prop where
  | nil (m : Machine) : Answered m [] 0
  | cons {m : Machine} {r : Request} {rest : List Request} {new : List Job} {es : Array Effect} {E E' : Multiset Effect}
    (record : ((r.on m).perform m).2.world.record = m.world.record ++ es)
    (jobs : ((r.on m).perform m).2.world.jobs = m.world.jobs ++ new)
    (further : Yields ((r.on m).perform m).2 new E) (others : Answered ((r.on m).perform m).2 rest E') :
    Answered m (r :: rest) (es.toList + E + E')

namespace Answered

variable {m m' : Machine} {rs : List Request} {E E' : Multiset Effect}

/-- nothing is left open -/
theorem unique (h : Answered m rs E) (h' : Answered m rs E') : E' = E := by
  induction h generalizing E' with
  | nil m =>
    cases h' with
    | nil => rfl
  | cons record jobs further _ ih =>
    cases h' with
    | cons record' jobs' further' others' =>
      rw [record, Array.append_right_inj] at record'
      rw [jobs, List.append_cancel_left_eq] at jobs'
      subst record' jobs'
      rw [further.unique further', ih others']

/-- **Requests are answered alike on twins.** -/
theorem twin {P : Pairing} (hP : P.OneToOne) {n : Nat} (hself : ∀ i < n, P i i) (h : Answered m rs E)
    (htwin : Machine.Twin P m m' m m') (hm : m.WellFormed) (hm' : m'.WellFormed) (hn : n ≤ m.size) (hn' : n ≤ m'.size)
    (hrs : ∀ r ∈ rs, r.Fits n) : Answered m' rs E := by
  induction h generalizing m' with
  | nil m => exact .nil m'
  | @cons m r rest new es E E' record jobs further _ ih =>
    rw [List.forall_mem_cons] at hrs
    have hop := Request.on_paired htwin hm hm' hself hrs.1
    have hfits := Request.on_fits hrs.1 hn hm
    have hfits' := Request.on_fits hrs.1 hn' hm'
    have hafter := (Operation.perform_twin hP htwin hm hm' hop hfits hfits').2
    have hgrown := Operation.grown hm hfits
    have hgrown' := Operation.grown hm' hfits'
    obtain ⟨new', hrecord', hjobs', hpaired, hnews, hnews'⟩ := hafter.growth hgrown hgrown' record jobs
    obtain ⟨-, -, -, -, hwell⟩ := Operation.exists_effort _ hm hfits
    obtain ⟨-, -, -, -, hwell'⟩ := Operation.exists_effort _ hm' hfits'
    have hyields := further.twin hP hafter.rebase.toAlike (hgrown.sound hm.sound) (hgrown'.sound hm'.sound) hpaired hnews
      hnews'
    have hlater := ih hafter.rebase hwell hwell' (Nat.le_trans hn hgrown.size) (Nat.le_trans hn' hgrown'.size) hrs.2
    exact .cons hrecord' hjobs' hyields hlater

/-- requests are answered alike when the region of the interpreter and all around are the same -/
theorem stay {A : Region} {n : Nat} (h : Answered m rs E) (hA : ∀ i < n, A i) (hm : m.WellFormed) (hm' : m'.WellFormed)
    (hinside : m.Inside A) (hinterpreter : m'.interpreter = m.interpreter)
    (hthere : ∀ i, A i → i < m.size ∧ i < m'.size)
    (hsame : ∀ i, A i → m'.world.store.scopes[i]? = m.world.store.scopes[i]?) (haround : m.Around m')
    (hportable : m.world.HostsPortable) (hrs : ∀ r ∈ rs, r.Fits n) : Answered m' rs E := by
  have hi : m.interpreter.Paired (A.stay m.world.store m'.world.store) m'.interpreter := by
    rw [hinterpreter]
    refine ⟨.inl ⟨rfl, hinside.core⟩, .inl ⟨rfl, hinside.global⟩, rfl, rfl,
      List.forall₂_same.2 fun e he => ⟨rfl, ?_⟩, rfl⟩
    exact List.forall₂_same.2 fun v hv => (hinside.handlers e he v hv).stay
  have hbound : ∀ {k : Nat}, (∀ i, A i → i < k) → n ≤ k := by
    intro k hk
    by_contra hlt
    exact Nat.lt_irrefl k (hk k (hA k (Nat.lt_of_not_le hlt)))
  exact h.twin (Region.oneToOne_stay (fun i hi => (hthere i hi).1) fun i hi => (hthere i hi).2)
    (fun i hlt => .inl ⟨rfl, hA i hlt⟩) ⟨Machine.alike_stay hinside.closed hsame haround hportable, hi⟩ hm hm'
    (hbound fun i hi => (hthere i hi).1) (hbound fun i hi => (hthere i hi).2) hrs

end Answered

/-! ## Schedules -/

/-- a session from the machine `m` on: requests are answered one after the other, and between them waiting work is run, in
whatever order, until all is done. `steps` are the deeds with the machines on which they are done, `ran` the work in the
order in which it is run, `last` the machine at the end -/
inductive Schedule : Machine → List Request → List (Deed × Machine) → List Job → Machine → Prop where
  | done {m : Machine} (idle : m.world.jobs = []) : Schedule m [] [] [] m
  | answer {m : Machine} {r : Request} {rs : List Request} {deeds : List Deed} {steps : List (Deed × Machine)}
    {ran : List Job} {last : Machine} (does : (r.on m).Does m deeds)
    (rest : Schedule ((r.on m).perform m).2 rs steps ran last) :
    Schedule m (r :: rs) (Deed.trail deeds m ++ steps) ran last
  | run {m : Machine} {before behind : List Job} {job : Job} {rs : List Request} {deeds : List Deed}
    {steps : List (Deed × Machine)} {ran : List Job} {last : Machine} (waiting : m.world.jobs = before ++ job :: behind)
    (does : (Operation.call job.work []).Does ((m.withJobs (before ++ behind)).child job) deeds)
    (rest : Schedule ((m.withJobs (before ++ behind)).runJob job) rs steps ran last) :
    Schedule m rs (Deed.trail deeds ((m.withJobs (before ++ behind)).child job) ++ steps) (job :: ran) last

/-- the regions of waiting work, when a piece of it is taken out -/
theorem Machine.Parted.split {homes : List (Job × Region)} {m : Machine} (h : m.Parted homes)
    {before behind : List Job} {job : Job} (hjobs : m.world.jobs = before ++ job :: behind) :
    ∃ front B back, homes = front ++ (job, B) :: back ∧ before ++ behind = (front ++ back).map Prod.fst := by
  rw [h.jobs] at hjobs
  obtain ⟨front, rest, rfl, hfront, hrest⟩ := List.map_eq_append_iff.mp hjobs
  obtain ⟨⟨job', B⟩, back, rfl, rfl, hback⟩ := List.map_eq_cons_iff.mp hrest
  exact ⟨front, B, back, rfl, by rw [List.map_append, hfront, hback]⟩

theorem Machine.Parted.grown_run {front back : List (Job × Region)} {job : Job} {B : Region} {m : Machine}
    (h : m.Parted (front ++ (job, B) :: back)) (js : List Job) : (m.withJobs js).Grown ((m.withJobs js).runJob job) :=
  grown_runJob ⟨h.wellFormed.store, h.wellFormed.hosts, h.wellFormed.memory⟩ (h.housed (job, B) (by simp)).within

/-- a session that started with `n` scopes: work has regions made since, and writing does not fail -/
structure Machine.Underway (n : Nat) (homes : List (Job × Region)) (m : Machine) : Prop extends m.Parted homes where
  sink : m.world.sink = none
  portable : m.world.HostsPortable
  size : n ≤ m.size
  since : ∀ x ∈ homes, ∀ i, x.2 i → n ≤ i

namespace Machine.Underway

variable {n : Nat} {homes : List (Job × Region)} {m : Machine} {r : Request} {deeds : List Deed}

theorem on_in (h : m.Underway n homes) (hr : r.Fits n) {x : Job × Region} (hx : x ∈ homes) : (r.on m).In x.2.others :=
  Request.on_in hr (fun i hlt hi => Nat.not_lt.mpr (h.since x hx i hi) hlt) (h.apart x hx)

/-- answering a request -/
theorem answer (h : m.Underway n homes) (hr : r.Fits n) (does : (r.on m).Does m deeds)
    (hcalm : ∀ d ∈ deeds, d.isCalm = true) :
    (∃ new, ((r.on m).perform m).2.Underway n (homes ++ new)) ∧
      Steady True (Deed.taken (Deed.trail deeds m)) m ((r.on m).perform m).2 := by
  have hfits := Request.on_fits hr h.size h.wellFormed
  obtain ⟨new, hparted, hnew⟩ := does.parted h.toParted hfits fun x hx => h.on_in hr hx
  have hsteady := (does.steady h.wellFormed hfits).mono fun _ : True => hcalm
  have hsink := outside_congr (fun w => w.sink) (fun _ => rfl) (hsteady.outside trivial h.sink)
  have hgrown := Operation.grown h.wellFormed hfits
  have hportable := h.portable
  rw [World.HostsPortable, ← hgrown.hosts] at hportable
  refine ⟨⟨new, hparted, hsink.trans h.sink, hportable, Nat.le_trans h.size hgrown.size, fun x hx i hi => ?_⟩, hsteady⟩
  rcases List.mem_append.mp hx with hx | hx
  · exact h.since x hx i hi
  · exact Nat.le_trans h.size (hnew x hx i hi)

/-- running work -/
theorem run {front back : List (Job × Region)} {job : Job} {B : Region} {js : List Job}
    (h : m.Underway n (front ++ (job, B) :: back)) (hjs : js = (front ++ back).map Prod.fst)
    (does : (Operation.call job.work []).Does ((m.withJobs js).child job) deeds)
    (hcalm : ∀ d ∈ deeds, d.isCalm = true) :
    (∃ new, ((m.withJobs js).runJob job).Underway n ((front ++ back) ++ new)) ∧
      Steady True (Deed.taken (Deed.trail deeds ((m.withJobs js).child job))) (m.withJobs js)
        ((m.withJobs js).runJob job) := by
  obtain ⟨⟨new, hparted, hnew⟩, hsteady⟩ := h.toParted.runJob hjs does
  replace hsteady := hsteady.mono fun _ : True => hcalm
  have hsink := outside_congr (fun w => w.sink) (fun _ => rfl) (hsteady.outside trivial h.sink)
  have hgrown := h.toParted.grown_run js
  have hportable : (m.withJobs js).world.HostsPortable := h.portable
  rw [World.HostsPortable, ← hgrown.hosts] at hportable
  refine ⟨⟨new, hparted, hsink.trans h.sink, hportable, Nat.le_trans h.size hgrown.size, fun x hx i hi => ?_⟩, hsteady⟩
  rcases List.mem_append.mp hx with hx | hx
  · exact h.since x ((List.Sublist.append_left (List.sublist_cons_self _ _) _).subset hx) i hi
  · exact Nat.le_trans h.size (hnew x hx i hi)

/-- what is yielded is the same before a request is answered, and what the answer does comes to it -/
theorem yields_answer (h : m.Underway n homes) (hr : r.Fits n) (does : (r.on m).Does m deeds)
    (hcalm : ∀ d ∈ deeds, d.isCalm = true) {rs : List Request} {E E' : Multiset Effect}
    (hE : Yields ((r.on m).perform m).2 ((r.on m).perform m).2.world.jobs E)
    (hE' : Answered ((r.on m).perform m).2 rs E') :
    ∃ (es : Array Effect) (F F' : Multiset Effect), ((r.on m).perform m).2.world.record = m.world.record ++ es ∧
      Yields m m.world.jobs F ∧ Answered m (r :: rs) F' ∧ F + F' = es.toList + (E + E') := by
  obtain ⟨⟨new, hnext⟩, hsteady⟩ := h.answer hr does hcalm
  have hfits := Request.on_fits hr h.size h.wellFormed
  have hgrown := Operation.grown h.wellFormed hfits
  obtain ⟨es, hrecord⟩ := hsteady.record
  rw [hsteady.jobs] at hE
  obtain ⟨E₁, E₂, hE₁, hE₂, rfl⟩ := Yields.append_iff.mp hE
  have hkept : ∀ x ∈ homes, ∀ i, x.2 i →
      ((r.on m).perform m).2.world.store.scopes[i]? = m.world.store.scopes[i]? := fun x hx i hi =>
    does.kept h.toParted hfits hx (h.on_in hr hx) hi
  have hold : Yields m m.world.jobs E₁ := by
    rw [h.jobs] at hE₁ ⊢
    exact hE₁.stay (fun x hx => (h.housed x hx).congr (hkept x hx)) (fun x hx i hi => (hkept x hx i hi).symm)
      hnext.wellFormed.sound h.wellFormed.sound hnext.portable
      (hgrown.around (hsteady.outside trivial h.sink)).symm
  refine ⟨es, E₁, _, hrecord, hold, .cons hrecord hsteady.jobs hE₂ hE', ?_⟩
  ac_rfl

section Run

variable {front back : List (Job × Region)} {job : Job} {B : Region} {js : List Job}

/-- the scopes outside of the region of work stay as they are when it is run -/
theorem kept (h : m.Underway n (front ++ (job, B) :: back)) (js : List Job) {i : ScopeId} (hi : i < m.size)
    (hB : ¬B i) : ((m.withJobs js).runJob job).world.store.scopes[i]? = m.world.store.scopes[i]? := by
  have hwell : (m.withJobs js).WellFormed := h.wellFormed.of_same rfl rfl ⟨rfl, rfl, rfl⟩
  have hhost : (m.withJobs js).world.Confined := ⟨h.confined.hosts, h.confined.keeps, h.confined.memory⟩
  have hhoused : job.Housed B (m.withJobs js).world.store := h.housed (job, B) (by simp)
  exact runJob_kept hwell hhost hhoused hi hB

/-- requests are answered as they would be before the work is run -/
theorem answered_run (h : m.Underway n (front ++ (job, B) :: back)) (hjs : js = (front ++ back).map Prod.fst)
    (does : (Operation.call job.work []).Does ((m.withJobs js).child job) deeds)
    (hcalm : ∀ d ∈ deeds, d.isCalm = true) {rs : List Request} (hrs : ∀ r ∈ rs, r.Fits n) {E' : Multiset Effect}
    (hE' : Answered ((m.withJobs js).runJob job) rs E') : Answered m rs E' := by
  obtain ⟨⟨new, hnext⟩, hsteady⟩ := h.run hjs does hcalm
  have hmem : (job, B) ∈ front ++ (job, B) :: back := by simp
  have hinside := h.apart (job, B) hmem
  have hgrown := h.toParted.grown_run js
  have hsame : ∀ i, i < m.size ∧ ¬B i →
      ((m.withJobs js).runJob job).world.store.scopes[i]? = m.world.store.scopes[i]? := fun i hi => h.kept js hi.1 hi.2
  -- the interpreter has all scopes that were there for itself, apart from those of the work
  have hown : m.Inside fun i => i < m.size ∧ B.others i :=
    (h.wellFormed.inside h.confined fun i hi => hi).inter hinside h.confined
  have hown' : ((m.withJobs js).runJob job).Inside fun i => i < m.size ∧ B.others i := by
    refine ⟨hown.closed.congr hsame, hown.core, hown.global, hown.handlers, ?_, hnext.confined.memory⟩
    rw [hgrown.hosts]
    exact hown.hosts
  have haround : m.Around ((m.withJobs js).runJob job) :=
    ⟨hsteady.outside trivial h.sink, hgrown.hosts, hgrown.orders⟩
  refine hE'.stay (fun i hi => ?_) hnext.wellFormed h.wellFormed hown' rfl (fun i hi => ?_)
    (fun i hi => (hsame i hi).symm) haround.symm hnext.portable hrs
  · exact ⟨Nat.lt_of_lt_of_le hi h.size, fun hB => Nat.not_lt.mpr (h.since _ hmem i hB) hi⟩
  · exact ⟨Nat.lt_of_lt_of_le hi.1 hgrown.size, hi.1⟩

/-- what is yielded is the same before work is run, and what the work does comes to it -/
theorem yields_run (h : m.Underway n (front ++ (job, B) :: back)) (hjs : js = (front ++ back).map Prod.fst)
    (does : (Operation.call job.work []).Does ((m.withJobs js).child job) deeds)
    (hcalm : ∀ d ∈ deeds, d.isCalm = true) {E : Multiset Effect}
    (hE : Yields ((m.withJobs js).runJob job) ((m.withJobs js).runJob job).world.jobs E) :
    ∃ es : Array Effect, ((m.withJobs js).runJob job).world.record = m.world.record ++ es ∧
      Yields m m.world.jobs (es.toList + E) := by
  obtain ⟨⟨new, hnext⟩, hsteady⟩ := h.run hjs does hcalm
  have hhoused := h.housed (job, B) (by simp)
  have hgrown := h.toParted.grown_run js
  obtain ⟨es, hrecord⟩ := hsteady.record
  rw [hsteady.jobs] at hE
  obtain ⟨E₁, E₂, hE₁, hE₂, rfl⟩ := Yields.append_iff.mp hE
  -- the work itself
  have hself : Yields (m.withJobs js) [job] (es.toList + E₂ + 0) := .cons hrecord hsteady.jobs hE₂ (.nil _)
  have hjob : Yields m [job] (es.toList + E₂ + 0) :=
    hself.stay_one hhoused (fun _ _ => rfl) ⟨h.wellFormed.store, h.wellFormed.hosts, h.wellFormed.memory⟩
      h.wellFormed.sound h.portable ⟨rfl, rfl, rfl⟩
  -- the others
  have hsub := (List.Sublist.append_left (List.sublist_cons_self (job, B) back) front).subset
  have hkept : ∀ x ∈ front ++ back, ∀ i, x.2 i →
      ((m.withJobs js).runJob job).world.store.scopes[i]? = m.world.store.scopes[i]? := fun x hx i hi =>
    h.kept js ((h.housed x (hsub hx)).there i hi) fun hB => h.cut hx hB hi
  have hwaiting : Yields ((m.withJobs js).runJob job) ((front ++ back).map Prod.fst) E₁ := by
    rw [← hjs]
    exact hE₁
  have hothers := hwaiting.stay (fun x hx => (h.housed x (hsub hx)).congr (hkept x hx))
    (fun x hx i hi => (hkept x hx i hi).symm) hnext.wellFormed.sound h.wellFormed.sound hnext.portable
    (Machine.Around.symm ⟨hsteady.outside trivial h.sink, hgrown.hosts, hgrown.orders⟩)
  rw [List.map_append] at hothers
  obtain ⟨F₁, F₂, hF₁, hF₂, rfl⟩ := Yields.append_iff.mp hothers
  have hsum : es.toList + (F₁ + F₂ + E₂) = F₁ + (es.toList + E₂ + 0 + F₂) := by
    rw [add_zero]
    ac_rfl
  refine ⟨es, hrecord, ?_⟩
  rw [hsum, h.jobs, List.map_append, List.map_cons, ← List.singleton_append]
  exact Yields.append_iff.mpr ⟨_, _, hF₁, Yields.append_iff.mpr ⟨_, _, hjob, hF₂, rfl⟩, rfl⟩

end Run

end Machine.Underway

namespace Schedule

variable {n : Nat} {homes : List (Job × Region)} {m last : Machine} {rs : List Request} {steps : List (Deed × Machine)}
  {ran : List Job}

theorem calm_trail {deeds : List Deed} {m : Machine} {steps : List (Deed × Machine)} :
    (∀ x ∈ Deed.trail deeds m ++ steps, x.1.isCalm = true) ↔
      (∀ d ∈ deeds, d.isCalm = true) ∧ ∀ x ∈ steps, x.1.isCalm = true := by
  rw [List.forall_mem_append]
  refine and_congr_left fun _ => ?_
  conv_rhs => rw [← Deed.map_trail deeds m]
  rw [List.forall_mem_map]

/-- **A whole session.** Whatever the order, what a session does to the outside is what the work that waits at its start
yields, and what the requests do. -/
theorem yields (h : Schedule m rs steps ran last) (hcalm : ∀ x ∈ steps, x.1.isCalm = true) (hm : m.Underway n homes)
    (hrs : ∀ r ∈ rs, r.Fits n) :
    ∃ (es : Array Effect) (E E' : Multiset Effect), last.world.record = m.world.record ++ es ∧
      Yields m m.world.jobs E ∧ Answered m rs E' ∧ (es.toList : Multiset Effect) = E + E' := by
  induction h generalizing homes with
  | @done m idle =>
    refine ⟨#[], 0, 0, Array.append_empty.symm, ?_, .nil m, rfl⟩
    rw [idle]
    exact .nil m
  | answer does _ ih =>
    rw [List.forall_mem_cons] at hrs
    obtain ⟨hdeeds, hsteps⟩ := calm_trail.mp hcalm
    obtain ⟨⟨new, hnext⟩, -⟩ := hm.answer hrs.1 does hdeeds
    obtain ⟨es, E, E', hrecord, hE, hE', hsum⟩ := ih hsteps hnext hrs.2
    obtain ⟨es₁, F, F', hrecord₁, hF, hF', hsum₁⟩ := hm.yields_answer hrs.1 does hdeeds hE hE'
    refine ⟨es₁ ++ es, F, F', ?_, hF, hF', ?_⟩
    · rw [hrecord, hrecord₁, Array.append_assoc]
    · rw [Array.toList_append, ← Multiset.coe_add, hsum, hsum₁]
  | run waiting does _ ih =>
    obtain ⟨hdeeds, hsteps⟩ := calm_trail.mp hcalm
    obtain ⟨front, B, back, rfl, hjs⟩ := hm.toParted.split waiting
    obtain ⟨⟨new, hnext⟩, -⟩ := hm.run hjs does hdeeds
    obtain ⟨es, E, E', hrecord, hE, hE', hsum⟩ := ih hsteps hnext hrs
    obtain ⟨es₁, hrecord₁, hF⟩ := hm.yields_run hjs does hdeeds hE
    refine ⟨es₁ ++ es, es₁.toList + E, E', ?_, hF, hm.answered_run hjs does hdeeds hrs hE', ?_⟩
    · rw [hrecord, hrecord₁, Array.append_assoc]
    · rw [Array.toList_append, ← Multiset.coe_add, hsum, add_assoc]

theorem idle (h : Schedule m rs steps ran last) : last.world.jobs = [] := by
  induction h with
  | done idle => exact idle
  | answer _ _ ih => exact ih
  | run _ _ _ ih => exact ih

/-- **Once.** What is run is what waited at the start, and what calls of `spawn` have left, each piece once. -/
theorem ran_once (h : Schedule m rs steps ran last) (hm : m.Stocked) (hn : n ≤ m.size) (hrs : ∀ r ∈ rs, r.Fits n) :
    ran.Perm (m.world.jobs ++ Deed.taken steps) := by
  induction h with
  | @done m idle =>
    rw [idle]
    exact .nil
  | answer does _ ih =>
    rw [List.forall_mem_cons] at hrs
    have hfits := Request.on_fits hrs.1 hn hm.toWellFormed
    have hsize := (Operation.grown hm.toWellFormed hfits).size
    have hran := ih (hm.answer hfits) (Nat.le_trans hn hsize) hrs.2
    rw [(does.steady hm.toWellFormed hfits).jobs, List.append_assoc, ← Deed.taken_append] at hran
    exact hran
  | @run m before behind job rs deeds steps ran last waiting does _ ih =>
    obtain ⟨hchild, hfits, hsize, hnext⟩ := hm.run waiting
    have hran := ih hnext (Nat.le_trans hn hsize) hrs
    rw [(Machine.runJob_steady hchild hfits does).jobs, List.append_assoc, ← Deed.taken_append] at hran
    change ran.Perm ((before ++ behind) ++ _) at hran
    rw [waiting, List.append_assoc, List.cons_append]
    rw [List.append_assoc] at hran
    exact (hran.cons job).trans List.perm_middle.symm

/-- as long as work is taken at the start, it is taken at each step and at the end -/
theorem taking (h : Schedule m rs steps ran last) (hm : m.Stocked) (hn : n ≤ m.size) (hrs : ∀ r ∈ rs, r.Fits n)
    (hclosed : m.world.closed = false) : (∀ x ∈ steps, x.2.world.closed = false) ∧ last.world.closed = false := by
  have htrail : ∀ {deeds : List Deed} {m : Machine}, m.world.closed = false →
      ∀ x ∈ Deed.trail deeds m, x.2.world.closed = false := by
    intro deeds m hclosed x hx
    obtain ⟨before, behind, -, hmachine⟩ := Deed.mem_trail hx
    rw [hmachine, (Deed.steady_performAll before m).closed, hclosed]
  induction h with
  | done => exact ⟨List.forall_mem_nil _, hclosed⟩
  | answer does _ ih =>
    rw [List.forall_mem_cons] at hrs
    have hfits := Request.on_fits hrs.1 hn hm.toWellFormed
    have hsize := (Operation.grown hm.toWellFormed hfits).size
    have hsteady := does.steady hm.toWellFormed hfits
    obtain ⟨hlater, hlast⟩ := ih (hm.answer hfits) (Nat.le_trans hn hsize) hrs.2 (hsteady.closed.trans hclosed)
    exact ⟨List.forall_mem_append.mpr ⟨htrail hclosed, hlater⟩, hlast⟩
  | run waiting does _ ih =>
    obtain ⟨hchild, hfits, hsize, hnext⟩ := hm.run waiting
    have hsteady := Machine.runJob_steady hchild hfits does
    obtain ⟨hlater, hlast⟩ := ih hnext (Nat.le_trans hn hsize) hrs (hsteady.closed.trans hclosed)
    exact ⟨List.forall_mem_append.mpr ⟨htrail hclosed, hlater⟩, hlast⟩

end Schedule

end Ouroboros
