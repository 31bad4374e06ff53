/-
Sessions in which work is spawned, up to their end and beyond.

The order in which spawned work is run does not matter (`Machine.schedule_independent`): as long as nothing is read, waited
for, fetched or drawn, writing does not fail and the host is portable, two schedules of the same requests write the same to
standard output and to standard error, up to the order; each piece of work is run once; no call of `spawn` is refused while
the session is open, and none is followed when it is closed. The host keeps nothing then, and hands out nothing of its own.
In whatever orders tables are copied, they are the same in both schedules. Without these conditions the order matters, and
so does the order of copying (`Machine.schedule_dependent_sharing`). Closing a session is one of the schedules
(`Schedule.of_close`).

Schedules can be computed (`Machine.afterTurns`): whose turn it is, is a list, and `Machine.calmTurns` checks it with
bounded effort. `Machine.endsWithin` checks in so many pieces of work whether closing ends.
-/
import Mathlib
import Ouroboros.Proofs.Isolation.Schedules

namespace Ouroboros

/-! ## Schedules that are computed -/

/-- whether the effort suffices for the operation, and all that it does is calm -/
def Operation.calmWithin (n : Nat) (op : Operation) (m : Machine) : Bool :=
  match op.runWithin n m with
  | some (_, deeds) => deeds.all Deed.isCalm
  | none => false

theorem Operation.exists_calm {op : Operation} {m : Machine} (hm : m.WellFormed) (hop : op.Fits m.size) {N : Nat}
    (h : ∀ n, op.calmWithin (n + N) m = true) : ∃ deeds, op.Does m deeds ∧ ∀ d ∈ deeds, d.isCalm = true := by
  obtain ⟨deeds, k, does⟩ := exists_does hm hop
  have hcalm := h k
  rw [calmWithin, does (k + N) (Nat.le_add_right k N)] at hcalm
  exact ⟨deeds, ⟨k, does⟩, List.all_eq_true.mp hcalm⟩

/-- whose turn it is in a session: that of the next request, or that of the work at a position among what waits -/
inductive Turn where
  | answer
  | run (i : Nat)

namespace Machine

/-- the machine when the work at a position is taken from what waits -/
def without (m : Machine) (i : Nat) : Machine := m.withJobs (m.world.jobs.take i ++ m.world.jobs.drop (i + 1))

/-- the machine after these turns -/
def afterTurns : List Turn → List Request → Machine → Machine
  | .answer :: turns, r :: rs, m => afterTurns turns rs ((r.on m).perform m).2
  | .run i :: turns, rs, m =>
    match m.world.jobs[i]? with
    | some job => afterTurns turns rs ((m.without i).runJob job)
    | none => m
  | _, _, m => m

/-- the machine when all requests are answered, and no work is run meanwhile -/
def answerAll (m : Machine) : List Request → Machine
  | [] => m
  | r :: rs => answerAll ((r.on m).perform m).2 rs

/-- whether the effort suffices for each of the turns, all that is done is calm, and all is done at the end -/
def calmTurns (n : Nat) : List Turn → List Request → Machine → Bool
  | [], [], m => m.world.jobs.isEmpty
  | .answer :: turns, r :: rs, m => (r.on m).calmWithin n m && calmTurns n turns rs ((r.on m).perform m).2
  | .run i :: turns, rs, m =>
    match m.world.jobs[i]? with
    | some job => (Operation.call job.work []).calmWithin n ((m.without i).child job) &&
        calmTurns n turns rs ((m.without i).runJob job)
    | none => false
  | _, _, _ => false

/-- whether work that waits comes to an end before so many pieces are run -/
def endsWithin : Nat → Machine → Bool
  | 0, _ => false
  | n + 1, m =>
    match m.world.jobs with
    | [] => true
    | job :: rest => endsWithin n ((m.withJobs rest).runJob job)

theorem ends_of_within {n : Nat} {m : Machine} (h : m.endsWithin n = true) : m.Ends := by
  induction n generalizing m with
  | zero => cases h
  | succ n ih =>
    rw [endsWithin] at h
    cases hjobs : m.world.jobs with
    | nil => exact .idle hjobs
    | cons job rest =>
      rw [hjobs] at h
      exact .run hjobs (ih h)

/-- the machine when its session is closed, and all else as it is -/
def shutDown (m : Machine) : Machine := { m with world := { m.world with closed := true } }

theorem close_open {m : Machine} (h : m.world.closed = false) : m.close = m.drain.shutDown := by
  rw [close, h]
  rfl

end Machine

namespace Schedule

variable {m : Machine}

/-- turns that come to an end make a schedule -/
theorem of_turns {k N : Nat} (turns : List Turn) (rs : List Request) (hm : m.Stocked) (hk : k ≤ m.size)
    (hrs : ∀ r ∈ rs, r.Fits k) (h : ∀ n, m.calmTurns (n + N) turns rs = true) :
    ∃ steps ran, Schedule m rs steps ran (m.afterTurns turns rs) ∧ ∀ x ∈ steps, x.1.isCalm = true := by
  induction turns generalizing m rs with
  | nil =>
    cases rs with
    | nil => exact ⟨[], [], .done (List.isEmpty_iff.mp (h 0)), List.forall_mem_nil _⟩
    | cons r rs => exact absurd (h 0) Bool.false_ne_true
  | cons turn turns ih =>
    cases turn with
    | answer =>
      cases rs with
      | nil => exact absurd (h 0) Bool.false_ne_true
      | cons r rs =>
        simp only [Machine.calmTurns, Bool.and_eq_true] at h
        rw [List.forall_mem_cons] at hrs
        have hfits := Request.on_fits hrs.1 hk hm.toWellFormed
        obtain ⟨deeds, does, hdeeds⟩ := Operation.exists_calm hm.toWellFormed hfits fun n => (h n).1
        have hsize := (Operation.grown hm.toWellFormed hfits).size
        obtain ⟨steps, ran, hschedule, hsteps⟩ := ih rs (hm.answer hfits) (Nat.le_trans hk hsize) hrs.2 fun n => (h n).2
        exact ⟨_, ran, .answer does hschedule, calm_trail.mpr ⟨hdeeds, hsteps⟩⟩
    | run i =>
      cases hjob : m.world.jobs[i]? with
      | none =>
        simp only [Machine.calmTurns, hjob] at h
        exact absurd (h 0) Bool.false_ne_true
      | some job =>
        simp only [Machine.calmTurns, hjob, Bool.and_eq_true] at h
        simp only [Machine.afterTurns, hjob]
        have hwaiting : m.world.jobs = m.world.jobs.take i ++ job :: m.world.jobs.drop (i + 1) := by
          obtain ⟨hi, rfl⟩ := List.getElem?_eq_some_iff.mp hjob
          rw [List.getElem_cons_drop, List.take_append_drop]
        obtain ⟨hchild, hfits, hsize, hnext⟩ := hm.run hwaiting
        obtain ⟨deeds, does, hdeeds⟩ := Operation.exists_calm hchild hfits fun n => (h n).1
        obtain ⟨steps, ran, hschedule, hsteps⟩ := ih rs hnext (Nat.le_trans hk hsize) hrs fun n => (h n).2
        exact ⟨_, job :: ran, .run hwaiting does hschedule, calm_trail.mpr ⟨hdeeds, hsteps⟩⟩

/-- the order in which closing runs the work, the oldest first -/
theorem of_drain (hm : m.Stocked) (hends : m.Ends) : ∃ steps ran, Schedule m [] steps ran m.drain := by
  induction hends with
  | idle jobs =>
    rw [Machine.drain_idle jobs]
    exact ⟨[], [], .done jobs⟩
  | @run m job rest jobs _ ih =>
    rw [Machine.drain_run jobs]
    have hwaiting : m.world.jobs = [] ++ job :: rest := jobs
    obtain ⟨hchild, hfits, -, hnext⟩ := hm.run hwaiting
    obtain ⟨deeds, does⟩ := Operation.exists_does hchild hfits
    obtain ⟨steps, ran, hschedule⟩ := ih hnext
    exact ⟨_, _, .run hwaiting does hschedule⟩

/-- when all is done, closing runs nothing -/
theorem close_last {n : Nat} {rs : List Request} {steps : List (Deed × Machine)} {ran : List Job} {last : Machine}
    (h : Schedule m rs steps ran last) (hm : m.Stocked) (hn : n ≤ m.size) (hrs : ∀ r ∈ rs, r.Fits n)
    (hclosed : m.world.closed = false) : last.close = last.shutDown := by
  rw [Machine.close_open (h.taking hm hn hrs hclosed).2, Machine.drain_idle h.idle]

/-- **Closing is a schedule.** When the work that waits after the last request comes to an end, then closing the session does
what one of the schedules does, and the session is closed afterwards. -/
theorem of_close {n : Nat} {rs : List Request} (hm : m.Stocked) (hn : n ≤ m.size) (hrs : ∀ r ∈ rs, r.Fits n)
    (hclosed : m.world.closed = false) (hends : (m.answerAll rs).Ends) :
    ∃ steps ran last, Schedule m rs steps ran last ∧ (m.answerAll rs).close = last.close := by
  induction rs generalizing m with
  | nil =>
    obtain ⟨steps, ran, h⟩ := of_drain hm hends
    have hclose : m.close = m.drain.shutDown := Machine.close_open hclosed
    exact ⟨steps, ran, _, h, hclose.trans (h.close_last hm hn hrs hclosed).symm⟩
  | cons r rs ih =>
    rw [List.forall_mem_cons] at hrs
    have hfits := Request.on_fits hrs.1 hn hm.toWellFormed
    have hsize := (Operation.grown hm.toWellFormed hfits).size
    obtain ⟨deeds, does⟩ := Operation.exists_does hm.toWellFormed hfits
    have hsteady := does.steady hm.toWellFormed hfits
    obtain ⟨steps, ran, last, h, hclose⟩ := ih (hm.answer hfits) (Nat.le_trans hn hsize) hrs.2
      (hsteady.closed.trans hclosed) hends
    exact ⟨_, ran, last, .answer does h, hclose⟩

end Schedule

/-! ## Closed sessions -/

open Eval in
/-- work is left by `spawn` when it is given something to run, as long as work is taken -/
theorem Deed.accepted_spawn (v : Value) (m : Machine) : (Deed.builtin .spawn [v]).accepted m =
    if Primitive.spawnFault v = none ∧ m.world.closed = false then some (jobFor v m) else none := by
  rw [accepted]
  rcases Primitive.run_spawn_cases v m with ⟨fault, hfault, hrun⟩ | ⟨-, hclosed, hrun⟩ | ⟨hfault, hopen, hrun⟩
  · rw [hrun, if_neg (by simp [hfault])]
  · rw [hrun, if_neg (by simp [hclosed])]
  · rw [hrun, if_pos ⟨hfault, hopen⟩]

namespace Machine

/-- no work waits, and none is taken -/
structure Shut (m : Machine) : Prop where
  closed : m.world.closed = true
  idle : m.world.jobs = []

theorem Shut.accepted {m : Machine} (h : m.Shut) (d : Deed) : d.accepted m = none := by
  cases hd : d.accepted m with
  | none => rfl
  | some job =>
    obtain ⟨v, rfl, -, -⟩ := Deed.accepted_eq_some hd
    rw [Deed.accepted_spawn, if_neg (by simp [h.closed])] at hd
    cases hd

/-- a closed session stays closed, whatever is done -/
theorem Shut.performAll {m : Machine} (h : m.Shut) (deeds : List Deed) : (Ouroboros.performAll deeds m).Shut := by
  induction deeds generalizing m with
  | nil => exact h
  | cons d deeds ih =>
    have hsteady := d.steady_effect m
    refine ih ⟨hsteady.closed.trans h.closed, ?_⟩
    rw [hsteady.jobs, h.idle, h.accepted d]
    rfl

/-- more work is refused: closing does nothing, and a call of `spawn` fails, leaves no work and does nothing to the outside.
What it fails for is that the session is closed, unless it is given nothing to run -/
structure Refusing (m : Machine) : Prop where
  idle : m.world.jobs = []
  close : m.close = m
  spawn : ∀ (call : Call) (v : Value), ∃ d m', Primitive.run call .spawn [v] m = (.error d, m') ∧
    m'.world.jobs = [] ∧ m'.world.record = m.world.record ∧ (Primitive.spawnFault v = none → d.fault.kind = .unsupported)

theorem Shut.refusing {m : Machine} (h : m.Shut) : m.Refusing := by
  refine ⟨h.idle, if_pos h.closed, fun call v => ?_⟩
  rcases Primitive.run_spawn_cases v m with ⟨fault, hfault, hrun⟩ | ⟨-, -, hrun⟩ | ⟨-, hopen, -⟩
  · refine ⟨_, _, hrun, h.idle, rfl, fun hnone => ?_⟩
    rw [hfault] at hnone
    cases hnone
  · exact ⟨_, _, hrun, h.idle, rfl, fun _ => rfl⟩
  · rw [h.closed] at hopen
    cases hopen

end Machine

/-! ## Sessions -/

/-- what is written to standard output -/
def Effect.out? : Effect → Option Bytes
  | .out t => some t
  | _ => none

/-- what is written to standard error -/
def Effect.err? : Effect → Option Bytes
  | .err t => some t
  | _ => none

namespace Machine

/-- what was written to standard output, in whatever order -/
def stdout (m : Machine) : Multiset Bytes := (m.world.record.toList : Multiset Effect).filterMap Effect.out?

/-- what was written to standard error, in whatever order -/
def stderr (m : Machine) : Multiset Bytes := (m.world.record.toList : Multiset Effect).filterMap Effect.err?

/-- a session at its start: no work waits, work is taken, and writing does not fail -/
structure Opening (m : Machine) : Prop where
  wellFormed : m.WellFormed
  idle : m.world.jobs = []
  taking : m.world.closed = false
  sink : m.world.sink = none

/-- the start of a session with a portable host -/
structure Ready (m : Machine) : Prop extends m.Opening where
  portable : m.world.Portable

theorem Opening.stocked {m : Machine} (h : m.Opening) : m.Stocked := by
  refine ⟨h.wellFormed, ?_⟩
  rw [h.idle]
  exact List.forall_mem_nil _

theorem ready_start (limit : Int) : (start .fresh limit).Ready :=
  ⟨⟨wellFormed_start limit, rfl, rfl, rfl⟩, .of_empty rfl rfl⟩

theorem Ready.underway {m : Machine} (h : m.Ready) : m.Underway m.size [] :=
  ⟨⟨h.wellFormed, h.portable.confined, h.idle, List.forall_mem_nil _, List.forall_mem_nil _, .nil⟩, h.sink,
    h.portable.hosts, Nat.le_refl _, List.forall_mem_nil _⟩

end Machine

namespace Schedule

variable {m last : Machine} {rs : List Request} {steps : List (Deed × Machine)} {ran : List Job}

open Eval in
/-- each piece of work that is left is run once, each call of `spawn` that is given something to run leaves work, and
whatever is done after closing the session, more work is refused -/
structure Orderly (steps : List (Deed × Machine)) (ran : List Job) (last : Machine) : Prop where
  once : ran.Perm (Deed.taken steps)
  taken : ∀ x ∈ steps, ∀ v, x.1 = .builtin .spawn [v] → Primitive.spawnFault v = none →
    x.1.accepted x.2 = some (jobFor v x.2)
  refusing : ∀ deeds, (performAll deeds last.close).Refusing

theorem orderly (h : Schedule m rs steps ran last) (hm : m.Ready) (hrs : ∀ r ∈ rs, r.Fits m.size) :
    Orderly steps ran last := by
  have hran := h.ran_once hm.stocked (Nat.le_refl _) hrs
  have htaking := h.taking hm.stocked (Nat.le_refl _) hrs hm.taking
  rw [hm.idle, List.nil_append] at hran
  refine ⟨hran, ?_, fun deeds => ?_⟩
  · rintro ⟨_, m'⟩ hx v rfl hv
    rw [Deed.accepted_spawn, if_pos ⟨hv, htaking.1 _ hx⟩]
  · have hshut : last.shutDown.Shut := ⟨rfl, h.idle⟩
    rw [h.close_last hm.stocked (Nat.le_refl _) hrs hm.taking]
    exact (hshut.performAll deeds).refusing

/-- what is done to the outside does not depend on the order -/
theorem record_eq {steps' : List (Deed × Machine)} {ran' : List Job} {last' : Machine}
    (h : Schedule m rs steps ran last) (h' : Schedule m rs steps' ran' last') (hcalm : ∀ x ∈ steps, x.1.isCalm = true)
    (hcalm' : ∀ x ∈ steps', x.1.isCalm = true) (hm : m.Ready) (hrs : ∀ r ∈ rs, r.Fits m.size) :
    (last.world.record.toList : Multiset Effect) = last'.world.record.toList := by
  obtain ⟨es, E, F, hrecord, hE, hF, hsum⟩ := h.yields hcalm hm.underway hrs
  obtain ⟨es', E', F', hrecord', hE', hF', hsum'⟩ := h'.yields hcalm' hm.underway hrs
  rw [hrecord, hrecord', Array.toList_append, Array.toList_append, ← Multiset.coe_add, ← Multiset.coe_add, hsum, hsum',
    hE.unique hE', hF.unique hF']

end Schedule

namespace Machine

/-- **The order of spawned work does not matter.** A session answers the requests of a host, and runs the work that is
spawned in whatever order, between the requests and then until all is done; closing it after the last request, when the work
ends, is one of the orders. If nothing is read, waited for, fetched or drawn, then any two orders write the same to standard
output and to standard error, each piece of work that was taken is run once, no call of `spawn` that is given something to
run is refused, and once the session is closed, whatever is done, all of them are, and closing it again does nothing.

The host is portable: it keeps nothing, and hands out no functions and scopes but those that it is given. The orders of
copying are any, one for each path of spawns: corresponding spawns of the two schedules copy in the same order. -/
theorem schedule_independent {m : Machine} (hm : m.Ready) {rs : List Request} (hrs : ∀ r ∈ rs, r.Fits m.size) :
    (∀ {steps steps' : List (Deed × Machine)} {ran ran' : List Job} {last last' : Machine},
      Schedule m rs steps ran last → Schedule m rs steps' ran' last' →
      (∀ x ∈ steps, x.1.isCalm = true) → (∀ x ∈ steps', x.1.isCalm = true) →
      last.close.stdout = last'.close.stdout ∧ last.close.stderr = last'.close.stderr ∧
        Schedule.Orderly steps ran last ∧ Schedule.Orderly steps' ran' last') ∧
    ((m.answerAll rs).Ends →
      ∃ steps ran last, Schedule m rs steps ran last ∧ (m.answerAll rs).close = last.close) := by
  refine ⟨fun h h' hcalm hcalm' => ?_, fun hends => Schedule.of_close hm.stocked (Nat.le_refl _) hrs hm.taking hends⟩
  have hrecord := h.record_eq h' hcalm hcalm' hm hrs
  rw [h.close_last hm.stocked (Nat.le_refl _) hrs hm.taking, h'.close_last hm.stocked (Nat.le_refl _) hrs hm.taking]
  refine ⟨?_, ?_, h.orderly hm hrs, h'.orderly hm hrs⟩
  · exact congrArg (Multiset.filterMap Effect.out?) hrecord
  · exact congrArg (Multiset.filterMap Effect.err?) hrecord

/-- the call of a function by its name -/
def invoke (name : Bytes) (args : List Expr) : Stmt := .expr .unknown (.call .unknown (.ident .unknown name) args)

/-- the declaration of a function without parameters -/
def routine (name : Bytes) (body : List Stmt) : Stmt := .fnDecl .unknown ⟨name, [], none, false, false⟩ .unknown body

/-- a program that spawns a function, which spawns `print` and prints a text, and then spawns `print` -/
def nesting : Program where
  stmts := [
    routine (text "outer") [
      invoke (text "spawn") [.ident .unknown (text "print")],
      invoke (text "print") [.string .unknown (text "outer")]],
    invoke (text "spawn") [.ident .unknown (text "outer")],
    invoke (text "spawn") [.ident .unknown (text "print")]]
  errors := []

/-- the function first, or `print` first -/
theorem schedule_independent_nesting :
    let m := start .fresh 10
    let rs := [Request.operation (.exec nesting none)]
    let last := m.afterTurns [.answer, .run 0, .run 0, .run 0] rs
    let last' := m.afterTurns [.answer, .run 1, .run 0, .run 0] rs
    m.Ready ∧ (∀ r ∈ rs, r.Fits m.size) ∧ last.world.record ≠ last'.world.record ∧
    (m.answerAll rs).Ends ∧ (∃ steps ran last, Schedule m rs steps ran last ∧ (m.answerAll rs).close = last.close) ∧
    ∃ steps ran steps' ran',
      Schedule m rs steps ran last ∧ (∀ x ∈ steps, x.1.isCalm = true) ∧
      Schedule m rs steps' ran' last' ∧ (∀ x ∈ steps', x.1.isCalm = true) ∧
      last.close.stdout = last'.close.stdout ∧ last.close.stderr = last'.close.stderr ∧
      Schedule.Orderly steps ran last ∧ Schedule.Orderly steps' ran' last' := by
  intro m rs last last'
  have hm : m.Ready := ready_start 10
  have hrs : ∀ r ∈ rs, r.Fits m.size := List.forall_mem_singleton.mpr nofun
  have hturns : ∀ n, m.calmTurns (n + 12) [.answer, .run 0, .run 0, .run 0] rs = true := by
    intro n
    cbv
  have hturns' : ∀ n, m.calmTurns (n + 12) [.answer, .run 1, .run 0, .run 0] rs = true := by
    intro n
    cbv
  have hdiffer : last.world.record ≠ last'.world.record := by decide +kernel
  have hends : (m.answerAll rs).Ends := ends_of_within (n := 4) (by decide +kernel)
  obtain ⟨steps, ran, h, hcalm⟩ := Schedule.of_turns _ rs hm.stocked (Nat.le_refl _) hrs hturns
  obtain ⟨steps', ran', h', hcalm'⟩ := Schedule.of_turns _ rs hm.stocked (Nat.le_refl _) hrs hturns'
  obtain ⟨hsame, hclose⟩ := schedule_independent hm hrs
  exact ⟨hm, hrs, hdiffer, hends, hclose hends, steps, ran, steps', ran', h, hcalm, h', hcalm',
    hsame h h' hcalm hcalm'⟩

/-- a calm schedule of the session after which this was written to standard output, when it is closed -/
def CanWrite (m : Machine) (rs : List Request) (out : Multiset Bytes) : Prop :=
  ∃ steps ran last, Schedule m rs steps ran last ∧ (∀ x ∈ steps, x.1.isCalm = true) ∧ last.close.stdout = out

theorem Opening.canWrite {m : Machine} (hm : m.Opening) {rs : List Request} (hrs : ∀ r ∈ rs, r.Fits m.size)
    (turns : List Turn) {N : Nat} (hturns : ∀ n, m.calmTurns (n + N) turns rs = true) {out : Multiset Bytes}
    (hout : (m.afterTurns turns rs).stdout = out) : m.CanWrite rs out := by
  obtain ⟨steps, ran, h, hcalm⟩ := Schedule.of_turns turns rs hm.stocked (Nat.le_refl _) hrs hturns
  refine ⟨steps, ran, _, h, hcalm, ?_⟩
  rw [h.close_last hm.stocked (Nat.le_refl _) hrs hm.taking]
  exact hout

/-- a function of the scope with the number 1 -/
def handedOut (name : Bytes) (body : List Stmt) : Value := .function ⟨⟨name, [], none, false, false⟩, body, 1⟩

/-- a machine whose host gives away two functions of the global scope: one gives `x` a value, the other prints it -/
def sharing : Machine :=
  ((start .fresh 10).register (text "setter") (some 0) fun _ =>
    .answer (handedOut (text "set") [.assign .unknown (text "x") (.string .unknown (text "new"))])).register
    (text "shower") (some 0) fun _ => .answer (handedOut (text "show") [invoke (text "print") [.ident .unknown (text "x")]])

theorem opening_sharing : sharing.Opening := by
  have hwithin : ∀ (n : Nat) (name : Bytes) (body : List Stmt), 1 < n →
      HostOperation.Within n fun _ => .answer (handedOut name body) := by
    rintro n name body h k hk args - _ ⟨⟩
    exact Nat.lt_of_lt_of_le h hk
  have hstart := wellFormed_start 10
  have hfirst := hstart.register (text "setter") (some 0) (hwithin _ (text "set")
    [.assign .unknown (text "x") (.string .unknown (text "new"))] hstart.global)
  exact ⟨hfirst.register _ _ (hwithin _ _ _ hfirst.global), rfl, rfl, rfl⟩

/-- a program that declares `x` and spawns calls of the two functions -/
def racing : Program where
  stmts := [
    .letDecl .unknown (text "x") none (.string .unknown (text "old")),
    .letDecl .unknown (text "one") none (.ident .unknown (text "setter")),
    .letDecl .unknown (text "two") none (.ident .unknown (text "shower")),
    caller (text "writer") (text "one"), caller (text "reader") (text "two"),
    invoke (text "spawn") [.ident .unknown (text "writer")],
    invoke (text "spawn") [.ident .unknown (text "reader")]]
  errors := []
where
  caller (name operation : Bytes) : Stmt :=
    routine name [.letDecl .unknown (text "f") none (.call .unknown (.ident .unknown operation) []), invoke (text "f") []]

/-- says whether it is called for the first time -/
def first : HostOperation := fun _ => .ask .kept fun vs : List Value =>
  .ask (.remember (.unit :: vs)) fun _ => .answer (.bool vs.isEmpty)

/-- a machine whose host keeps whether it was called -/
def keeping : Machine := (start .fresh 10).register (text "first") (some 0) first

theorem opening_keeping : keeping.Opening := by
  refine ⟨(wellFormed_start 10).register (text "first") (some 0) ?_, rfl, rfl, rfl⟩
  intro k hk args _
  refine ⟨trivial, fun j hj vs hvs => ⟨?_, fun i _ _ _ => nofun⟩⟩
  exact List.forall_mem_cons.mpr ⟨nofun, hvs⟩

/-- a program that spawns two functions, each of which prints its name and whether it is the first -/
def asking : Program where
  stmts := [
    .letDecl .unknown (text "ask") none (.ident .unknown (text "first")),
    caller (text "one"), caller (text "two"),
    invoke (text "spawn") [.ident .unknown (text "one")],
    invoke (text "spawn") [.ident .unknown (text "two")]]
  errors := []
where
  caller (name : Bytes) : Stmt :=
    routine name [invoke (text "print") [.string .unknown name, .call .unknown (.ident .unknown (text "ask")) []]]

/-- a program in which `p` and `q` share the scope of `x`, `p` through the scope around. The one that is copied first
decides whether their copies do -/
def entangled : Program where
  stmts := [
    .letDecl .unknown (text "p") none (.string .unknown []),
    .letDecl .unknown (text "q") none (.string .unknown []),
    .block .unknown [
      .letDecl .unknown (text "r") none (.string .unknown []),
      routine (text "through") [invoke (text "r") []],
      .assign .unknown (text "p") (.ident .unknown (text "through")),
      .block .unknown [
        .letDecl .unknown (text "x") none (.string .unknown (text "old")),
        routine (text "show") [invoke (text "print") [.ident .unknown (text "x")]],
        routine (text "change") [.assign .unknown (text "x") (.string .unknown (text "new"))],
        .assign .unknown (text "r") (.ident .unknown (text "show")),
        .assign .unknown (text "q") (.ident .unknown (text "change"))]],
    routine (text "work") [invoke (text "q") [], invoke (text "p") []],
    invoke (text "spawn") [.ident .unknown (text "work")]]
  errors := []

/-- a machine that copies the bindings behind a binding before it -/
def backwards : Machine := start { World.fresh with orders := fun _ _ behind => behind } 10

theorem ready_backwards : backwards.Ready := by
  have hstart := wellFormed_start 10
  have hwell : backwards.WellFormed :=
    ⟨hstart.store, hstart.core, hstart.global, hstart.handlers, hstart.hosts, hstart.memory⟩
  exact ⟨⟨hwell, rfl, rfl, rfl⟩, .of_empty rfl rfl⟩

/-- a program that spawns a text -/
def misusing : Program := ⟨[invoke (text "spawn") [.string .unknown (text "x")]], []⟩

/-- the categories of what is wrong -/
def kinds : Outcome → List ErrorKind
  | .error ds => ds.map fun d => d.fault.kind
  | .ok _ => []

/-- In a closed session `spawn` looks at what it is given first, and fails for that. When the host gives away functions of
the global scope, work is not isolated, and one of the orders prints the new `x`, the other the old one; and when the host
keeps what was called, it depends on the order which work is the first. With other orders of copying, the same order of work
prints something else. -/
theorem schedule_dependent_sharing :
    ((start .fresh 10).close.Shut ∧
      kinds ((Operation.exec misusing none).perform (start .fresh 10).close).1 = [.notCallable]) ∧
    (sharing.Opening ∧ sharing.CanWrite [.operation (.exec racing none)] {text "new\n"} ∧
      sharing.CanWrite [.operation (.exec racing none)] {text "old\n"}) ∧
    (keeping.Opening ∧ keeping.CanWrite [.operation (.exec asking none)] {text "one true\n", text "two false\n"} ∧
      keeping.CanWrite [.operation (.exec asking none)] {text "one false\n", text "two true\n"}) ∧
    (start .fresh 10).Ready ∧ backwards.Ready ∧
    (start .fresh 10).CanWrite [.operation (.exec entangled none)] {text "new\n"} ∧
    backwards.CanWrite [.operation (.exec entangled none)] {text "old\n"} := by
  have hfits : ∀ (p : Program) (n : Nat), ∀ r ∈ [Request.operation (.exec p none)], r.Fits n := fun p n =>
    List.forall_mem_singleton.mpr fun _ h => by cases h
  have hclose : (start .fresh 10).close = (start .fresh 10).shutDown := by rw [close_open rfl, drain_idle rfl]
  rw [hclose]
  refine ⟨⟨⟨rfl, rfl⟩, by decide +kernel⟩, ⟨opening_sharing, ?_, ?_⟩, ⟨opening_keeping, ?_, ?_⟩, ready_start 10,
    ready_backwards, ?_, ?_⟩
  · have hturns : ∀ n, sharing.calmTurns (n + 20) [.answer, .run 0, .run 0] [.operation (.exec racing none)] = true := by
      intro n
      cbv
    exact opening_sharing.canWrite (hfits racing _) _ hturns (by decide +kernel)
  · have hturns : ∀ n, sharing.calmTurns (n + 20) [.answer, .run 1, .run 0] [.operation (.exec racing none)] = true := by
      intro n
      cbv
    exact opening_sharing.canWrite (hfits racing _) _ hturns (by decide +kernel)
  · have hturns : ∀ n, keeping.calmTurns (n + 20) [.answer, .run 0, .run 0] [.operation (.exec asking none)] = true := by
      intro n
      cbv
    exact opening_keeping.canWrite (hfits asking _) _ hturns (by decide +kernel)
  · have hturns : ∀ n, keeping.calmTurns (n + 20) [.answer, .run 1, .run 0] [.operation (.exec asking none)] = true := by
      intro n
      cbv
    exact opening_keeping.canWrite (hfits asking _) _ hturns (by decide +kernel)
  · have hturns : ∀ n,
        (start .fresh 10).calmTurns (n + 25) [.answer, .run 0] [.operation (.exec entangled none)] = true := by
      intro n
      cbv
    exact (ready_start 10).canWrite (hfits entangled _) _ hturns (by decide +kernel)
  · have hturns : ∀ n, backwards.calmTurns (n + 25) [.answer, .run 0] [.operation (.exec entangled none)] = true := by
      intro n
      cbv
    exact ready_backwards.canWrite (hfits entangled _) _ hturns (by decide +kernel)

end Machine

end Ouroboros
