/-
Sessions: what a host does with a machine. It runs programs one after the other, calls functions, adds builtins of its
own, and closes the session, which runs all spawned work to its end. Spawned work may spawn more, so closing may never
end; nothing is said then of what it gives.
-/
import Ouroboros.Machine.Apply

namespace Ouroboros

namespace Machine

/-- a machine with a new interpreter in a world -/
def start (w : World) (limit : Int) : Machine :=
  let (interpreter, world) := w.newInterpreter limit []
  ⟨interpreter, world⟩

def step (m : Machine) (x : Eval Outcome) : Outcome × Machine :=
  match x m with
  | (.ok o, m) => (o, m)
  | (.error d, m) => (.error [d], m)

/-- adds a line to the debug log, if one is kept -/
def log (m : Machine) (entry : LogEntry) : Machine := (Eval.log (fun _ => entry) m).2

/-- runs a program in a scope, or in the global scope when none is given -/
def exec (m : Machine) (p : Program) (scope : Option ScopeId) : Outcome × Machine :=
  m.step (Eval.exec Eval.apply p scope)

theorem exec_of_faulty {p : Program} (h : ¬p.isSound = true) (m : Machine) (scope : Option ScopeId) :
    m.exec p scope = (.error p.errors, m) := by
  simp only [exec, step, Eval.exec, if_neg h]
  rfl

/-- reads source text and runs it in the global scope -/
def execSource (m : Machine) (name source : Bytes) : Outcome × Machine :=
  m.step (Eval.execSource Eval.apply name source)

def call (m : Machine) (f : Value) (args : List Value) : Outcome × Machine := m.step do
  return Eval.outcome (← Action.attempt (Eval.apply f args .unknown))

/-- adds a builtin that does what the host says -/
def register (m : Machine) (name : Bytes) (arity : Option Nat) (operation : HostOperation) : Machine :=
  let index := m.world.hosts.size
  let m := { m with world := { m.world with hosts := m.world.hosts.push operation } }
  (Eval.register (.ofHost name arity index) m).2

/-- the source name under which the failure of spawned work is reported -/
def jobSource (name : Bytes) : Bytes := text "<spawn " ++ name ++ text ">"

/-- runs spawned work in its own interpreter; its failure is reported on standard error -/
def runJob (m : Machine) (job : Job) : Machine :=
  let (outcome, child) := Machine.call ⟨job.interpreter, m.world⟩ job.work []
  let child :=
    match outcome with
    | .ok _ => child
    | .error ds =>
      let child := child.log ⟨text "spawned call failed", [(text "function", job.name), (text "error", summarize ds)]⟩
      let report := (Failure.diagnostics ds).report (jobSource job.name) [] ++ text "\n"
      (Eval.perform (.err report) child).2
  ⟨m.interpreter, child.world⟩

/-- runs the oldest of the waiting work; gives the machine as it is when none waits -/
def runOldest (m : Machine) : Machine ⊕ Machine :=
  match m.world.jobs with
  | [] => .inr m
  | job :: rest => .inl (runJob { m with world := { m.world with jobs := rest } } job)

/-- runs waiting work, the oldest first, until none waits any more -/
def drain (m : Machine) : Machine :=
  haveI : Nonempty Machine := ⟨m⟩
  Id.run (repeatM (fun m => pure (runOldest m)) m)

/-- runs all spawned work and takes no more; a closed session stays as it is -/
def close (m : Machine) : Machine :=
  if m.world.closed then m
  else
    let m := m.drain
    { m with world := { m.world with closed := true } }

theorem drain_eq (m : Machine) : m.drain =
    match m.runOldest with
    | .inl m => m.drain
    | .inr m => m := by
  have hloop := @repeatM_eq_of_monadTail Machine Id _ _ _ ⟨m⟩ (fun m => pure (runOldest m)) m
  simp only [drain, Id.run]
  rw [hloop]
  simp only [repeatM.body, pure_bind]
  cases m.runOldest <;> rfl

end Machine

end Ouroboros
