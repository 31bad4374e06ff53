/-
Greater limits on nested calls.

Nothing in a program can see the limit on nested calls but by running into it, and whoever runs into it fails: no builtin of
the language, no handler and no loop goes on behind an overflow. So a run that does not end in an overflow is the same with
every greater limit (`Machine.exec_of_le`), if the host's operations do not go on either. It leaves the same machine, but
for the limit itself, which spawned work has inherited. A host's operation that gets over an overflow shows the limit, and
so does the work that a function spawns (`Machine.exec_sees_limit`).

Evaluation with less room and with more room for nested calls is compared step by step (`Eval.Unlimited`); calls are
compared by induction on the smaller room (`Eval.unlimited_applyWithin`).
-/
import Ouroboros.Proofs.Execution.Judgments
import Ouroboros.Proofs.Execution.Sequence

namespace Ouroboros

/-- the interpreter with another limit on nested calls -/
def Interpreter.withLimit (i : Interpreter) (limit : Int) : Interpreter := { i with limit }

/-- spawned work for an interpreter with another limit -/
def Job.withLimit (job : Job) (limit : Int) : Job := { job with interpreter := job.interpreter.withLimit limit }

namespace Machine

/-- the machine with another limit -/
def withLimit (m : Machine) (limit : Int) : Machine := { m with interpreter := m.interpreter.withLimit limit }

/-- the machine with another limit, which also the waiting work has but for its first `old` pieces -/
def relimit (m : Machine) (old : Nat) (limit : Int) : Machine where
  interpreter := m.interpreter.withLimit limit
  world := { m.world with jobs := m.world.jobs.take old ++ (m.world.jobs.drop old).map (·.withLimit limit) }

variable {old : Nat} {limit : Int}

theorem relimit_old (m : Machine) (h : m.world.jobs.length ≤ old) : m.relimit old limit = m.withLimit limit := by
  simp only [relimit, List.take_of_length_le h, List.drop_of_length_le h, List.map_nil, List.append_nil]
  rfl

theorem withStore_relimit (m : Machine) (s : Store) :
    (m.relimit old limit).withStore s = (m.withStore s).relimit old limit := rfl

theorem outside_relimit (m : Machine) : (m.relimit old limit).outside = m.outside := rfl

end Machine

namespace Eval

/-- From a machine with the limit, and from the same machine with another one, the steps do the same, unless the first ends
as `O` says. Waiting work gets the other limit when it was spawned behind the first `old` pieces. -/
def SameUnless (old : Nat) (limit limit' : Int) {α : Type} (O : Except Diagnostic α → Prop) (V : α → Prop) (x x' : Eval α) :
    Prop :=
  ∀ m : Machine, m.interpreter.limit = limit → old ≤ m.world.jobs.length → m.world.HostsPassOn →
    O (x m).1 ∨
    (x' (m.relimit old limit') = ((x m).1, (x m).2.relimit old limit') ∧ (x m).2.interpreter.limit = limit ∧
      m.world.jobs <+: (x m).2.world.jobs ∧ (x m).2.world.hosts = m.world.hosts ∧ ∀ a, (x m).1 = .ok a → V a)

/-- the steps do the same, unless the first ends in an overflow -/
def Unlimited (old : Nat) (limit limit' : Int) : Judgment := fun _ V x x' =>
  SameUnless old limit limit' (fun r => ∃ d, r = .error d ∧ d.kind = .stackOverflow) V x x'

variable {old : Nat} {limit limit' : Int} {α β : Type} {O : Except Diagnostic α → Prop} {O' : Except Diagnostic β → Prop}
variable {V : α → Prop} {W : β → Prop}

namespace SameUnless

/-- a step that does not see the limit -/
theorem of_unaware {x : Eval α} (hrun : ∀ m : Machine, x (m.relimit old limit') = ((x m).1, (x m).2.relimit old limit'))
    (hlimit : ∀ m, (x m).2.interpreter.limit = m.interpreter.limit) (hjobs : ∀ m, (x m).2.world.jobs = m.world.jobs)
    (hhosts : ∀ m, (x m).2.world.hosts = m.world.hosts) (hV : ∀ m a, (x m).1 = .ok a → V a) :
    SameUnless old limit limit' O V x x := by
  intro m hm _ _
  refine .inr ⟨hrun m, (hlimit m).trans hm, ?_, hhosts m, hV m⟩
  rw [hjobs m]

theorem pure {a : α} (h : V a) : SameUnless old limit limit' O V (Pure.pure a) (Pure.pure a) := by
  refine of_unaware (fun _ => rfl) (fun _ => rfl) (fun _ => rfl) (fun _ => rfl) ?_
  rintro m b ⟨⟩
  exact h

theorem fail (d : Diagnostic) : SameUnless old limit limit' O V (Action.fail d) (Action.fail d) :=
  of_unaware (fun _ => rfl) (fun _ => rfl) (fun _ => rfl) (fun _ => rfl) nofun

theorem asks {f : Machine → α} (hf : ∀ m, f (m.relimit old limit') = f m) (hV : ∀ a, V a) :
    SameUnless old limit limit' O V (Action.asks f) (Action.asks f) := by
  refine of_unaware (fun m => ?_) (fun _ => rfl) (fun _ => rfl) (fun _ => rfl) fun _ a _ => hV a
  simp only [Action.asks, hf m]

/-- a part of the machine of which nothing is asked -/
theorem look {f : Machine → α} (hf : ∀ m, f (m.relimit old limit') = f m) :
    SameUnless old limit limit' O (fun _ => True) (Action.asks f) (Action.asks f) := asks hf fun _ => trivial

/-- a step that does not see the limit, of which nothing is asked -/
theorem sure {x : Eval α} (hrun : ∀ m : Machine, x (m.relimit old limit') = ((x m).1, (x m).2.relimit old limit'))
    (hlimit : ∀ m, (x m).2.interpreter.limit = m.interpreter.limit) (hjobs : ∀ m, (x m).2.world.jobs = m.world.jobs)
    (hhosts : ∀ m, (x m).2.world.hosts = m.world.hosts) : SameUnless old limit limit' O (fun _ => True) x x :=
  of_unaware hrun hlimit hjobs hhosts fun _ _ _ => trivial

/-- one step after the other; how the first is not to end is passed on by the second -/
theorem bind {x x' : Eval α} {k k' : α → Eval β} (hx : SameUnless old limit limit' O V x x')
    (hO : ∀ m, O (x m).1 → O' ((x >>= k) m).1) (hk : ∀ a, V a → SameUnless old limit limit' O' W (k a) (k' a)) :
    SameUnless old limit limit' O' W (x >>= k) (x' >>= k') := by
  intro m hm hold hhosts
  rcases hx m hm hold hhosts with hover | ⟨hrun, hlimit, hjobs, hsame, hV⟩
  · exact .inl (hO m hover)
  · simp only [Action.bind_apply]
    rw [hrun]
    rcases hxm : x m with ⟨d | a, m'⟩ <;> rw [hxm] at hlimit hjobs hsame hV
    · exact .inr ⟨rfl, hlimit, hjobs, hsame, nofun⟩
    · have hhosts' : m'.world.HostsPassOn := by
        rw [World.HostsPassOn, hsame]
        exact hhosts
      rcases hk a (hV a rfl) m' hlimit (Nat.le_trans hold hjobs.length_le) hhosts' with
        hover | ⟨hrun', hlimit', hjobs', hsame', hW⟩
      · exact .inl hover
      · exact .inr ⟨hrun', hlimit', hjobs.trans hjobs', hsame'.trans hsame, hW⟩

/-- a step that always does the same, and then another -/
theorem andThen {x x' : Eval α} {k k' : α → Eval β} (hx : SameUnless old limit limit' (fun _ => False) V x x')
    (hk : ∀ a, V a → SameUnless old limit limit' O' W (k a) (k' a)) :
    SameUnless old limit limit' O' W (x >>= k) (x' >>= k') := hx.bind (fun _ h => h.elim) hk

theorem weaken {O₁ : Except Diagnostic α → Prop} {x x' : Eval α} (hx : SameUnless old limit limit' O V x x')
    (hO : ∀ r, O r → O₁ r) : SameUnless old limit limit' O₁ V x x' :=
  fun m hm hold hhosts => (hx m hm hold hhosts).imp_left (hO _)

theorem attempt {x x' : Eval α} (hx : SameUnless old limit limit' O V x x') :
    SameUnless old limit limit' (fun r => ∃ e, r = .ok e ∧ O e) (fun _ => True) (Action.attempt x) (Action.attempt x') := by
  intro m hm hold hhosts
  rcases hx m hm hold hhosts with hover | ⟨hrun, hlimit, hjobs, hsame, -⟩
  · exact .inl ⟨_, rfl, hover⟩
  · refine .inr ⟨?_, hlimit, hjobs, hsame, fun _ _ => trivial⟩
    simp only [Action.attempt, hrun]

/-- a step that only has to do with scopes -/
theorem of_onScopes {x : Eval α} {f : Store → α × Store} (h : OnScopes f x) (hV : ∀ a, V a) :
    SameUnless old limit limit' O V x x := by
  refine of_unaware (fun m => ?_) (fun m => ?_) (fun m => ?_) (fun m => ?_) fun _ a _ => hV a
  · rw [h, h, m.withStore_relimit]
    rfl
  · rw [h]
    rfl
  · rw [h]
    rfl
  · rw [h]
    rfl

/-- a step that only has to do with the outside -/
theorem of_outward {x : Eval α} (h : Outward x x) (hV : ∀ a, V a) : SameUnless old limit limit' O V x x := by
  intro m hm _ _
  obtain ⟨r, o, es, hx, hx', -⟩ := h m (m.relimit old limit') m.outside_relimit
  refine .inr ⟨?_, ?_, ?_, ?_, fun a _ => hV a⟩
  · rw [hx, hx']
    rfl
  · rw [hx]
    exact hm
  · rw [hx]
    exact List.prefix_rfl
  · rw [hx]
    rfl

theorem log {entry : Machine → LogEntry} (h : ∀ m, entry (m.relimit old limit') = entry m)
    {O : Except Diagnostic Unit → Prop} :
    SameUnless old limit limit' O (fun _ => True) (Eval.log entry) (Eval.log entry) := by
  intro m hm _ _
  obtain ⟨r, o, es, hx, hx', -⟩ := log_outward m.outside_relimit (h m)
  refine .inr ⟨?_, ?_, ?_, ?_, fun _ _ => trivial⟩
  · rw [hx, hx']
    rfl
  · rw [hx]
    exact hm
  · rw [hx]
    exact List.prefix_rfl
  · rw [hx]
    rfl

end SameUnless

namespace Unlimited

theorem bind {x x' : Eval α} {k k' : α → Eval β} (hx : Unlimited old limit limit' V x x')
    (hk : ∀ a, V a → Unlimited old limit limit' W (k a) (k' a)) : Unlimited old limit limit' W (x >>= k) (x' >>= k') := by
  refine SameUnless.bind hx (fun m hover => ?_) hk
  obtain ⟨d, hd, hkind⟩ := hover
  refine ⟨d, ?_, hkind⟩
  rw [Action.bind_apply]
  rcases hxm : x m with ⟨r, m'⟩
  rw [hxm] at hd
  subst hd
  rfl

/-- whoever catches a failure passes an overflow on as one -/
theorem attempt {x x' : Eval α} {k k' : Except Diagnostic α → Eval β} (hx : Unlimited old limit limit' V x x')
    {O' : Except Diagnostic β → Prop} (hO : ∀ d m, d.kind = .stackOverflow → O' (k (.error d) m).1)
    (hk : ∀ r, SameUnless old limit limit' O' W (k r) (k' r)) :
    SameUnless old limit limit' O' W (Action.attempt x >>= k) (Action.attempt x' >>= k') := by
  refine SameUnless.bind (SameUnless.attempt hx) (fun m hover => ?_) fun r _ => hk r
  obtain ⟨e, he, d, rfl, hkind⟩ := hover
  have hrun := hO d (x m).2 hkind
  rw [Action.bind_apply]
  simp only [Action.attempt] at he ⊢
  rw [Except.ok.inj he]
  exact hrun

end Unlimited

theorem unlimited_rules : Rules (Unlimited old limit limit') where
  pure := SameUnless.pure
  bind := .bind

/-! ## Trees -/

theorem unlimited_assign (pos : Pos) (scope : ScopeId) (name : Bytes) (v : Value) :
    Unlimited old limit limit' (fun _ => True) (assign pos scope name v) (assign pos scope name v) := by
  rw [assign_eq]
  refine .bind (.look fun _ => rfl) fun owner _ => ?_
  cases owner with
  | none => exact .fail _
  | some owner =>
    refine .bind (.look fun _ => rfl) fun core _ => ?_
    split
    · exact .fail _
    · exact .of_onScopes (onScopes_define owner name v) fun _ => trivial

theorem unlimited_tree : TreeRules (.free fun _ => True) (Unlimited old limit limit') where
  toRules := unlimited_rules
  failAt _ _ := SameUnless.fail _
  lookUp _ _ := SameUnless.asks (fun _ => rfl) fun _ v _ => Terms.value_free _ v
  frames := SameUnless.look fun _ => rfl
  trace _ _ := SameUnless.log fun _ => rfl
  assign scope v _ _ := unlimited_assign _ scope _ v
  declare _ _ := SameUnless.of_onScopes (onScopes_declare _ _) fun _ => trivial
  openScope parent _ _ := SameUnless.of_onScopes (onScopes_openScope parent _) fun _ => trivial

/-! ## Builtins -/

/-- spawned work is the only thing that inherits the limit -/
theorem unlimited_schedule (f : Value) : Unlimited old limit limit' (fun _ => True) (schedule f) (schedule f) := by
  intro m hm hold _
  refine .inr ⟨?_, hm, ?_, rfl, fun _ _ => trivial⟩
  · by_cases hclosed : m.world.closed = true
    · simp only [schedule, Action.exchange, Machine.relimit, World.newInterpreter, hclosed, if_true]
      rfl
    · simp only [schedule, Action.exchange, Machine.relimit, World.newInterpreter, hclosed, Bool.false_eq_true, if_false,
        List.take_append_of_le_length hold, List.drop_append_of_le_length hold, List.map_append, List.append_assoc]
      rfl
  · by_cases hclosed : m.world.closed = true
    · simp only [schedule, Action.exchange, World.newInterpreter, hclosed, if_true, List.prefix_rfl]
    · simp only [schedule, Action.exchange, World.newInterpreter, hclosed, Bool.false_eq_true, if_false]
      exact List.prefix_append _ _

theorem unlimited_spawn (f : Value) : Unlimited old limit limit' (fun _ => True) (Eval.spawn f) (Eval.spawn f) := by
  refine .bind (unlimited_schedule f) fun closed _ => ?_
  cases closed with
  | true => exact .fail _
  | false => exact SameUnless.log fun _ => rfl

theorem unlimited_idle (p : Primitive) (args : List Value) :
    Unlimited old limit limit' (fun _ => True) (p.run Deed.idle args) (p.run Deed.idle args) := by
  rcases p.run_forms args with h | ⟨f, h⟩ | ⟨event, f, h⟩ | ⟨event, h⟩
  · exact .of_outward h fun _ => trivial
  · rw [h]
    exact .bind (unlimited_spawn f) fun _ _ => .pure trivial
  · rw [h]
    have hadd : Unlimited old limit limit' (fun _ => True)
        (changeInterpreter fun i => { i with handlers := Primitive.addHandler event f i.handlers })
        (changeInterpreter fun i => { i with handlers := Primitive.addHandler event f i.handlers }) :=
      SameUnless.sure (fun _ => rfl) (fun _ => rfl) (fun _ => rfl) fun _ => rfl
    exact .bind hadd fun _ _ => .bind (SameUnless.log fun _ => rfl) fun _ _ => .pure trivial
  · rw [h]
    exact .look fun _ => rfl

theorem unlimited_builtin : BuiltinRules (.free fun _ => True) (Unlimited old limit limit') where
  toRules := unlimited_rules
  idle p args _ := unlimited_rules.weaken (unlimited_idle p args) fun v _ => Terms.value_free _ v
  handlers _ := .asks (fun _ => rfl) fun _ h _ => Terms.value_free _ h

/-! ## Programs and the host -/

/-- a program has ended in an overflow -/
def ProgramOverflows (r : Except Diagnostic (Except Diagnostic Value × ScopeId)) : Prop :=
  ∃ d last, r = .ok (.error d, last) ∧ d.kind = .stackOverflow

/-- an operation has ended in an overflow -/
def OutcomeOverflows (r : Except Diagnostic Outcome) : Prop := ∃ d, r = .ok (.error [d]) ∧ d.kind = .stackOverflow

/-- a host's operation is told of an overflow -/
def AnswerOverflows (r : HostRequest) (e : Except Diagnostic r.Answer) : Prop :=
  ∃ a d, e = .ok a ∧ r.failures a = [d] ∧ d.kind = .stackOverflow

section Hosts

variable {call call' : Call}
variable (hcall : JudgesCalls (.free fun _ => True) (Unlimited old limit limit') (fun _ => True) call call')
include hcall

theorem unlimited_program (ss : List Stmt) (scope : ScopeId) (last : Value) :
    SameUnless old limit limit' ProgramOverflows (fun _ => True) (program call scope ss last)
      (program call' scope ss last) := by
  induction ss generalizing scope last with
  | nil => exact .pure trivial
  | cons s rest ih =>
    have hstmt := @judge_stmt _ _ call call' scope unlimited_tree hcall s (Terms.admits_free _ s) fun _ => trivial
    refine Unlimited.attempt hstmt (fun d m hkind => ⟨d, scope, rfl, hkind⟩) fun r => ?_
    rcases r with d | ⟨inner, v | v⟩
    · exact .pure trivial
    · exact ih inner v
    · exact .pure trivial

theorem unlimited_exec (p : Program) (scope : Option ScopeId) :
    SameUnless old limit limit' OutcomeOverflows (fun _ => True) (exec call p scope) (exec call' p scope) := by
  unfold exec
  split
  · refine .andThen (.look fun _ => rfl) fun first _ => ?_
    refine .bind (unlimited_program hcall p.stmts first .unit) (fun m hover => ?_) fun r _ => ?_
    · obtain ⟨d, last, hrun, hkind⟩ := hover
      refine ⟨d, ?_, hkind⟩
      rw [Action.bind_apply]
      rcases hp : program call first p.stmts .unit m with ⟨r, m'⟩
      rw [hp] at hrun
      subst hrun
      simp only [Action.bind_apply, Action.asks]
      split
      · rfl
      · rfl
    · refine .andThen (.look fun _ => rfl) fun global _ => ?_
      dsimp only
      split
      · refine .andThen (.sure (fun _ => rfl) (fun _ => rfl) (fun _ => rfl) fun _ => rfl) fun _ _ => ?_
        exact .pure trivial
      · exact .pure trivial
  · exact .pure trivial

theorem unlimited_execSource (name source : Bytes) :
    SameUnless old limit limit' OutcomeOverflows (fun _ => True) (execSource call name source)
      (execSource call' name source) :=
  .andThen (.log fun _ => rfl) fun _ _ => unlimited_exec hcall _ none

theorem unlimited_answer (r : HostRequest) :
    SameUnless old limit limit' (AnswerOverflows r) (fun _ => True) (answer call r) (answer call' r) := by
  cases r with
  | call f args =>
    have hf := hcall f args .unknown trivial (Terms.value_free _ f) fun v _ => Terms.value_free _ v
    refine .weaken (SameUnless.attempt hf) ?_
    rintro _ ⟨_, rfl, d, rfl, hkind⟩
    exact ⟨.error d, d, rfl, rfl, hkind⟩
  | exec p scope =>
    refine .weaken (unlimited_exec hcall p scope) ?_
    rintro _ ⟨d, rfl, hkind⟩
    exact ⟨.error [d], d, rfl, rfl, hkind⟩
  | execSource name source =>
    refine .weaken (unlimited_execSource hcall name source) ?_
    rintro _ ⟨d, rfl, hkind⟩
    exact ⟨.error [d], d, rfl, rfl, hkind⟩
  | register name arity index =>
    exact .andThen (.look fun _ => rfl) fun core _ => .of_onScopes (onScopes_define core name _) fun _ => trivial
  | define scope name v => exact .of_onScopes (onScopes_define scope name v) fun _ => trivial
  | set scope name v =>
    refine .andThen (.look fun _ => rfl) fun s _ => ?_
    split
    · exact .pure trivial
    · exact .andThen (.of_onScopes (onScopes_define _ name v) fun _ => trivial) fun _ _ => .pure trivial
  | lookUp | core | global | kept => exact .look fun _ => rfl
  | newScope parent => exact .of_onScopes (onScopes_openScope parent []) fun _ => trivial
  | remember vs => exact .sure (fun _ => rfl) (fun _ => rfl) (fun _ => rfl) fun _ => rfl

theorem unlimited_host {action : HostAction} (h : action.PassesOn) :
    Unlimited old limit limit' (fun _ => True) (action.run call) (action.run call') := by
  induction action with
  | answer v => exact SameUnless.pure trivial
  | fail d => exact SameUnless.fail d
  | ask r next ih =>
    refine SameUnless.bind (unlimited_answer hcall r) (fun m hover => ?_) fun a _ => ih a (h a).2
    obtain ⟨a, d, hanswer, hfailures, hkind⟩ := hover
    have hnext : next a = .fail d := by
      rcases (h a).1 with hnone | ⟨d', hd', hnext⟩
      · cases hfailures.symm.trans hnone
      · rw [hfailures] at hd'
        rw [hnext, List.mem_singleton.mp hd']
    refine ⟨d, ?_, hkind⟩
    rw [Action.bind_apply]
    rcases hrun : answer call r m with ⟨e, m'⟩
    rw [hrun] at hanswer
    subst hanswer
    simp only [hnext]
    rfl

theorem unlimited_hosts : JudgesHosts (.free fun _ => True) (Unlimited old limit limit') call call' := by
  intro name arity index args _
  refine unlimited_rules.weaken (V := fun _ => True) ?_ fun v _ => Terms.value_free _ v
  intro m hm hold hhosts
  have hindex : (m.relimit old limit').world.hosts[index]? = m.world.hosts[index]? := rfl
  rw [Builtin.run_ofHost, Builtin.run_ofHost, hindex]
  cases hoperation : m.world.hosts[index]? with
  | none =>
    have hunit : Unlimited old limit limit' (fun _ => True) (pure Value.unit) (pure Value.unit) := SameUnless.pure trivial
    exact hunit m hm hold hhosts
  | some operation =>
    have hpasses := hhosts operation (Array.mem_of_getElem? hoperation) args
    exact unlimited_host hcall hpasses m hm hold hhosts

end Hosts

/-! ## Calls -/

theorem unlimited_enter (frame : Frame) : Unlimited old limit limit' (fun _ => True) (enter frame) (enter frame) :=
  SameUnless.sure (fun _ => rfl) (fun _ => rfl) (fun _ => rfl) fun _ => rfl

theorem unlimited_leave : Unlimited old limit limit' (fun _ => True) leave leave :=
  SameUnless.sure (fun _ => rfl) (fun _ => rfl) (fun _ => rfl) fun _ => rfl

/-- Leaving a call does not take an overflow back: the failure of the body is the failure of the call, up to its place and
its trace. -/
theorem unlimited_attempt {x x' : Eval Completion} (hx : Unlimited old limit limit' (fun _ => True) x x')
    (callee : Callee) (pos : Pos) :
    Unlimited old limit limit' (fun _ => True) (Action.attempt x >>= settle callee pos)
      (Action.attempt x' >>= settle callee pos) := by
  refine Unlimited.attempt hx (fun d m hkind => ⟨_, rfl, hkind⟩) fun r => ?_
  rcases r with d | v | v
  · exact .andThen (.look fun _ => rfl) fun frames _ => Unlimited.bind unlimited_leave fun _ _ => SameUnless.fail _
  · refine Unlimited.bind unlimited_leave fun _ _ => Unlimited.bind (unlimited_tree.trace _ _) fun _ _ => ?_
    exact Unlimited.bind (unlimited_tree.trace _ _) fun _ _ => SameUnless.pure trivial
  · refine Unlimited.bind unlimited_leave fun _ _ => Unlimited.bind (unlimited_tree.trace _ _) fun _ _ => ?_
    exact Unlimited.bind (unlimited_tree.trace _ _) fun _ _ => SameUnless.pure trivial

theorem unlimited_applyWithin {room room' : Nat} (h : room ≤ room') :
    JudgesCalls (.free fun _ => True) (Unlimited old limit limit') (fun _ => True) (applyWithin room)
      (applyWithin room') := by
  induction room generalizing room' with
  | zero =>
    intro f args pos _ _ _
    obtain ⟨inner, hinner⟩ : ∃ inner, applyWithin room' = applyWith inner := by
      cases room' with
      | zero => exact ⟨none, rfl⟩
      | succ room' => exact ⟨some (applyWithin room'), rfl⟩
    rw [applyWithin, hinner, applyWith_eq, applyWith_eq]
    cases calleeFor f args with
    | error fault => exact SameUnless.fail _
    | ok callee => exact fun m _ _ _ => .inl ⟨_, rfl, rfl⟩
  | succ room ih =>
    obtain ⟨room', rfl⟩ : ∃ n, room' = n + 1 := ⟨room' - 1, by omega⟩
    have hcall := ih (Nat.le_of_succ_le_succ h)
    intro f args pos _ hf hargs
    rw [applyWithin, applyWithin, applyWith_eq, applyWith_eq]
    cases hcallee : calleeFor f args with
    | error fault => exact SameUnless.fail _
    | ok callee =>
      have hbody := judge_body unlimited_tree unlimited_builtin id hcall (fun f args pos _ => hcall f args pos trivial)
        (unlimited_hosts hcall) hf hargs hcallee
      refine unlimited_rules.weaken (V := fun _ => True) ?_ fun v _ => Terms.value_free _ v
      refine .bind (unlimited_enter _) fun _ _ => .bind (unlimited_tree.trace _ _) fun _ _ => ?_
      exact unlimited_attempt (unlimited_rules.weaken hbody fun _ _ => trivial) callee pos

theorem unlimited_apply (h : limit ≤ limit') :
    JudgesCalls (.free fun _ => True) (Unlimited old limit limit') (fun _ => True) apply apply := by
  intro f args pos hpos hf hargs m hm hold
  have hroom : room m.interpreter ≤ room (m.relimit old limit').interpreter := by
    simp only [room, Machine.relimit, Interpreter.withLimit]
    omega
  exact unlimited_applyWithin hroom f args pos hpos hf hargs m hm hold

end Eval

/-! ## Operations -/

/-- whether an operation ended in an overflow of the active calls -/
def Outcome.Overflows (r : Outcome) : Prop := ∃ ds, r = .error ds ∧ ∃ d ∈ ds, d.kind = .stackOverflow

namespace Machine

open Eval

variable {limit limit' : Int}

/-- **Greater limits change nothing.** Let a program run with a limit on nested calls, from whatever machine and in whatever
scope, and not end in an overflow, and let the host's operations not get over failures. With every greater limit it gives
the same value or the same failure, does the same to the outside and leaves the same machine, but for the limit itself: that
of the interpreter, and that of the work that the run has spawned. If it has spawned none, only the interpreter's limit
differs. -/
theorem exec_of_le (m : Machine) (p : Program) (scope : Option ScopeId) (h : limit ≤ limit') (hhosts : m.world.HostsPassOn)
    (hover : ¬Outcome.Overflows ((m.withLimit limit).exec p scope).1) :
    (m.withLimit limit').exec p scope =
        (((m.withLimit limit).exec p scope).1,
          ((m.withLimit limit).exec p scope).2.relimit m.world.jobs.length limit') ∧
      m.world.jobs <+: ((m.withLimit limit).exec p scope).2.world.jobs ∧
      (((m.withLimit limit).exec p scope).2.world.jobs = m.world.jobs →
        (m.withLimit limit').exec p scope =
          (((m.withLimit limit).exec p scope).1, ((m.withLimit limit).exec p scope).2.withLimit limit')) := by
  have hlimit : m.withLimit limit' = (m.withLimit limit).relimit m.world.jobs.length limit' :=
    (Machine.relimit_old (m.withLimit limit) (Nat.le_refl _)).symm
  have hrun : (m.withLimit limit').exec p scope = (((m.withLimit limit).exec p scope).1,
        ((m.withLimit limit).exec p scope).2.relimit m.world.jobs.length limit') ∧
      m.world.jobs <+: ((m.withLimit limit).exec p scope).2.world.jobs := by
    rw [hlimit]
    simp only [exec, step] at hover ⊢
    rcases unlimited_exec (unlimited_apply h) p scope (m.withLimit limit) rfl (Nat.le_refl _) hhosts with
      ⟨d, hd, hkind⟩ | ⟨hsame, -, hjobs, -⟩
    · rcases hexec : Eval.exec apply p scope (m.withLimit limit) with ⟨r, m'⟩
      rw [hexec] at hover hd
      subst hd
      exact absurd ⟨[d], rfl, d, List.mem_singleton_self d, hkind⟩ hover
    · have hjobs : m.world.jobs <+: (Eval.exec apply p scope (m.withLimit limit)).2.world.jobs := hjobs
      have hold : (m.withLimit limit).world.jobs.length = m.world.jobs.length := rfl
      rw [hold] at hsame
      rw [hsame]
      rcases hexec : Eval.exec apply p scope (m.withLimit limit) with ⟨d | o, m'⟩ <;> rw [hexec] at hjobs
      · exact ⟨rfl, hjobs⟩
      · exact ⟨rfl, hjobs⟩
  refine ⟨hrun.1, hrun.2, fun hsame => ?_⟩
  rw [← relimit_old _ (Nat.le_of_eq (congrArg List.length hsame))]
  exact hrun.1

/-- a function fails that was called by a function -/
def failingInside : Program where
  stmts := [
    .fnDecl ⟨1, 1⟩ ⟨text "inner", [], none, false, false⟩ ⟨1, 12⟩ [.expr ⟨1, 14⟩ (.ident ⟨1, 14⟩ (text "missing"))],
    .fnDecl ⟨2, 1⟩ ⟨text "outer", [], none, false, false⟩ ⟨2, 12⟩
      [.expr ⟨2, 14⟩ (.call ⟨2, 19⟩ (.ident ⟨2, 14⟩ (text "inner")) [])],
    .expr ⟨3, 1⟩ (.call ⟨3, 6⟩ (.ident ⟨3, 1⟩ (text "outer")) [])]
  errors := []

/-- two calls are nested: with the limit 1 that is an overflow, with the limit 2 and with all greater ones it is not -/
theorem exec_of_le_failingInside :
    Outcome.Overflows (((start .fresh 1).withLimit 1).exec failingInside none).1 ∧
    (2 : Int) ≤ 1000 ∧ (start .fresh 1).world.HostsPassOn ∧
    ¬Outcome.Overflows (((start .fresh 1).withLimit 2).exec failingInside none).1 ∧
    ((start .fresh 1).withLimit 1000).exec failingInside none =
      (.error [⟨.undefinedVariable (text "missing"), ⟨1, 14⟩,
          [.call ⟨text "inner", ⟨2, 19⟩⟩, .call ⟨text "outer", ⟨3, 6⟩⟩], false⟩],
        (((start .fresh 1).withLimit 2).exec failingInside none).2.withLimit 1000) := by
  have hhosts : (start .fresh 1).world.HostsPassOn := fun _ h => absurd h (Array.not_mem_empty _)
  have hover : ¬Outcome.Overflows (((start .fresh 1).withLimit 2).exec failingInside none).1 := by
    rintro ⟨ds, hds, d, hd, hkind⟩
    cases hds
    cases List.mem_singleton.mp hd
    cases hkind
  refine ⟨⟨_, rfl, _, List.mem_singleton_self _, rfl⟩, by decide, hhosts, hover, ?_⟩
  exact (exec_of_le (start .fresh 1) failingInside none (by decide) hhosts hover).2.2 rfl

/-- a machine with an operation that gets over failures, and with a function whose call is nested in that of another one -/
def trier : Machine :=
  (((start .fresh 3).register (text "try") none .trying).execSource []
    (text "fn f() \x7b return 1; \x7d fn g() \x7b return f(); \x7d")).2

/-- a machine with a function that leaves work whose calls are nested three deep -/
def leaver : Machine :=
  ((start .fresh 3).execSource []
    (text "fn k() \x7b print(1); \x7d fn h() \x7b k(); \x7d fn g() \x7b spawn(h); \x7d")).2

/-- whether the line is written when the waiting work runs -/
def linesOfJobs (m : Machine) : List Bool :=
  m.world.jobs.map fun job => (m.runJob job).world.record.any fun e => e = .out (text "1\n")

/-- With the host's operation a program ends in no overflow, and gives another value under a greater limit. And a call of a
function which spawns work leaves that work with the limit of the run: it writes its line only under the greater one. -/
theorem exec_sees_limit :
    ((trier.withLimit 2).execSource [] (text "try(g);")).1.toOption.map Value.shown = some (text "false") ∧
    ((trier.withLimit 3).execSource [] (text "try(g);")).1.toOption.map Value.shown = some (text "1") ∧
    ((leaver.withLimit 2).execSource [] (text "g();")).1.isOk = true ∧
    ((leaver.withLimit 3).execSource [] (text "g();")).1.isOk = true ∧
    linesOfJobs ((leaver.withLimit 2).execSource [] (text "g();")).2 = [false] ∧
    linesOfJobs ((leaver.withLimit 3).execSource [] (text "g();")).2 = [true] := by
  decide +kernel

end Machine

end Ouroboros
