/-
Active calls.

A run leaves every call that it enters, however it ends, and it enters one only when the active calls are fewer than the
limit. So what it does is nested (`Deed.Nested`): deeds that leave the active calls alone, and calls with nested deeds
between their start and their end (`Eval.nests_runWithin`). It follows what holds at every moment of a run, that is after
every first part of its deeds: the calls that were active before it are still there, at the bottom, and all together are
never more than the limit, or than they were at the start (`Deed.Nested.bounded`). And it follows what holds at the end: the
active calls are those of the start (`Deed.Nested.restores`).
-/
import Ouroboros.Proofs.Execution.Captures
import Ouroboros.Proofs.Execution.Sequence
import Ouroboros.Proofs.Execution.Traversal

namespace Ouroboros

namespace Deed

/-- what is done from `depth` active calls on: a call is entered only below the limit, and it is left again -/
inductive Nested (limit : Int) : Nat → List Deed → Prop where
  | nil (depth : Nat) : Nested limit depth []
  | cons {depth : Nat} {d : Deed} {ds : List Deed} (hd : d.keepsCalls = true) (hds : Nested limit depth ds) :
    Nested limit depth (d :: ds)
  | call {depth : Nat} (frame : Frame) {inner rest : List Deed} (hroom : depth < limit)
    (hinner : Nested limit (depth + 1) inner) (hrest : Nested limit depth rest) :
    Nested limit depth (.enter frame :: (inner ++ .leave :: rest))

namespace Nested

variable {limit : Int} {depth : Nat} {ds ds' : List Deed} {m : Machine}

theorem append (h : Nested limit depth ds) (h' : Nested limit depth ds') : Nested limit depth (ds ++ ds') := by
  induction h with
  | nil => exact h'
  | cons hd _ ih => exact .cons hd (ih h')
  | call frame hroom hinner _ _ ih =>
    simp only [List.cons_append, List.append_assoc]
    exact .call frame hroom hinner (ih h')

theorem of_keepsCalls (h : ∀ d ∈ ds, d.keepsCalls = true) : Nested limit depth ds := by
  induction ds with
  | nil => exact .nil depth
  | cons d ds ih =>
    rw [List.forall_mem_cons] at h
    exact .cons h.1 (ih h.2)

/-- **In the end** the active calls are those of the start. -/
theorem restores (h : Nested limit depth ds) (m : Machine) :
    (performAll ds m).interpreter.frames = m.interpreter.frames ∧
      (performAll ds m).interpreter.limit = m.interpreter.limit := by
  induction h generalizing m with
  | nil => exact ⟨rfl, rfl⟩
  | @cons _ d _ hd _ ih =>
    obtain ⟨hframes, hlimit⟩ := frames_effect hd m
    obtain ⟨hframes', hlimit'⟩ := ih (d.effect m)
    exact ⟨hframes'.trans hframes, hlimit'.trans hlimit⟩
  | call frame _ _ _ ihinner ihrest =>
    rw [performAll_cons, performAll_append, performAll_cons]
    obtain ⟨hinner, hlimit⟩ := ihinner ((enter frame).effect m)
    obtain ⟨hrest, hlimit'⟩ := ihrest (leave.effect (performAll _ ((enter frame).effect m)))
    constructor
    · calc _ = (performAll _ ((enter frame).effect m)).interpreter.frames.tail := hrest
        _ = (frame :: m.interpreter.frames).tail := congrArg List.tail hinner
    · exact hlimit'.trans hlimit

/-- **At every moment** the active calls of the start are at the bottom, and all together they are at most as many as the
limit says, or as there were at the start. -/
theorem bounded (h : Nested limit depth ds) (hdepth : m.interpreter.frames.length = depth) {done : List Deed}
    (hdone : done <+: ds) : m.interpreter.frames <:+ (performAll done m).interpreter.frames ∧
      ((performAll done m).interpreter.frames.length : Int) ≤ max limit depth := by
  induction h generalizing m done with
  | nil depth =>
    obtain rfl := List.prefix_nil.mp hdone
    refine ⟨List.suffix_rfl, ?_⟩
    rw [performAll_nil, hdepth]
    exact Int.le_max_right ..
  | @cons depth d ds hd _ ih =>
    rcases List.prefix_cons_iff.mp hdone with rfl | ⟨more, rfl, hmore⟩
    · refine ⟨List.suffix_rfl, ?_⟩
      rw [performAll_nil, hdepth]
      exact Int.le_max_right ..
    · have hframes := (frames_effect hd m).1
      rw [← hframes] at hdepth ⊢
      exact ih hdepth hmore
  | @call depth frame inner rest hroom hinner _ ihinner ihrest =>
    rcases List.prefix_cons_iff.mp hdone with rfl | ⟨more, rfl, hmore⟩
    · refine ⟨List.suffix_rfl, ?_⟩
      rw [performAll_nil, hdepth]
      exact Int.le_max_right ..
    rw [performAll_cons]
    have hframes : ((enter frame).effect m).interpreter.frames = frame :: m.interpreter.frames := rfl
    have hinside : ((enter frame).effect m).interpreter.frames.length = depth + 1 := by
      rw [hframes, List.length_cons, hdepth]
    -- a first part of the call ends inside the body or behind it
    rcases List.prefix_or_prefix_of_prefix hmore (List.prefix_append inner _) with hpart | ⟨behind, rfl⟩
    · obtain ⟨hsuffix, hlength⟩ := ihinner hinside hpart
      exact ⟨(List.suffix_cons ..).trans hsuffix, by omega⟩
    · rw [List.prefix_append_right_inj] at hmore
      have hback := (hinner.restores ((enter frame).effect m)).1
      rw [performAll_append]
      rcases List.prefix_cons_iff.mp hmore with rfl | ⟨last, rfl, hlast⟩
      · rw [performAll_nil, hback, hframes, List.length_cons]
        exact ⟨List.suffix_cons .., by omega⟩
      · have hleft : (leave.effect (performAll inner ((enter frame).effect m))).interpreter.frames =
            m.interpreter.frames := congrArg List.tail hback
        rw [← hleft] at hdepth ⊢
        exact ihrest hdepth hlast

end Nested

end Deed

/-! ## Runs are nested -/

open Deed (Nested)

namespace Course

variable {α β : Type} {x : Course α}

/-- what the course does is nested -/
structure Nests (x : Course α) : Prop where
  nested : ∀ {m : Machine} {r : Except Diagnostic α} {ds : List Deed}, x m = some (r, ds) →
    Nested m.interpreter.limit m.interpreter.frames.length ds

namespace Nests

theorem pure (a : α) : Nests (Pure.pure a) := by
  constructor
  rintro m r ds ⟨⟩
  exact .nil _

theorem fail (e : Diagnostic) : Nests (Course.fail e : Course α) := by
  constructor
  rintro m r ds ⟨⟩
  exact .nil _

theorem failAt (pos : Pos) (fault : Fault) : Nests (Course.failAt pos fault : Course α) := fail _

theorem asks (f : Machine → α) : Nests (Course.asks f) := by
  constructor
  rintro m r ds ⟨⟩
  exact .nil _

theorem reads (f : Machine → Except Diagnostic α) : Nests (Course.reads f) := by
  constructor
  rintro m r ds ⟨⟩
  exact .nil _

theorem deed {d : Deed} (hd : d.keepsCalls = true) : Nests (Course.deed d) := by
  constructor
  rintro m r ds ⟨⟩
  exact .cons hd (.nil _)

theorem bind {k : α → Course β} (hx : x.Nests) (hk : ∀ a, (k a).Nests) : Nests (x >>= k) := by
  constructor
  intro m r ds h
  rcases bind_eq_some h with ⟨e, he, -⟩ | ⟨a, ds₁, ds₂, hfirst, hnext, rfl⟩
  · exact hx.nested he
  · have hdone := hx.nested hfirst
    have hrest := (hk a).nested hnext
    obtain ⟨hframes, hlimit⟩ := hdone.restores m
    rw [hframes, hlimit] at hrest
    exact hdone.append hrest

theorem attempt (hx : x.Nests) : (Course.attempt x).Nests := by
  constructor
  intro m r ds h
  obtain ⟨⟨s, ds⟩, hs, heq⟩ := Option.map_eq_some_iff.1 h
  cases heq
  exact hx.nested hs

theorem ite {p : Prop} [Decidable p] {y : Course α} (hx : x.Nests) (hy : y.Nests) : (if p then x else y).Nests := by
  split
  · exact hx
  · exact hy

end Nests

/-! ### One call -/

/-- a call is left with deeds that leave the other active calls alone -/
theorem settle_deeds {callee : Eval.Callee} {pos : Pos} {r : Except Diagnostic Completion} {m : Machine}
    {r' : Except Diagnostic Value} {ds : List Deed} (h : settle callee pos r m = some (r', ds)) :
    ∃ rest, ds = .leave :: rest ∧ ∀ d ∈ rest, d.keepsCalls = true := by
  rcases r with d | v | v
  · cases h
    exact ⟨[], rfl, List.forall_mem_nil _⟩
  · cases h
    exact ⟨_, rfl, by simp [Deed.keepsCalls]⟩
  · cases h
    exact ⟨_, rfl, by simp [Deed.keepsCalls]⟩

variable {run : Eval.Task.Runner}

theorem nests_call (hrun : ∀ t, (run t).Nests) (f : Value) (args : List Value) (pos : Pos) :
    (Course.call run f args pos).Nests := by
  constructor
  intro m r ds h
  rw [Course.call] at h
  cases hcallee : Eval.calleeFor f args with
  | error fault =>
    rw [hcallee] at h
    exact (Nests.failAt pos fault).nested h
  | ok callee =>
    simp only [hcallee] at h
    rw [asks_bind] at h
    split at h
    · exact (Nests.failAt pos _).nested h
    · rename_i hroom
      obtain ⟨_, rfl, hentered⟩ := deed_bind (.enter ⟨callee.name, pos⟩) (a := ()) rfl h
      obtain ⟨_, rfl, hstarted⟩ := deed_bind (.trace callee.name .bodyExecuting) (a := ()) rfl hentered
      rcases bind_eq_some hstarted with ⟨e, he, -⟩ | ⟨r, ds₁, ds₂, hbody, hsettle, rfl⟩
      · obtain ⟨s, -, heq⟩ := Option.map_eq_some_iff.1 he
        cases heq
      obtain ⟨rest, rfl, hrest⟩ := settle_deeds hsettle
      have hinner := (hrun (.body callee args)).attempt.nested hbody
      obtain ⟨hframes, hlimit⟩ := Deed.frames_effect (d := .trace callee.name .bodyExecuting) rfl
        ((Deed.enter ⟨callee.name, pos⟩).effect m)
      rw [hframes, hlimit] at hinner
      exact .call ⟨callee.name, pos⟩ (Int.not_le.mp hroom) (.cons (d := .trace ..) rfl hinner) (.of_keepsCalls hrest)

end Course

namespace Eval

variable {run : Task.Runner}

theorem nests_rules : RunRules @Course.Nests where
  pure := .pure
  fail := .fail
  reads := .reads
  bind := .bind
  attempt := .attempt
  deed {d} h := by
    cases d with
    | openScope | declare | set | builtin => exact .deed rfl
    | enter | leave | trace | moveGlobal | note | remember => cases h
  trace _ _ := .deed rfl
  note _ := .deed rfl

/-- whatever a host's operation asks, what is done for it is nested -/
theorem nests_host (hrun : ∀ t, (run t).Nests) (action : HostAction) : (Course.host run action).Nests := by
  induction action with
  | answer v => exact .pure v
  | fail d => exact .fail d
  | ask r next ih =>
    refine .bind (nests_rules.answer hrun r (fun _ scope => .deed (d := .moveGlobal scope) rfl) ?_) ih
    exact fun vs _ => .deed (d := .remember vs) rfl

theorem nests_builtin (hrun : ∀ t, (run t).Nests) (name : Bytes) (arity : Option Nat) (index : Nat) (args : List Value) :
    (Course.builtin run (.ofHost name arity index) args).Nests := by
  refine .bind (.asks _) fun o => ?_
  cases o with
  | none => exact .pure _
  | some operation => exact nests_host hrun (operation args)

/-- **What a task does** is nested. -/
theorem nests_runWithin (n : Nat) (t : Task) : (Task.runWithin n t).Nests := by
  induction n generalizing t with
  | zero => exact ⟨nofun⟩
  | succ n ih => exact nests_rules.expand ih (Course.nests_call ih) (nests_builtin ih) t

end Eval

theorem Operation.nests_runWithin (n : Nat) (op : Operation) : (op.runWithin n).Nests := by
  have R := Eval.nests_rules
  have hrun := Eval.nests_runWithin n
  have hmove : ∀ scope, (Course.deed (.moveGlobal scope)).Nests := fun scope => .deed rfl
  cases op with
  | exec p scope => exact R.exec hrun hmove p scope
  | execSource name source => exact R.execSource hrun hmove name source
  | call f args => exact .bind (hrun (.call f args .unknown)).attempt fun r => .pure _

theorem Operation.nests_runEachWithin (n : Nat) (ops : List Operation) : (runEachWithin n ops).Nests := by
  induction ops with
  | nil => exact .pure _
  | cons op ops ih => exact .bind (op.nests_runWithin n) fun outcome => .bind ih fun outcomes => .pure _

/-! ## Evaluation -/

/-- With enough effort the course `x` does what the step `y` does, and afterwards the active calls are those of the start.
At every moment of the run they are still there, at the bottom, and all together are at most as many as the limit says, or
as there were at the start. -/
structure Machine.KeepsCalls {α : Type} (m : Machine) (x : Nat → Course α) (y : Eval α) : Prop where
  restored : (y m).2.interpreter.frames = m.interpreter.frames
  bounded : ∃ N deeds, (∀ n, N ≤ n → x n m = some ((y m).1, deeds)) ∧ performAll deeds m = (y m).2 ∧
    ∀ done, done <+: deeds → m.interpreter.frames <:+ (performAll done m).interpreter.frames ∧
      ((performAll done m).interpreter.frames.length : Int) ≤ max m.interpreter.limit m.interpreter.frames.length

theorem SettlesAt.keepsCalls {α : Type} {c : Site} {V : Nat → α → Prop} {x : Nat → Course α} {y : Eval α} {m : Machine}
    (h : SettlesAt c V x y m) (hx : ∀ n, (x n).Nests) : m.KeepsCalls x y := by
  obtain ⟨N, deeds, hends, hdeeds, -⟩ := h.ends
  have hnested := (hx N).nested (hends N (Nat.le_refl _))
  refine ⟨?_, N, deeds, hends, hdeeds, fun done hdone => hnested.bounded rfl hdone⟩
  rw [← hdeeds]
  exact (hnested.restores m).1

namespace Machine

open Eval

variable {m : Machine}

/-- without an active call a `return` fails, and changes nothing -/
theorem stmt_ret (hframes : m.interpreter.frames = []) (call : Call) (scope : ScopeId) (pos : Pos) (value : Option Expr) :
    stmt call scope (.ret pos value) m = Action.failAt pos .returnOutside m := by
  cases value with
  | none => simp only [stmt, Action.bind_apply, Action.asks, hframes, if_true]
  | some x => simp only [stmt, Action.bind_apply, Action.asks, hframes, if_true]

/-- operations leave as much room for nested calls as there was -/
theorem room_performEach (hm : m.WellFormed) {ops : List Operation} (hops : Operation.EachFits m ops) :
    room (Operation.performEach m ops).2.interpreter = room m.interpreter := by
  have h := Operation.settles_each (c := ⟨m.interpreter.limit, m.interpreter.frames⟩) ops ⟨hm, rfl, rfl⟩ hops
  have hlimit : (Operation.performEach m ops).2.interpreter.limit = m.interpreter.limit := h.holds.limit
  have hframes : (Operation.performEach m ops).2.interpreter.frames = m.interpreter.frames := h.holds.frames
  rw [room, room, hlimit, hframes]

/-- **Active calls are restored and bounded.** Evaluating an expression, a statement, statements or a call from a
well-formed machine, and however it ends, leaves the active calls as they were, and at no moment are there more than the
limit says, or than there were before. So operations of a host, failed or not, leave a machine without active calls as such,
with as much room for nested calls as before. On such a machine no statement ends with a return, and a `return` fails. -/
theorem calls_restored (m : Machine) (hm : m.WellFormed) :
    (∀ scope e, scope < m.size →
      m.KeepsCalls (fun n => Task.runWithin n (.expr scope e)) (expr apply scope e)) ∧
    (∀ scope s, scope < m.size →
      m.KeepsCalls (fun n => Task.runWithin n (.stmt scope s)) (stmt apply scope s)) ∧
    (∀ scope ss last, scope < m.size → last.Within m.size →
      m.KeepsCalls (fun n => Task.runWithin n (.stmts scope ss last)) (stmts apply scope ss last)) ∧
    (∀ f args pos, f.Within m.size → (∀ v ∈ args, v.Within m.size) →
      m.KeepsCalls (fun n => Task.runWithin n (.call f args pos)) (apply f args pos)) ∧
    (m.interpreter.frames = [] →
      (∀ ops, Operation.EachFits m ops →
        m.KeepsCalls (fun n => Operation.runEachWithin n ops) (Action.exchange fun m => Operation.performEach m ops) ∧
        (Operation.performEach m ops).2.interpreter.frames = [] ∧
        room (Operation.performEach m ops).2.interpreter = room m.interpreter) ∧
      (∀ scope s r, scope < m.size → (stmt apply scope s m).1 = .ok r → ∃ v, r.2 = .normal v) ∧
      (∀ scope ss last r, scope < m.size → (stmts apply scope ss last m).1 = .ok r → ∃ v, r = .normal v) ∧
      (∀ scope pos value, stmt apply scope (.ret pos value) m = Action.failAt pos .returnOutside m) ∧
      Fault.returnOutside.kind = .unsupported) := by
  have hc : Site.Holds ⟨m.interpreter.limit, m.interpreter.frames⟩ m := ⟨hm, rfl, rfl⟩
  have hcall := settles_apply ⟨m.interpreter.limit, m.interpreter.frames⟩
  refine ⟨fun scope e hscope => ?_, fun scope s hscope => ?_, fun scope ss last hscope hlast => ?_,
    fun f args pos hf hargs => ?_, fun hframes => ⟨fun ops hops => ?_, ?_, ?_, ?_, rfl⟩⟩
  · exact (settles_expr hcall hscope e m hc (Nat.le_refl _)).keepsCalls fun n => nests_runWithin n _
  · exact (settles_stmt hcall hscope s m hc (Nat.le_refl _)).keepsCalls fun n => nests_runWithin n _
  · exact (settles_stmts hcall hscope ss hlast m hc (Nat.le_refl _)).keepsCalls fun n => nests_runWithin n _
  · exact (hcall m.size f args pos hf hargs m hc (Nat.le_refl _)).keepsCalls fun n => nests_runWithin n _
  · have hkeeps := (Operation.settles_each ops hc hops).keepsCalls fun n => Operation.nests_runEachWithin n ops
    exact ⟨hkeeps, hkeeps.restored.trans hframes, room_performEach hm hops⟩
  · exact fun scope s r hscope h => normal_stmt hframes s hc hscope h
  · exact fun scope ss last r hscope h => normal_stmts hframes ss hc hscope h
  · exact fun scope pos value => stmt_ret hframes apply scope pos value

/-- a handler that triggers its own event runs into the limit, twice in one session: the second time as deep as the first,
for all calls have been left -/
theorem calls_restored_echo :
    (start .fresh 3).WellFormed ∧ (start .fresh 3).interpreter.frames = [] ∧ 1 < (start .fresh 3).size ∧
    Value.unit.Within (start .fresh 3).size ∧
    (Value.builtin (Primitive.builtin .clock)).Within (start .fresh 3).size ∧
    Operation.EachFits (start .fresh 3) [.exec Operation.echo none, .exec Operation.echo none] ∧
    (∃ d d', (Operation.performEach (start .fresh 3) [.exec Operation.echo none, .exec Operation.echo none]).1 =
      [.error [d], .error [d']] ∧ d.fault = .callDepth 3 ∧ d.trace.length = 3 ∧ d' = d) ∧
    (Operation.performEach (start .fresh 3) [.exec Operation.echo none, .exec Operation.echo none]).2.interpreter.frames = [] ∧
    (start .fresh 3).KeepsCalls (fun n => Task.runWithin n (.stmts 1 Operation.echo.stmts .unit))
      (stmts apply 1 Operation.echo.stmts .unit) ∧
    (start .fresh 3).KeepsCalls (fun n => Task.runWithin n (.call (.builtin (Primitive.builtin .clock)) [] .unknown))
      (apply (.builtin (Primitive.builtin .clock)) [] .unknown) := by
  have hsize : 1 < (start .fresh 3).size := by decide
  have hfits : ∀ n, (Operation.exec Operation.echo none).Fits n := by
    intro n scope h
    cases h
  have hops : Operation.EachFits (start .fresh 3) [.exec Operation.echo none, .exec Operation.echo none] :=
    ⟨hfits _, hfits _, trivial⟩
  have hunit : Value.unit.Within (start .fresh 3).size := Value.within_unit _
  have hclock : (Value.builtin (Primitive.builtin .clock)).Within (start .fresh 3).size := by
    intro f h
    cases h
  obtain ⟨-, -, hstmts, hcall, hidle⟩ := calls_restored (start .fresh 3) (wellFormed_start 3)
  refine ⟨wellFormed_start 3, rfl, hsize, hunit, hclock, hops, ⟨_, _, rfl, rfl, rfl, rfl⟩, ((hidle rfl).1 _ hops).2.1,
    ?_, ?_⟩
  · exact hstmts 1 Operation.echo.stmts .unit hsize hunit
  · exact hcall (.builtin (Primitive.builtin .clock)) [] .unknown hclock (List.forall_mem_nil _)

end Machine

end Ouroboros
