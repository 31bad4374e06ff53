/-
Every run ends.

For every task there is an effort that suffices, and then the task does what evaluation does. The handlers of an event end
by those that were registered when it was triggered. What decreases at a call is the room for nested calls, that is how far
the active calls are below the limit: a call enters one more before it runs anything else, whoever makes it
(`Eval.settles_applyWithin`). So evaluation, which counts the room down, refuses a call exactly when the machine has as many
active calls as the limit says. `Operation.exists_effort` says that the operations of a host end.
-/
import Ouroboros.Proofs.Execution.Copies
import Ouroboros.Proofs.Execution.Evaluation

namespace Ouroboros

namespace Eval

variable {c : Site} {k : Nat} {call : Call}

/-! ## Builtins -/

theorem settles_handlers (hcall : SettlesCalls c call) {k : Nat} : (hs : List Value) → (∀ h ∈ hs, h.Within k) →
    Settles c k (fun _ _ => True) (fun n => Task.runWithin n (.handlers hs)) (Primitive.callAll call hs)
  | [], _ => .task (.handlers ..) (.pure fun _ _ => trivial)
  | h :: rest, hhs => by
    rw [List.forall_mem_cons] at hhs
    refine .task (.handlers ..) ((hcall k h [] .unknown hhs.1 (List.forall_mem_nil _)).bind fun _ n hn _ => ?_)
    exact settles_handlers hcall rest fun h hh => (hhs.2 h hh).mono hn

/-- the calls of a builtin come when the rest of its work is done -/
theorem run_eq (call : Call) (p : Primitive) (args : List Value) : p.run call args =
    match Errand.of? p args with
    | none | some (.copies _) => p.run Deed.idle args
    | some (.call f) => do
      let _ ← p.run Deed.idle args
      call f [] .unknown
    | some (.handlers event) => do
      let hs ← Action.asks fun m => Primitive.handlersOf m.interpreter event
      let v ← p.run Deed.idle args
      Primitive.callAll call hs
      return v := by
  fun_cases Errand.of? p args with
  | case1 f v => simp only [Primitive.run, Deed.idle, bind_assoc, pure_bind]
  | case2 event =>
    funext m
    simp only [Primitive.run, Primitive.callAll_idle]
    rfl
  | case3 f => rfl
  | case4 p args htimeout htrigger hspawn =>
    cases p.given args with
    | wrong harity hargs => rw [Primitive.run_of_length_ne harity hargs, Primitive.run_of_length_ne harity hargs]
    | stringConcat a b =>
      rcases Primitive.run_stringConcat a b with ⟨t, u, -, -, hrun⟩ | ⟨-, hrun⟩ <;> rw [hrun, hrun]
    | setTimeout f v => exact absurd rfl (htimeout f v rfl)
    | triggerEvent v =>
      cases v with
      | string event => exact absurd rfl (htrigger event rfl)
      | unit | number | bool | function | builtin | range | unknown => rfl
    | _ => rfl

/-- a function that a builtin deals with is among its arguments -/
theorem Errand.mem_of? {p : Primitive} {args : List Value} :
    (∀ f, Errand.of? p args = some (.call f) → f ∈ args) ∧
      ∀ f, Errand.of? p args = some (.copies f) → .function f ∈ args := by
  fun_cases Errand.of? p args with
  | case1 f v =>
    refine ⟨?_, nofun⟩
    rintro _ ⟨⟩
    exact List.mem_cons_self
  | case2 event => exact ⟨nofun, nofun⟩
  | case3 f =>
    refine ⟨nofun, ?_⟩
    rintro _ ⟨⟩
    exact List.mem_cons_self
  | case4 => exact ⟨nofun, nofun⟩

theorem settles_idle (p : Primitive) {args : List Value} (hargs : ∀ v ∈ args, v.Within k) :
    Settles c k Value.Within (fun _ => (Course.deed (.builtin p args) : Course Value)) (p.run Deed.idle args) :=
  Settles.deed (d := .builtin p args) hargs rfl

theorem settles_primitive (hcall : SettlesCalls c call) (p : Primitive) {args : List Value}
    (hargs : ∀ v ∈ args, v.Within k) :
    Settles c k Value.Within (fun n => Course.primitive (Task.runWithin n) p args) (p.run call args) := by
  rw [run_eq]
  unfold Course.primitive
  cases h : Errand.of? p args with
  | none => exact settles_idle p hargs
  | some errand =>
    cases errand with
    | call f =>
      refine (settles_idle p hargs).bind fun _ n hn _ => ?_
      exact hcall n f [] .unknown ((hargs f (Errand.mem_of?.1 f h)).mono hn) (List.forall_mem_nil _)
    | handlers event =>
      have hasks : Settles c k (fun n hs => ∀ h ∈ hs, h.Within n)
          (fun _ => Course.asks fun m => Primitive.handlersOf m.interpreter event)
          (Action.asks fun m => Primitive.handlersOf m.interpreter event) :=
        .asks _ fun m hm _ => hm.wellFormed.handlersOf event
      refine hasks.bind fun hs n hn hhs => ?_
      refine (settles_idle p fun v hv => (hargs v hv).mono hn).bind fun v i hi hv => ?_
      refine (settles_handlers hcall hs fun h hh => (hhs h hh).mono hi).bind fun _ j hj _ => ?_
      exact .pure fun l hl => hv.mono (Nat.le_trans hj hl)
    | copies f =>
      have hscope : f.scope < k := hargs _ (Errand.mem_of?.2 f h) f rfl
      have hcopying : Settles c k (fun _ r => ∃ a, Ends (fun n => Task.runWithin n (.copy f.scope r)) a)
          (fun _ => Course.asks copying) (Action.asks copying) :=
        .asks _ fun m hm hk => ⟨_, ends_copying hm.wellFormed.store (Nat.lt_of_lt_of_le hscope hk)⟩
      -- the copies change nothing, and the deed has what they come to
      have hrun : p.run Deed.idle args = Action.asks copying >>= fun _ => p.run Deed.idle args := rfl
      refine .congr (hcopying.bind fun r n hn hr => ?_) hrun
      obtain ⟨a, ha⟩ := hr
      refine .congr (ha.settles.bind fun _ i hi _ => ?_) (pure_bind a fun _ => p.run Deed.idle args).symm
      exact settles_idle p fun v hv => (hargs v hv).mono (Nat.le_trans hn hi)

/-! ## Operations of the host -/

/-- a binding that is there is set, and a new one declared -/
theorem settles_bindHere {scope : ScopeId} (hscope : scope < k) (name : Bytes) {v : Value} (hv : v.Within k) :
    Settles c k (fun _ _ => True) (fun _ => Course.bindHere scope name v) (define scope name v) := by
  intro m hm hk
  have hlook := SettlesAt.look hm fun m => m.world.store.bound? scope name
  have hbind : SettlesAt c (fun _ _ => True) (fun _ => Course.asks (fun m => m.world.store.bound? scope name) >>= fun b =>
      if b.isSome then Course.deed (.set scope name v)
      else do
        let _ ← Course.deed (.declare scope (.value name v))
        return ()) (Action.asks (fun m => m.world.store.bound? scope name) >>= fun b =>
      if b.isSome then define scope name v else define scope name v) m := by
    refine hlook.andThen rfl (.ite (fun hbound => ?_) fun hbound => ?_)
    · exact (Settles.deed (d := .set scope name v) hv rfl m hm hk).congr (Deed.act_set_of_bound hbound v).symm
    · have hact := Deed.act_declare_of_free hbound v
      have hdeclare := Settles.deed (c := c) (d := .declare scope (.value name v)) ⟨hscope, hv⟩ rfl m hm hk
      have hok : ((Deed.declare scope (.value name v)).act m).1 = .ok scope := congrArg Prod.fst hact
      refine .congr (hdeclare.andThen (l := fun _ => pure ()) (a := scope) hok (.pure hdeclare.holds trivial)) ?_
      change _ = Action.bind (Deed.declare scope (.value name v)).act (fun _ => pure ()) m
      rw [Action.bind, hact]
      rfl
  refine hbind.congr ?_
  change _ = (if (m.world.store.bound? scope name).isSome then define scope name v else define scope name v) m
  rw [ite_self]

theorem settles_setVisible (scope : ScopeId) (name : Bytes) {v : Value} (hv : v.Within k) :
    Settles c k (fun _ _ => True) (fun n => Course.setVisible (Task.runWithin n) scope name v)
      (setVisible scope name v) := by
  intro m hm hk
  have hrun : setVisible scope name v = (Action.asks fun m => m.world.store.owner? scope name) >>= fun o =>
      o.elim (pure false) fun owner => define owner name v >>= fun _ => pure true := by
    funext m
    simp only [setVisible, Eval.store, Action.bind_apply, Action.asks]
    cases m.world.store.owner? scope name <;> rfl
  rw [hrun]
  refine (settles_owner scope name hm).bind (fun o ho => ?_) fun _ _ => rfl
  cases o with
  | none => exact .pure hm trivial
  | some owner =>
    have hset := Settles.deed (c := c) (d := .set owner name v) hv rfl m hm hk
    have hact := Deed.act_set_of_bound (Store.bound?_owner (Except.ok.inj ho)) v
    have hok : ((Deed.set owner name v).act m).1 = .ok () := by rw [hact]; rfl
    refine .congr (hset.andThen (l := fun _ => pure true) (a := ()) hok (.pure hset.holds trivial)) ?_
    change Action.bind (define owner name v) (fun _ => pure true) m =
      Action.bind (Deed.set owner name v).act (fun _ => pure true) m
    rw [Action.bind, Action.bind, hact]
    rfl

theorem settles_answer (hcall : SettlesCalls c call) (r : HostRequest) (hr : r.Meets .within k) :
    Settles c k (fun n => r.AnswerMeets .within n) (fun n => Course.answer (Task.runWithin n) r) (answer call r) := by
  cases r with
  | call f args => exact (hcall k f args .unknown hr.1 hr.2).attempt
  | exec p scope => exact settles_exec hcall p hr
  | execSource name source => exact settles_execSource hcall name source
  | register name arity index =>
    have hcore : Settles c k (fun n core => core < n) (fun _ => Course.asks fun m => m.interpreter.core)
        (Action.asks fun m => m.interpreter.core) := .asks _ fun m hm _ => hm.wellFormed.core
    exact hcore.bind fun core n hn hlt => settles_bindHere hlt name nofun
  | define scope name v => exact settles_bindHere hr.1 name hr.2
  | set scope name v => exact settles_setVisible scope name hr.2
  | lookUp scope name => exact settles_lookUp scope name
  | core => exact .asks _ fun m hm _ => hm.wellFormed.core
  | global => exact .asks _ fun m hm _ => hm.wellFormed.global
  | newScope parent => exact Settles.deed (d := .openScope parent []) ⟨hr, List.forall_mem_nil _⟩ rfl
  | kept => exact .asks _ fun m hm _ => hm.wellFormed.memory
  | remember vs => exact Settles.deed (d := .remember vs) hr rfl

theorem settles_host (hcall : SettlesCalls c call) (action : HostAction) {k : Nat} (haction : action.Meets .within k) :
    Settles c k Value.Within (fun n => Course.host (Task.runWithin n) action) (action.run call) := by
  induction action generalizing k with
  | answer v => exact .pure fun n hn => Value.Within.mono haction hn
  | fail d => exact fun m hm _ => .fail hm d
  | ask r next ih =>
    refine (settles_answer hcall r haction.1).bind fun a n hn ha => ?_
    exact ih a (haction.2 n hn a ha)

theorem settles_builtin (hcall : SettlesCalls c call) (b : Builtin) {args : List Value} (hargs : ∀ v ∈ args, v.Within k) :
    Settles c k Value.Within (fun n => Course.builtin (Task.runWithin n) b args) (b.run call args) := by
  unfold Course.builtin Builtin.run
  cases b.routine with
  | primitive p => exact settles_primitive hcall p hargs
  | host index =>
    have hasks : Settles c k (fun n o => ∀ operation : HostOperation, o = some operation → operation.Within n)
        (fun _ => Course.asks fun m => m.world.hosts[index]?) (Action.asks fun m => m.world.hosts[index]?) :=
      .asks _ fun m hm _ operation h => hm.wellFormed.hosts operation (Array.mem_of_getElem? h)
    refine hasks.bind fun o n hn ho => ?_
    cases o with
    | none => exact .pure fun n _ => Value.within_unit n
    | some operation =>
      have hargs' : ∀ v ∈ args, v.Within n := fun v hv => (hargs v hv).mono hn
      exact settles_host hcall _ (ho operation rfl n (Nat.le_refl n) args hargs')

/-! ## Calls -/

/-- the function was declared in one of the first `n` scopes, if it is no builtin -/
def Callee.Within (n : Nat) : Callee → Prop
  | .declared f => f.scope < n
  | .builtin _ => True

theorem calleeFor_within {f : Value} {args : List Value} {callee : Callee} (hf : f.Within k)
    (h : calleeFor f args = .ok callee) : callee.Within k := by
  have hof := of?_of_calleeFor h
  cases f with
  | function f =>
    obtain rfl := Option.some.inj hof
    exact hf f rfl
  | builtin b =>
    obtain rfl := Option.some.inj hof
    trivial
  | unit | number | string | bool | range | unknown => nomatch hof

theorem bindAll_eq (scope : ScopeId) (params : List Param) (args : List Value) :
    bindAll scope params args = Deed.bindIn scope ((params.map Param.name).zip args) := by
  induction params generalizing args with
  | nil => rfl
  | cons p params ih =>
    cases args with
    | nil => rfl
    | cons v args =>
      rw [bindAll, ih]
      rfl

theorem settles_body (hcall : SettlesCalls c call) {callee : Callee} (hcallee : callee.Within k) {args : List Value}
    (hargs : ∀ v ∈ args, v.Within k) :
    Settles c k Completion.Within (fun n => Task.runWithin n (.body callee args)) (body call args callee) := by
  cases callee with
  | builtin b =>
    rw [body]
    refine .task (.body ..) ((settles_builtin hcall b hargs).bind fun v n hn hv => ?_)
    exact .pure fun i hi => Value.Within.mono hv hi
  | declared f =>
    rw [body]
    simp only [bindAll_eq]
    refine .task (.body ..) (settles_openScope hcallee ?_ fun n scope hn hscope => ?_)
    · exact fun b hb => hargs b.2 (List.of_mem_zip hb).2
    · exact settles_stmts hcall hscope f.body (Value.within_unit n)

/-- leaving a call leads back to the site of the call -/
theorem settles_leave {frame : Frame} {m : Machine} (hm : (c.inside frame).Holds m) :
    SettlesAt c (fun _ _ => True) (fun _ => (Course.deed .leave : Course Unit)) leave m := by
  have hc : c.Holds (Deed.leave.effect m) := by
    refine ⟨(Deed.leave.wellFormed_effect hm.wellFormed trivial).1, hm.limit, ?_⟩
    change m.interpreter.frames.tail = c.frames
    rw [hm.frames]
    rfl
  exact .deed hm.wellFormed trivial hc

theorem settles_settle (callee : Callee) (pos : Pos) {r : Except Diagnostic Completion} {frame : Frame} {m : Machine}
    (hm : (c.inside frame).Holds m) (hr : ∀ e, r = .ok e → e.Within m.size) :
    SettlesAt c Value.Within (fun _ => Course.settle callee pos r) (settle callee pos r) m := by
  have hleave := settles_leave hm
  have htraces : ∀ {stage : CallStage} {v : Value}, v.Within m.size → SettlesAt c Value.Within
      (fun _ => do
        Course.deed .leave
        Course.deed (.trace callee.name stage)
        Course.deed (.trace callee.name .completed)
        return v)
      (do
        leave
        trace callee.name stage
        trace callee.name .completed
        return v) m := by
    intro stage v hv
    refine hleave.andThen (a := ()) rfl ?_
    refine ((settles_trace callee.name stage).bind fun _ n hn _ => ?_) _ hleave.holds hleave.grows
    refine (settles_trace callee.name .completed).bind fun _ i hi _ => ?_
    exact .pure fun j hj => hv.mono (by omega)
  cases r with
  | error d =>
    refine (SettlesAt.look hm _).andThen (a := m.interpreter.frames) rfl ?_
    exact hleave.andThen (a := ()) rfl (.fail hleave.holds _)
  | ok e =>
    cases e with
    | normal v => exact htraces (Value.within_unit _)
    | returned v => exact htraces (hr _ rfl)

theorem settles_carryOut {callee : Callee} {pos : Pos} (hcall : SettlesCalls (c.inside ⟨callee.name, pos⟩) call)
    (hcallee : callee.Within k) {args : List Value} (hargs : ∀ v ∈ args, v.Within k) :
    Settles c k Value.Within
      (fun n => do
        Course.deed (.enter ⟨callee.name, pos⟩)
        Course.deed (.trace callee.name .bodyExecuting)
        let r ← Course.attempt (Task.runWithin n (.body callee args))
        Course.settle callee pos r)
      (carryOut call callee args pos) := by
  -- from the site of the call to the one inside, where the body runs, and back: so machine by machine, not site by site
  intro m hm hk
  have henter : SettlesAt (c.inside ⟨callee.name, pos⟩) (fun _ _ => True)
      (fun _ => (Course.deed (.enter ⟨callee.name, pos⟩) : Course Unit)) (enter ⟨callee.name, pos⟩) m := by
    refine .deed (d := .enter ⟨callee.name, pos⟩) hm.wellFormed trivial ⟨?_, hm.limit, ?_⟩
    · exact (Deed.wellFormed_effect (.enter _) hm.wellFormed trivial).1
    · exact congrArg (_ :: ·) hm.frames
  refine henter.andThen (a := ()) rfl ?_
  have htrace := settles_trace (c := c.inside ⟨callee.name, pos⟩) callee.name .bodyExecuting _ henter.holds henter.grows
  refine htrace.andThen (a := ()) rfl ?_
  have hbody := ((settles_body hcall hcallee hargs).attempt) _ htrace.holds
    (Nat.le_trans hk (Nat.le_trans henter.grows htrace.grows))
  refine hbody.andThen rfl ?_
  exact settles_settle callee pos hbody.holds (hbody.within _ rfl)

/-- when the active calls are as many as the limit, both refuse a call -/
theorem settles_refused (hfull : c.limit ≤ c.frames.length) : SettlesCalls c (applyWith none) := by
  intro k f args pos hf hargs
  rw [applyWith_eq]
  refine .task (.call ..) ?_
  simp only [Task.expand, Course.call]
  cases calleeFor f args with
  | error fault => exact .failAt pos fault
  | ok callee =>
    intro m hm hk
    rw [← hm.limit, ← hm.frames] at hfull
    have hlook := SettlesAt.look hm fun m => m.interpreter
    refine .congr (hlook.andThen (l := fun i => Action.failAt pos (.callDepth i.limit)) rfl ?_) rfl
    simp only [if_pos hfull]
    exact .failAt hm pos _

/-- when they are fewer, both carry it out -/
theorem settles_admitted (hfree : c.frames.length < c.limit) (hcall : ∀ frame, SettlesCalls (c.inside frame) call) :
    SettlesCalls c (applyWith (some call)) := by
  intro k f args pos hf hargs
  rw [applyWith_eq]
  refine .task (.call ..) ?_
  simp only [Task.expand, Course.call]
  cases hcallee : calleeFor f args with
  | error fault => exact .failAt pos fault
  | ok callee =>
    intro m hm hk
    have hlimit : ¬m.interpreter.limit ≤ m.interpreter.frames.length := by
      rw [hm.limit, hm.frames]
      exact Int.not_le.mpr hfree
    have hlook := SettlesAt.look hm fun m => m.interpreter
    refine .congr (hlook.andThen (l := fun _ => carryOut call callee args pos) rfl ?_) rfl
    simp only [if_neg hlimit]
    exact settles_carryOut (hcall _) (calleeFor_within hf hcallee) hargs m hm hk

/-- **Calls end.** The induction is on the room for nested calls: inside a call there is less of it. -/
theorem settles_applyWithin (room : Nat) (c : Site) (hroom : (c.limit - c.frames.length).toNat = room) :
    SettlesCalls c (applyWithin room) := by
  induction room generalizing c with
  | zero => exact settles_refused (by omega)
  | succ room ih =>
    refine settles_admitted (by omega) fun frame => ih _ ?_
    simp only [Site.inside, List.length_cons]
    omega

theorem settles_apply (c : Site) : SettlesCalls c apply := by
  intro k f args pos hf hargs m hm hk
  have hroom : apply f args pos m = applyWithin (c.limit - c.frames.length).toNat f args pos m := by
    change applyWithin (room m.interpreter) f args pos m = _
    rw [room, hm.limit, hm.frames]
  exact (settles_applyWithin _ c rfl k f args pos hf hargs m hm hk).congr hroom

end Eval

/-! ## Operations of a host -/

namespace Operation

open Eval

/-- the scope and the values that the operation is told refer to scopes that are there -/
def Fits (n : Nat) : Operation → Prop
  | .exec _ scope => ∀ s, scope = some s → s < n
  | .execSource .. => True
  | .call f args => f.Within n ∧ ∀ v ∈ args, v.Within n

/-- the operation as a step -/
def step : Operation → Eval Outcome
  | .exec p scope => Eval.exec apply p scope
  | .execSource name source => Eval.execSource apply name source
  | .call f args => do return outcome (← Action.attempt (apply f args .unknown))

theorem settles_step (op : Operation) {c : Site} {k : Nat} (hop : op.Fits k) :
    Settles c k (fun _ _ => True) (fun n => op.runWithin n) op.step := by
  cases op with
  | exec p scope =>
    have hexec := settles_exec (settles_apply c) p hop
    exact fun m hm hk => ⟨(hexec m hm hk).ends, (hexec m hm hk).holds, (hexec m hm hk).grows, fun _ _ => trivial⟩
  | execSource name source =>
    have hexec := settles_execSource (k := k) (settles_apply c) name source
    exact fun m hm hk => ⟨(hexec m hm hk).ends, (hexec m hm hk).holds, (hexec m hm hk).grows, fun _ _ => trivial⟩
  | call f args =>
    have hcall := (settles_apply c k f args .unknown hop.1 hop.2).attempt
    exact hcall.bind fun r n hn _ => .pure fun _ _ => trivial

/-- an operation tells what is wrong, and does not fail -/
theorem step_ok (op : Operation) (m : Machine) : ∃ o, (op.step m).1 = .ok o := by
  cases op with
  | exec p scope => exact exec_ok apply p scope m
  | execSource name source => exact execSource_ok apply name source m
  | call f args => exact ⟨_, rfl⟩

theorem step_apply (op : Operation) (m : Machine) : op.step m = (.ok (op.perform m).1, (op.perform m).2) := by
  have hperform : op.perform m = m.step op.step := by cases op <;> rfl
  obtain ⟨o, ho⟩ := op.step_ok m
  rw [hperform, Machine.step]
  rcases h : op.step m with ⟨_, m'⟩
  rw [h] at ho
  subst ho
  rfl

/-- **Every run ends.** From a well-formed machine, with whatever limit on nested calls, an operation needs only so much
effort, and with this or more the evaluation with bounded effort gives what the operation gives, by deeds that make
of the machine what the operation makes of it; and the machine is well-formed again. -/
theorem exists_effort (op : Operation) {m : Machine} (hm : m.WellFormed) (hop : op.Fits m.size) :
    ∃ N deeds, (∀ n, N ≤ n → op.runWithin n m = some (.ok (op.perform m).1, deeds)) ∧
      performAll deeds m = (op.perform m).2 ∧ (op.perform m).2.WellFormed := by
  have h := settles_step op hop (c := ⟨m.interpreter.limit, m.interpreter.frames⟩) m ⟨hm, rfl, rfl⟩ (Nat.le_refl _)
  obtain ⟨N, deeds, hends, hdeeds, -⟩ := h.ends
  have hwell := h.holds.wellFormed
  rw [op.step_apply m] at hends hdeeds hwell
  exact ⟨N, deeds, hends, hdeeds, hwell⟩

/-- a program with a handler that triggers the event that it handles -/
def echo : Program where
  stmts := [
    .fnDecl .unknown ⟨text "again", [], none, false, false⟩ .unknown [.expr .unknown trigger],
    .expr .unknown (.call .unknown (.ident .unknown (text "register_event"))
      [.string .unknown (text "tick"), .ident .unknown (text "again")]),
    .expr .unknown trigger]
  errors := []
where
  trigger : Expr := .call .unknown (.ident .unknown (text "trigger_event")) [.string .unknown (text "tick")]

theorem exists_effort_echo :
    (Machine.start .fresh 3).WellFormed ∧ (exec echo none).Fits (Machine.start .fresh 3).size ∧
    (∃ d, ((exec echo none).perform (Machine.start .fresh 3)).1 = .error [d] ∧ d.fault = .callDepth 3) ∧
    ∃ N deeds,
      (∀ n, N ≤ n → (exec echo none).runWithin n (Machine.start .fresh 3) =
        some (.ok ((exec echo none).perform (Machine.start .fresh 3)).1, deeds)) ∧
      performAll deeds (Machine.start .fresh 3) = ((exec echo none).perform (Machine.start .fresh 3)).2 ∧
      ((exec echo none).perform (Machine.start .fresh 3)).2.WellFormed :=
  ⟨Machine.wellFormed_start 3, nofun, ⟨_, rfl, rfl⟩, exists_effort (exec echo none) (Machine.wellFormed_start 3) nofun⟩

end Operation

end Ouroboros
