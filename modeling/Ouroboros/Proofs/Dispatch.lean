/-
Events and the handlers that were registered for them.

The handlers that an interpreter keeps for an event are those that were registered for it, in the order of the
registrations: a run adds to them exactly the registrations that it completes, at every moment of it
(`handlersOf_performAll`). `Machine.Session` tells the machines to which a host comes together with what was registered on
the way, and nothing that fails takes a registration back.

A trigger reads the handlers once, when it starts, and calls these one after the other, up to the first that fails
(`Dispatched`). What the handlers register, and what they trigger themselves, does not change which handlers this trigger
calls. `Operation.dispatch_follows_history` says this of every trigger at every moment of a session.
-/
import Ouroboros.Proofs.Isolation.Schedules

namespace Ouroboros

open Primitive (handlersOf addHandler)

/-! ## Registrations -/

/-- the registration that a deed completes: an event and a handler -/
def Deed.registration? : Deed → Machine → Option (Bytes × Value)
  | .builtin .registerEvent [.string event, h], m =>
    if (Primitive.registerEvent.run Deed.idle [.string event, h] m).1.isOk then some (event, h) else none
  | _, _ => none

/-- the registrations that deeds complete, in order -/
def registrations : List Deed → Machine → List (Bytes × Value)
  | [], _ => []
  | d :: deeds, m => (d.registration? m).toList ++ registrations deeds (d.effect m)

theorem registrations_append (deeds deeds' : List Deed) (m : Machine) :
    registrations (deeds ++ deeds') m = registrations deeds m ++ registrations deeds' (performAll deeds m) := by
  induction deeds generalizing m with
  | nil => rfl
  | cons d deeds ih => rw [List.cons_append, registrations, registrations, ih, List.append_assoc, performAll_cons]

/-- the handlers that were registered for an event, in order -/
def registered (past : List (Bytes × Value)) (event : Bytes) : List Value :=
  (past.filter (·.1 = event)).map Prod.snd

theorem registered_append (past more : List (Bytes × Value)) (event : Bytes) :
    registered (past ++ more) event = registered past event ++ registered more event := by
  rw [registered, List.filter_append, List.map_append]
  rfl

theorem lookup_cons_getD (other first : Bytes) (hs : List Value) (rest : List (Bytes × List Value)) :
    (((first, hs) :: rest).lookup other).getD [] = if first = other then hs else (rest.lookup other).getD [] := by
  by_cases h : first = other
  · rw [if_pos h, h, List.lookup_cons_self, Option.getD_some]
  · rw [if_neg h, List.lookup_cons, beq_false_of_ne (Ne.symm h)]

/-- one more handler comes behind those of its event, and those of other events stay -/
theorem lookup_addHandler (event other : Bytes) (h : Value) (handlers : List (Bytes × List Value)) :
    ((addHandler event h handlers).lookup other).getD [] =
      (handlers.lookup other).getD [] ++ registered [(event, h)] other := by
  have hregistered : registered [(event, h)] other = if event = other then [h] else [] := by
    by_cases hother : event = other <;> simp [registered, hother]
  rw [hregistered]
  induction handlers with
  | nil =>
    rw [addHandler, lookup_cons_getD]
    rfl
  | cons e rest ih =>
    obtain ⟨first, hs⟩ := e
    by_cases hfirst : first = event
    · rw [addHandler, if_pos hfirst, lookup_cons_getD, lookup_cons_getD, ← hfirst]
      by_cases hother : first = other
      · simp only [if_pos hother]
      · simp only [if_neg hother, List.append_nil]
    · rw [addHandler, if_neg hfirst, lookup_cons_getD, lookup_cons_getD, ih]
      by_cases hother : first = other
      · rw [if_pos hother, if_pos hother, if_neg (fun h => hfirst (hother.trans h.symm)), List.append_nil]
      · rw [if_neg hother, if_neg hother]

/-- a builtin other than `register_event` registers nothing -/
theorem handlers_builtin {p : Primitive} (hp : p ≠ .registerEvent) (args : List Value) (m : Machine) :
    (p.run Deed.idle args m).2.interpreter.handlers = m.interpreter.handlers := by
  by_cases hspawn : p ≠ .spawn
  · rw [(Primitive.quiet_run hspawn hp args m).2.1]
  cases p.given args with
  | wrong harity hargs =>
    rw [Primitive.run_of_length_ne harity hargs]
    rfl
  | spawn v =>
    rcases Primitive.run_spawn v with ⟨e, he⟩ | he
    · rw [he]
      rfl
    · obtain ⟨-, hinterpreter, -⟩ := Primitive.spawn_apply v m
      have hhandlers := congrArg Interpreter.handlers hinterpreter
      rw [he, Action.bind_apply]
      rcases hm : Eval.spawn v m with ⟨e | a, m'⟩ <;> rw [hm] at hhandlers <;> exact hhandlers
  | _ => exact absurd nofun hspawn

/-- `register_event` refuses and changes nothing, or adds a handler -/
theorem registerEvent_apply (name : Bytes) (h : Value) (m : Machine) :
    let ran := Primitive.registerEvent.run Deed.idle [.string name, h] m
    (ran.1.isOk = false ∧ ran.2.interpreter = m.interpreter) ∨
      (ran.1.isOk = true ∧ ran.2.interpreter.handlers = addHandler name h m.interpreter.handlers) := by
  by_cases hf : h.isFunction = true
  · right
    let added : Machine :=
      { m with interpreter := { m.interpreter with handlers := addHandler name h m.interpreter.handlers } }
    obtain ⟨-, hinterpreter, -⟩ := Eval.quiet_log (fun m => ⟨text "event registered",
      [(text "event", name), (text "handlers", Bytes.ofNat (handlersOf m.interpreter name).length)]⟩) added
    simp only [Primitive.run, Primitive.stringArg, Primitive.functionArg, hf, if_true]
    exact ⟨rfl, congrArg Interpreter.handlers hinterpreter⟩
  · left
    simp only [Primitive.run, Primitive.stringArg, Primitive.functionArg, hf]
    exact ⟨rfl, rfl⟩

/-- `register_event` registers when it is told an event and a function, and otherwise does nothing -/
theorem handlersOf_registerEvent (args : List Value) (m : Machine) (event : Bytes) :
    handlersOf (Primitive.registerEvent.run Deed.idle args m).2.interpreter event =
      handlersOf m.interpreter event ++ registered ((Deed.builtin .registerEvent args).registration? m).toList event := by
  cases Primitive.registerEvent.given args with
  | registerEvent name h =>
    cases name with
    | string name =>
      rcases registerEvent_apply name h m with ⟨hok, hinterpreter⟩ | ⟨hok, hhandlers⟩
      · rw [hinterpreter, Deed.registration?, if_neg (by rw [hok]; exact Bool.false_ne_true)]
        exact (List.append_nil _).symm
      · rw [Deed.registration?, if_pos hok, handlersOf, hhandlers]
        exact lookup_addHandler name event h m.interpreter.handlers
    | unit | number | bool | function | builtin | range | unknown => exact (List.append_nil _).symm
  | wrong harity hargs =>
    rw [Primitive.run_of_length_ne harity hargs, Deed.registration?]
    · exact (List.append_nil _).symm
    · rintro event h ⟨⟩
      cases harity
      exact hargs rfl

theorem handlersOf_builtin (p : Primitive) (args : List Value) (m : Machine) (event : Bytes) :
    handlersOf (p.run Deed.idle args m).2.interpreter event =
      handlersOf m.interpreter event ++ registered ((Deed.builtin p args).registration? m).toList event := by
  by_cases hp : p = .registerEvent
  · subst hp
    exact handlersOf_registerEvent args m event
  · rw [handlersOf, handlers_builtin hp, Deed.registration?]
    · exact (List.append_nil _).symm
    · rintro event h ⟨⟩
      exact hp rfl

theorem handlersOf_effect (d : Deed) (m : Machine) (event : Bytes) :
    handlersOf (d.effect m).interpreter event =
      handlersOf m.interpreter event ++ registered (d.registration? m).toList event := by
  have hother : (d.effect m).interpreter.handlers = m.interpreter.handlers → d.registration? m = none →
      handlersOf (d.effect m).interpreter event =
        handlersOf m.interpreter event ++ registered (d.registration? m).toList event := by
    intro hhandlers hnone
    simp only [handlersOf, hhandlers, hnone]
    exact (List.append_nil _).symm
  cases d with
  | builtin p args => exact handlersOf_builtin p args m event
  | openScope parent bindings =>
    refine hother ?_ rfl
    rw [Deed.effect, Deed.act_openScope]
    rfl
  | declare scope d =>
    refine hother ?_ rfl
    rw [Deed.effect, Deed.act_declare]
    split <;> rfl
  | set | enter | leave | moveGlobal | remember => exact hother rfl rfl
  | trace function stage => exact hother (congrArg _ (Eval.quiet_trace function stage m).2.1) rfl
  | note entry => exact hother (congrArg _ (Eval.quiet_log (fun _ => entry) m).2.1) rfl

/-- **A run adds the handlers that it registers**, at every moment of it. -/
theorem handlersOf_performAll (deeds : List Deed) (m : Machine) (event : Bytes) :
    handlersOf (performAll deeds m).interpreter event =
      handlersOf m.interpreter event ++ registered (registrations deeds m) event := by
  induction deeds generalizing m with
  | nil => exact (List.append_nil _).symm
  | cons d deeds ih =>
    rw [performAll_cons, ih, handlersOf_effect, registrations, registered_append, List.append_assoc]

/-! ## Sessions -/

namespace Machine

/-- the machines to which a host comes with an interpreter, and what was registered on the way: it runs programs and source
texts, calls functions, adds builtins, lets spawned work run and closes. The interpreter is new at the start, that of a
session or of a piece of spawned work, in whatever world. -/
inductive Session : List (Bytes × Value) → Machine → Prop where
  | start {m : Machine} (hm : m.Stocked) (hnew : m.interpreter.handlers = []) : Session [] m
  | operation {past : List (Bytes × Value)} {m : Machine} {op : Operation} {deeds : List Deed} (h : Session past m)
    (hop : op.Fits m.size) (does : op.Does m deeds) : Session (past ++ registrations deeds m) (op.perform m).2
  | register {past : List (Bytes × Value)} {m : Machine} (h : Session past m) (name : Bytes) (arity : Option Nat)
    {operation : HostOperation} (hoperation : operation.Within m.size) : Session past (m.register name arity operation)
  | work {past : List (Bytes × Value)} {m : Machine} {before behind : List Job} {job : Job} (h : Session past m)
    (hjobs : m.world.jobs = before ++ job :: behind) : Session past ((m.withJobs (before ++ behind)).runJob job)
  | close {past : List (Bytes × Value)} {m : Machine} (h : Session past m) (ends : m.Ends) : Session past m.close

variable {past : List (Bytes × Value)} {m : Machine}

theorem Stocked.register (hm : m.Stocked) (name : Bytes) (arity : Option Nat) {operation : HostOperation}
    (hoperation : operation.Within m.size) : (m.register name arity operation).Stocked := by
  have hsize : (m.register name arity operation).size = m.size := Snapshot.size_define ..
  refine ⟨hm.toWellFormed.register name arity hoperation, ?_⟩
  rw [hsize]
  exact hm.jobs

theorem Stocked.drain (hm : m.Stocked) (hends : m.Ends) : m.drain.Stocked := by
  refine hends.drain_induction (fun m job rest hjobs hm => ?_) hm
  have hfront : m.world.jobs = [] ++ job :: rest := hjobs
  exact (hm.run hfront).2.2.2

theorem Stocked.close (hm : m.Stocked) (hends : m.Ends) : m.close.Stocked := by
  rw [Machine.close]
  split
  · exact hm
  · have hidle := hm.drain hends
    exact ⟨hidle.toWellFormed.of_same rfl rfl ⟨rfl, rfl, rfl⟩, hidle.jobs⟩

theorem interpreter_close (hends : m.Ends) : m.close.interpreter = m.interpreter := by
  have hidle := hends.drain_induction (Q := fun m' => m'.interpreter = m.interpreter) (fun _ _ _ _ h => h) rfl
  rw [close]
  split
  · rfl
  · exact hidle

theorem Session.stocked (h : Session past m) : m.Stocked := by
  induction h with
  | start hm => exact hm
  | operation _ hop _ ih => exact ih.answer hop
  | register _ name arity hoperation ih => exact ih.register name arity hoperation
  | work _ hjobs ih => exact (ih.run hjobs).2.2.2
  | close _ ends ih => exact ih.close ends

/-- **The handlers are those of the history.** -/
theorem Session.handlersOf_eq (h : Session past m) (event : Bytes) :
    handlersOf m.interpreter event = registered past event := by
  induction h with
  | start _ hnew =>
    rw [handlersOf, hnew]
    rfl
  | operation h hop does ih =>
    rw [← (does.spec h.stocked.toWellFormed hop).1, handlersOf_performAll, ih, registered_append]
  | register _ name arity hoperation ih => exact ih
  | work _ hjobs ih => exact ih
  | close _ ends ih => rw [interpreter_close ends, ih]

end Machine

/-! ## Triggers -/

/-- calling handlers one after the other, each without arguments, up to the first that fails: how it ends, and on which
machine -/
inductive Dispatched : List Value → Machine → Except Diagnostic Unit → Machine → Prop where
  | done (m : Machine) : Dispatched [] m (.ok ()) m
  | next {h v : Value} {rest : List Value} {m m₁ m' : Machine} {r : Except Diagnostic Unit}
    (runs : Eval.apply h [] .unknown m = (.ok v, m₁)) (others : Dispatched rest m₁ r m') : Dispatched (h :: rest) m r m'
  | failed {h : Value} {rest : List Value} {m m' : Machine} {d : Diagnostic}
    (fails : Eval.apply h [] .unknown m = (.error d, m')) : Dispatched (h :: rest) m (.error d) m'

/-- what a trigger of an event at a place is to give, for the handlers that it calls: a trigger that comes when no more
calls may be nested is refused, and otherwise the handlers are called inside it. When all succeed it gives their number, and
otherwise it fails as the first of them does that fails, at its own place when that failure has none. -/
def Triggers (hs : List Value) (event : Bytes) (pos : Pos) (m : Machine) : Prop :=
  let frame : Frame := ⟨Primitive.triggerEvent.name, pos⟩
  let triggered := Eval.apply (.builtin Primitive.triggerEvent.builtin) [.string event] pos m
  if m.interpreter.limit ≤ m.interpreter.frames.length then
    triggered = Action.failAt pos (.callDepth m.interpreter.limit) m
  else ∃ r m', Dispatched hs (m.inside frame.name pos) r m' ∧
    triggered.1 = (match r with
      | .ok _ => .ok (.number (Number.ofInt hs.length))
      | .error d => .error (Eval.annotate pos (frame :: m.interpreter.frames) d)) ∧
    triggered.2.interpreter = { m'.interpreter with frames := m.interpreter.frames }

namespace Eval

variable {c : Site} {m : Machine}

/-- handlers are called on machines at the same site, so with the same room for nested calls -/
theorem dispatched_callAll {n : Nat} (hn : (c.limit - c.frames.length).toNat = n) (hs : List Value) (hm : c.Holds m)
    (hhs : ∀ h ∈ hs, h.Within m.size) :
    Dispatched hs m (Primitive.callAll (applyWithin n) hs m).1 (Primitive.callAll (applyWithin n) hs m).2 ∧
      c.Holds (Primitive.callAll (applyWithin n) hs m).2 := by
  induction hs generalizing m with
  | nil => exact ⟨.done m, hm⟩
  | cons h rest ih =>
    rw [List.forall_mem_cons] at hhs
    have happly : apply h [] .unknown m = applyWithin n h [] .unknown m := by
      change applyWithin (room m.interpreter) h [] .unknown m = _
      rw [room, hm.limit, hm.frames, hn]
    have hcall := settles_applyWithin n c hn m.size h [] .unknown hhs.1 (List.forall_mem_nil _) m hm (Nat.le_refl _)
    have hholds := hcall.holds
    have hgrows := hcall.grows
    simp only [Primitive.callAll, Action.bind_apply]
    rcases hrun : applyWithin n h [] .unknown m with ⟨d | v, m₁⟩ <;> rw [hrun] at happly hholds hgrows
    · exact ⟨.failed happly, hholds⟩
    · obtain ⟨hrest, hend⟩ := ih hholds fun f hf => (hhs.2 f hf).mono hgrows
      exact ⟨.next happly hrest, hend⟩

/-- what a trigger does: it reads the handlers and calls them -/
theorem body_triggerEvent (call : Call) (event : Bytes) (m : Machine) :
    body call [.string event] (.builtin Primitive.triggerEvent.builtin) m =
      match Primitive.callAll call (handlersOf m.interpreter event) m with
      | (.ok _, m') => (.ok (.returned (.number (Number.ofInt (handlersOf m.interpreter event).length))), m')
      | (.error d, m') => (.error d, m') := by
  have hrun : Primitive.triggerEvent.builtin.run call [.string event] = Primitive.triggerEvent.run call [.string event] := rfl
  simp only [body, hrun, Primitive.run, Primitive.stringArg, Action.bind_apply, Action.pure_apply, Action.asks]
  rcases Primitive.callAll call (handlersOf m.interpreter event) m with ⟨d | u, m'⟩ <;> rfl

/-- entering a call leads to the site inside it -/
theorem holds_inside (hm : c.Holds m) (name : Bytes) (pos : Pos) :
    (c.inside ⟨name, pos⟩).Holds (m.inside name pos) ∧ (m.inside name pos).size = m.size ∧
      (m.inside name pos).interpreter.handlers = m.interpreter.handlers := by
  have hwell : (performAll [.enter ⟨name, pos⟩, .trace name .bodyExecuting] m).WellFormed :=
    Deed.wellFormed_performAll hm.wellFormed ⟨trivial, trivial, trivial⟩
  obtain ⟨hstore, hinterpreter, -⟩ := quiet_trace name .bodyExecuting (enter ⟨name, pos⟩ m).2
  have hsame : (m.inside name pos).interpreter = { m.interpreter with frames := ⟨name, pos⟩ :: m.interpreter.frames } :=
    hinterpreter
  refine ⟨⟨hwell, ?_, ?_⟩, congrArg (fun s => s.scopes.size) hstore, ?_⟩
  · rw [hsame]
    exact hm.limit
  · rw [hsame]
    exact congrArg (_ :: ·) hm.frames
  · rw [hsame]

/-- what is left of the interpreter when a call is left -/
theorem interpreter_settle (callee : Callee) (pos : Pos) (r : Except Diagnostic Completion) (m : Machine) :
    (settle callee pos r m).2.interpreter = { m.interpreter with frames := m.interpreter.frames.tail } := by
  have hleave : (leave m).2.interpreter = { m.interpreter with frames := m.interpreter.frames.tail } := rfl
  cases r with
  | error d => exact hleave
  | ok e =>
    obtain ⟨v, hsettle⟩ := settle_ok_eq callee pos e
    obtain ⟨-, hinterpreter, -⟩ := ((quiet_trace callee.name e.stage).andThen fun _ =>
      (quiet_trace callee.name .completed).andThen fun _ => Quiet.pure (a := v) (V := fun _ => True) trivial) (leave m).2
    rw [hsettle, ← hleave]
    exact hinterpreter

/-- a trigger that is admitted -/
theorem triggers_carryOut (hm : m.WellFormed) {n : Nat}
    (hn : (m.interpreter.limit - m.interpreter.frames.length).toNat = n + 1) (event : Bytes) (pos : Pos) :
    let frame : Frame := ⟨Primitive.triggerEvent.name, pos⟩
    let hs := handlersOf m.interpreter event
    let triggered := carryOut (applyWithin n) (.builtin Primitive.triggerEvent.builtin) [.string event] pos m
    ∃ r m', Dispatched hs (m.inside frame.name pos) r m' ∧
      triggered.1 = (match r with
        | .ok _ => .ok (.number (Number.ofInt hs.length))
        | .error d => .error (annotate pos (frame :: m.interpreter.frames) d)) ∧
      triggered.2.interpreter = { m'.interpreter with frames := m.interpreter.frames } := by
  intro frame hs triggered
  -- the handlers are read inside the call, where they are those of `m`
  obtain ⟨hinside, hsize, hhandlers⟩ := holds_inside hm.holds frame.name pos
  have hsame : handlersOf (m.inside frame.name pos).interpreter event = hs := by
    rw [handlersOf, hhandlers]
    rfl
  have hwithin : ∀ h ∈ hs, h.Within (m.inside frame.name pos).size := by
    rw [hsize]
    exact hm.handlersOf event
  obtain ⟨hdispatched, hend⟩ := dispatched_callAll (n := n) (by simp only [Site.inside, List.length_cons]; omega) hs hinside
    hwithin
  have hbody := body_triggerEvent (applyWithin n) event (m.inside frame.name pos)
  have hcarried : triggered = Eval.settle (.builtin Primitive.triggerEvent.builtin) pos
        (body (applyWithin n) [.string event] (.builtin Primitive.triggerEvent.builtin) (m.inside frame.name pos)).1
        (body (applyWithin n) [.string event] (.builtin Primitive.triggerEvent.builtin) (m.inside frame.name pos)).2 := rfl
  rw [hsame] at hbody
  rw [hcarried, hbody]
  refine ⟨_, _, hdispatched, ?_⟩
  rcases hall : Primitive.callAll (applyWithin n) hs (m.inside frame.name pos) with ⟨d | u, m₂⟩ <;> rw [hall] at hend
  · have hframes : m₂.interpreter.frames = frame :: m.interpreter.frames := hend.frames
    dsimp only
    rw [interpreter_settle, hframes]
    exact ⟨hframes ▸ rfl, rfl⟩
  · have hframes : m₂.interpreter.frames = frame :: m.interpreter.frames := hend.frames
    dsimp only
    rw [interpreter_settle, hframes]
    exact ⟨rfl, rfl⟩

/-- **A trigger calls the handlers that are registered when it starts.** -/
theorem triggers_handlersOf (hm : m.WellFormed) (event : Bytes) (pos : Pos) :
    Triggers (handlersOf m.interpreter event) event pos m := by
  have hroom : apply (.builtin Primitive.triggerEvent.builtin) [.string event] pos m =
      applyWithin (m.interpreter.limit - m.interpreter.frames.length).toNat (.builtin Primitive.triggerEvent.builtin)
        [.string event] pos m := rfl
  unfold Triggers
  rw [hroom]
  split
  · rw [Int.toNat_eq_zero.mpr (by omega)]
    rfl
  · obtain ⟨n, hn⟩ : ∃ n, (m.interpreter.limit - m.interpreter.frames.length).toNat = n + 1 :=
      ⟨(m.interpreter.limit - m.interpreter.frames.length).toNat - 1, by omega⟩
    rw [hn, applyWithin, applyWith_eq]
    exact triggers_carryOut hm hn event pos

end Eval

namespace Operation

open Machine

/-- **Events are dispatched as they were registered.** A host comes to a machine, and an operation is carried out there; it
comes to its end by deeds. At every moment of it, that is after every first part of the deeds, the handlers of each event
are those of all registrations that were completed up to then, in this session and in this operation, in order and once for
each; and a trigger calls just these (`Triggers`), whatever they register or trigger. Afterwards the session goes on with
what the operation has registered, whether it failed or not. -/
theorem dispatch_follows_history {past : List (Bytes × Value)} {m : Machine} (h : m.Session past) (op : Operation)
    (hop : op.Fits m.size) : ∃ deeds, op.Does m deeds ∧ performAll deeds m = (op.perform m).2 ∧
      (op.perform m).2.Session (past ++ registrations deeds m) ∧
      ∀ before behind, deeds = before ++ behind →
        let now := performAll before m
        let done := past ++ registrations before m
        done <+: past ++ registrations deeds m ∧
        ∀ event, handlersOf now.interpreter event = registered done event ∧
          ∀ pos, Triggers (registered done event) event pos now := by
  have hm := h.stocked.toWellFormed
  obtain ⟨deeds, does⟩ := exists_does hm hop
  obtain ⟨hdeeds, hfit⟩ := does.spec hm hop
  refine ⟨deeds, does, hdeeds, .operation h hop does, ?_⟩
  rintro before behind rfl now done
  rw [Deed.allFit_append] at hfit
  have hnow := Deed.wellFormed_performAll hm hfit.1
  refine ⟨?_, fun event => ?_⟩
  · rw [registrations_append, ← List.append_assoc]
    exact List.prefix_append _ _
  · have hhandlers : handlersOf now.interpreter event = registered done event := by
      rw [handlersOf_performAll, h.handlersOf_eq, registered_append]
    exact ⟨hhandlers, fun pos => hhandlers ▸ Eval.triggers_handlersOf hnow event pos⟩

/-- two functions without parameters: `first` registers `second` for the event, and `second` fails -/
def growing : Program where
  stmts := [
    .fnDecl .unknown ⟨text "second", [], none, false, false⟩ .unknown
      [.expr .unknown (.binary .unknown .div (.number .unknown 1 true []) (.number .unknown 0 true []))],
    .fnDecl .unknown ⟨text "first", [], none, false, false⟩ .unknown [.expr .unknown (register (text "second"))],
    .expr .unknown (register (text "first")),
    .expr .unknown trigger]
  errors := []
where
  register (handler : Bytes) : Expr := .call .unknown (.ident .unknown (text "register_event"))
    [.string .unknown (text "tick"), .ident .unknown handler]
  trigger : Expr := .call .unknown (.ident .unknown (text "trigger_event")) [.string .unknown (text "tick")]

/-- a machine on which it has run -/
def ticking : Machine := ((exec growing none).perform (Machine.start .fresh 10)).2

/-- the trigger in the program calls one handler, which registers another; now there are two, and the next trigger fails as
the second of them does -/
theorem dispatch_follows_history_growing : ∃ past, ticking.Session past ∧
    (exec growing none).Fits ticking.size ∧
    (registered past (text "tick")).map Value.callName = [text "first", text "second"] ∧
    Triggers (registered past (text "tick")) (text "tick") .unknown ticking ∧
    (∃ d, (Eval.apply (.builtin Primitive.triggerEvent.builtin) [.string (text "tick")] .unknown ticking).1 = .error d ∧
      d.fault = .divisionByZero) := by
  have hstart : (Machine.start .fresh 10).Session [] :=
    .start ⟨Machine.wellFormed_start 10, fun job hjob => absurd hjob List.not_mem_nil⟩ rfl
  obtain ⟨deeds, -, -, hgrown, -⟩ := dispatch_follows_history hstart (exec growing none) nofun
  obtain ⟨deeds', -, -, -, hmoments⟩ := dispatch_follows_history hgrown (exec growing none) nofun
  obtain ⟨-, hevents⟩ := hmoments [] deeds' rfl
  rw [registrations, List.append_nil] at hevents
  obtain ⟨hhandlers, htriggers⟩ := hevents (text "tick")
  refine ⟨_, hgrown, nofun, ?_, htriggers .unknown, ?_⟩
  · rw [← hhandlers]
    decide +kernel
  · exact ⟨_, rfl, rfl⟩

end Operation

end Ouroboros
