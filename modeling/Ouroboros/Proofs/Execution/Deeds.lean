/-
Deeds: the changes of a machine that evaluation is made of.

Evaluation changes a machine only by deeds: it opens a scope with the parameters of a call or the variable of a round in
it, declares, gives a binding a new value, enters and leaves calls, lets a builtin do its work, and writes the debug log.
`Deed.act` says what each of them does and gives. Whatever a run has done is a list of deeds, and what it made of the
machine is what these deeds make of it (`performAll`).

For scopes that are there already a deed does little: the scope around a scope stays, and a scope binds a name afterwards
exactly when it did before, or when the deed declares the name in this very scope (`Deed.preserves_effect`).
`performAll_preserves` says the same of any number of deeds. Builtins, apart from the calls that they make, do one of
three things to a machine (`Primitive.run_idle`).
-/
import Mathlib.Data.List.Basic
import Ouroboros.Proofs.Calls
import Ouroboros.Proofs.Scopes
import Ouroboros.Session

namespace Ouroboros

/-- what a statement declares: a name with a value, or a function -/
inductive Declaration where
  | value (name : Bytes) (v : Value)
  | function (sig : Signature) (body : List Stmt)

namespace Declaration

/-- the name -/
def name : Declaration → Bytes
  | .value name _ => name
  | .function sig _ => sig.name

/-- what the name is bound to, in the scope that holds the binding -/
def bound : Declaration → ScopeId → Value
  | .value _ v, _ => v
  | .function sig body, scope => .function ⟨sig, body, scope⟩

end Declaration

/-- a change of a machine -/
inductive Deed where
  /-- opens a scope inside another, with bindings in it -/
  | openScope (parent : ScopeId) (bindings : List (Bytes × Value))
  /-- declares in a scope, as a list of statements does that runs in it -/
  | declare (scope : ScopeId) (d : Declaration)
  /-- gives the binding that a scope holds a new value -/
  | set (owner : ScopeId) (name : Bytes) (v : Value)
  | enter (frame : Frame)
  | leave
  | trace (function : Bytes) (stage : Eval.CallStage)
  /-- what a builtin does apart from the calls that it makes -/
  | builtin (p : Primitive) (args : List Value)
  /-- makes a scope the global one -/
  | moveGlobal (scope : ScopeId)
  /-- adds a line to the debug log, if one is kept -/
  | note (entry : LogEntry)
  /-- replaces the values that the host keeps -/
  | remember (vs : List Value)

namespace Deed

open Eval

/-- what a deed gives -/
def Answer : Deed → Type
  | .openScope .. | .declare .. => ScopeId
  | .builtin .. => Value
  | .set .. | .enter .. | .leave | .trace .. | .moveGlobal .. | .note .. | .remember .. => Unit

/-- calls that do nothing -/
def idle : Call := fun _ _ _ => return .unit

/-- binds names in a scope, one after the other -/
def bindIn (scope : ScopeId) : List (Bytes × Value) → Eval Unit
  | [] => return
  | b :: rest => do
    define scope b.1 b.2
    bindIn scope rest

/-- does the deed -/
def act : (d : Deed) → Eval d.Answer
  | .openScope parent bindings => do
    let scope ← newScope parent
    bindIn scope bindings
    return scope
  | .declare scope d => Eval.declare scope d.name d.bound
  | .set owner name v => changeStore fun s => if (s.bound? owner name).isSome then s.define owner name v else s
  | .enter frame => Eval.enter frame
  | .leave => Eval.leave
  | .trace function stage => Eval.trace function stage
  | .builtin p args => p.run idle args
  | .moveGlobal scope => Eval.moveGlobal scope
  | .note entry => log fun _ => entry
  | .remember vs => changeWorld fun w => { w with memory := vs }

/-- the machine after the deed -/
def effect (d : Deed) (m : Machine) : Machine := (d.act m).2

end Deed

/-- the machine after deeds, one after the other -/
def performAll (deeds : List Deed) (m : Machine) : Machine := deeds.foldl (fun m d => d.effect m) m

@[simp] theorem performAll_nil (m : Machine) : performAll [] m = m := rfl

@[simp] theorem performAll_cons (d : Deed) (deeds : List Deed) (m : Machine) :
    performAll (d :: deeds) m = performAll deeds (d.effect m) := rfl

theorem performAll_append (deeds deeds' : List Deed) (m : Machine) :
    performAll (deeds ++ deeds') m = performAll deeds' (performAll deeds m) := List.foldl_append

/-! ## Builtins -/

/-- a value that is no function of a program -/
def Value.IsPlain (v : Value) : Prop := ∀ f, v ≠ .function f

/-- the same host: its operations, the values that it keeps, and the orders of copying -/
structure World.SameHost (w w' : World) : Prop where
  hosts : w'.hosts = w.hosts
  memory : w'.memory = w.memory
  orders : w'.orders = w.orders

namespace World.SameHost

variable {w w' w'' : World}

theorem refl (w : World) : w.SameHost w := ⟨rfl, rfl, rfl⟩

theorem trans (h : w.SameHost w') (h' : w'.SameHost w'') : w.SameHost w'' :=
  ⟨h'.hosts.trans h.hosts, h'.memory.trans h.memory, h'.orders.trans h.orders⟩

end World.SameHost

namespace Eval

variable {α β : Type} {V : α → Prop} {W : β → Prop}

/-- a step that leaves scopes, interpreter and host alone, and gives only what `V` says -/
def Quiet (V : α → Prop) (x : Eval α) : Prop :=
  ∀ m, (x m).2.world.store = m.world.store ∧ (x m).2.interpreter = m.interpreter ∧
    m.world.SameHost (x m).2.world ∧ ∀ a, (x m).1 = .ok a → V a

namespace Quiet

theorem pure {a : α} (h : V a) : Quiet V (Pure.pure a) := by
  intro m
  refine ⟨rfl, rfl, .refl _, ?_⟩
  rintro b ⟨⟩
  exact h

theorem fail (e : Diagnostic) : Quiet V (Action.fail e) := by
  intro m
  exact ⟨rfl, rfl, .refl _, nofun⟩

theorem raise (fault : Fault) : Quiet V (Eval.raise fault) := fail _

theorem asks {f : Machine → α} (h : ∀ m, V (f m)) : Quiet V (Action.asks f) := by
  intro m
  refine ⟨rfl, rfl, .refl _, ?_⟩
  rintro b ⟨⟩
  exact h m

theorem bind {x : Eval α} {k : α → Eval β} (hx : Quiet V x) (hk : ∀ a, V a → Quiet W (k a)) :
    Quiet W (x >>= k) := by
  intro m
  obtain ⟨hstore, hinterpreter, hhosts, hvalue⟩ := hx m
  simp only [Action.bind_apply]
  rcases h : x m with ⟨e | a, m'⟩
  · rw [h] at hstore hinterpreter hhosts
    exact ⟨hstore, hinterpreter, hhosts, nofun⟩
  · rw [h] at hstore hinterpreter hhosts hvalue
    obtain ⟨hstore', hinterpreter', hhosts', hvalue'⟩ := hk a (hvalue a rfl) m'
    exact ⟨hstore'.trans hstore, hinterpreter'.trans hinterpreter, hhosts.trans hhosts', hvalue'⟩

theorem andThen {x : Eval α} {k : α → Eval β} (hx : Quiet (fun _ => True) x) (hk : ∀ a, Quiet W (k a)) :
    Quiet W (x >>= k) := hx.bind fun a _ => hk a

theorem exchange {f : Machine → α × Machine} (h : ∀ m, (f m).2.world.store = m.world.store ∧
    (f m).2.interpreter = m.interpreter ∧ m.world.SameHost (f m).2.world) :
    Quiet (fun _ => True) (Action.exchange f) := by
  intro m
  exact ⟨(h m).1, (h m).2.1, (h m).2.2, fun _ _ => trivial⟩

theorem changeWorld {f : World → World} (h : ∀ w, (f w).store = w.store ∧ w.SameHost (f w)) :
    Quiet (fun _ => True) (Eval.changeWorld f) := by
  intro m
  exact ⟨(h m.world).1, rfl, (h m.world).2, fun _ _ => trivial⟩

end Quiet

theorem quiet_perform (e : Effect) : Quiet (fun _ => True) (perform e) :=
  .changeWorld fun _ => ⟨rfl, rfl, rfl, rfl⟩

theorem quiet_log (entry : Machine → LogEntry) : Quiet (fun _ => True) (log entry) := by
  intro m
  simp only [log, Action.change]
  split
  · exact ⟨rfl, rfl, ⟨rfl, rfl, rfl⟩, fun _ _ => trivial⟩
  · exact ⟨rfl, rfl, .refl _, fun _ _ => trivial⟩

theorem quiet_trace (function : Bytes) (stage : CallStage) : Quiet (fun _ => True) (trace function stage) :=
  quiet_log _

theorem quiet_writeOut (operation t : Bytes) : Quiet (fun _ => True) (writeOut operation t) := by
  refine .andThen (.asks fun _ => trivial) fun sink => ?_
  rcases sink with _ | ⟨_ | left, reason⟩
  · exact quiet_perform _
  · exact .raise _
  · exact .andThen (.changeWorld fun _ => ⟨rfl, rfl, rfl, rfl⟩) fun _ => quiet_perform _

theorem quiet_takeLine : Quiet (fun _ => True) (Action.exchange fun m =>
    let (line, input) := m.world.input.readLine
    (line, { m with world := { m.world with input } }) : Eval (Except Bytes Bytes)) :=
  .exchange fun _ => ⟨rfl, rfl, rfl, rfl, rfl⟩

theorem quiet_readLine (operation : Bytes) : Quiet (fun _ => True) (readLine operation) := by
  refine .andThen quiet_takeLine fun line => ?_
  cases line with
  | ok line => exact .pure trivial
  | error reason => exact .raise _

theorem quiet_sleep (nanoseconds : Int) : Quiet (fun _ => True) (sleep nanoseconds) := by
  unfold sleep
  split
  · exact .andThen (.changeWorld fun _ => ⟨rfl, rfl, rfl, rfl⟩) fun _ => quiet_perform _
  · exact .pure trivial

theorem quiet_consult (call : GraphicsCall) : Quiet (fun _ => True) (consult call) := by
  refine .exchange fun m => ?_
  cases m.world.graphics with
  | none => exact ⟨rfl, rfl, .refl _⟩
  | some backend => exact ⟨rfl, rfl, rfl, rfl, rfl⟩

theorem quiet_heed (operation : Bytes) (refusal : Option Refusal) : Quiet (fun _ => True) (heed operation refusal) := by
  rcases refusal with _ | t | d
  · exact .pure trivial
  · exact .raise _
  · exact .fail d

theorem quiet_draw (operation : Bytes) (call : GraphicsCall) : Quiet (fun _ => True) (draw operation call) :=
  .andThen (quiet_perform _) fun _ => .andThen (quiet_consult call) fun refusal => quiet_heed operation refusal

theorem quiet_needGraphics (operation : Bytes) : Quiet (fun _ => True) (needGraphics operation) := by
  refine .andThen (.asks fun _ => trivial) fun missing => ?_
  split
  · exact .raise _
  · exact .pure trivial

theorem quiet_request (url : Bytes) : Quiet (fun _ => True) (request url) :=
  .exchange fun _ => ⟨rfl, rfl, rfl, rfl, rfl⟩

end Eval

namespace Primitive

open Eval Deed

variable {p : Primitive}

theorem quiet_stringArg (wanted : String) (v : Value) : Quiet (fun _ => True) (p.stringArg wanted v) := by
  cases v with
  | string t => exact .pure trivial
  | unit | number | bool | function | builtin | range | unknown => exact .raise _

theorem quiet_numberArg (wanted : String) (v : Value) : Quiet (fun _ => True) (p.numberArg wanted v) := by
  cases v with
  | number n => exact .pure trivial
  | unit | string | bool | function | builtin | range | unknown => exact .raise _

theorem quiet_intArg (v : Value) : Quiet (fun _ => True) (p.intArg v) := by
  cases v with
  | number n =>
    simp only [intArg]
    split
    · exact .pure trivial
    · exact .raise _
    · exact .raise _
  | unit | string | bool | function | builtin | range | unknown => exact .raise _

theorem quiet_functionArg (wanted : String) (v : Value) : Quiet (fun _ => True) (p.functionArg wanted v) := by
  unfold functionArg
  split
  · exact .pure trivial
  · exact .raise _

theorem quiet_secondsArg (v : Value) : Quiet (fun _ => True) (p.secondsArg v) := by
  refine .andThen (quiet_numberArg _ v) fun n => ?_
  split
  · exact .raise _
  · exact .pure trivial

theorem quiet_markArg (mark : Signature → Bool) (v : Value) : Quiet Value.IsPlain (p.markArg mark v) := by
  cases v with
  | function f => exact .pure nofun
  | builtin b => exact .pure nofun
  | unit | number | string | bool | range | unknown => exact .raise _

theorem quiet_drawing {args : Eval GraphicsCall} (h : Quiet (fun _ => True) args) :
    Quiet Value.IsPlain (p.drawing args) := by
  refine .andThen (quiet_needGraphics _) fun _ => .andThen h fun call => ?_
  exact .andThen (quiet_draw _ call) fun _ => .pure nofun

theorem callAll_idle (handlers : List Value) : callAll idle handlers = pure () := by
  induction handlers with
  | nil => rfl
  | cons h rest ih => exact ih

/-- builtins other than `spawn` and `register_event` touch neither scopes nor interpreters, and give no functions -/
theorem quiet_run (hspawn : p ≠ .spawn) (hregister : p ≠ .registerEvent) (args : List Value) :
    Quiet Value.IsPlain (p.run idle args) := by
  cases p.given args with
  | wrong harity hargs =>
    rw [run_of_length_ne harity hargs]
    exact .pure nofun
  | print => exact .andThen (quiet_writeOut _ _) fun _ => .pure nofun
  | len v | stringLength v => exact .andThen (quiet_stringArg _ v) fun _ => .pure nofun
  | toString | typeOf => exact .pure nofun
  | stringConcat a b =>
    rcases run_stringConcat a b with ⟨t, u, -, -, hrun⟩ | ⟨-, hrun⟩ <;> rw [hrun]
    · exact .pure nofun
    · exact .raise _
  | isAsync v | isGpu v => exact quiet_markArg _ v
  | getInput prompt =>
    refine .andThen (quiet_stringArg _ prompt) fun prompt => ?_
    have hread : Quiet Value.IsPlain (do return .string (← readLine (name .getInput))) :=
      .andThen (quiet_readLine _) fun _ => .pure nofun
    split
    · exact .andThen (quiet_writeOut _ _) fun _ => hread
    · exact hread
  | spawn => exact absurd rfl hspawn
  | sleep seconds => exact .andThen (quiet_secondsArg seconds) fun _ => .andThen (quiet_sleep _) fun _ => .pure nofun
  | setTimeout f seconds =>
    refine .andThen (quiet_functionArg _ f) fun _ => .andThen (quiet_secondsArg seconds) fun _ => ?_
    exact .andThen (quiet_sleep _) fun _ => .pure nofun
  | clock => exact .andThen (.asks fun _ => trivial) fun _ => .pure nofun
  | graphicsInit api => exact quiet_drawing (.andThen (quiet_stringArg _ api) fun _ => .pure trivial)
  | createWindow width height title =>
    refine quiet_drawing (.andThen (quiet_intArg width) fun _ => .andThen (quiet_intArg height) fun _ => ?_)
    exact .andThen (quiet_stringArg _ title) fun _ => .pure trivial
  | clear r g b a =>
    refine quiet_drawing (.andThen (quiet_numberArg _ r) fun _ => .andThen (quiet_numberArg _ g) fun _ => ?_)
    exact .andThen (quiet_numberArg _ b) fun _ => .andThen (quiet_numberArg _ a) fun _ => .pure trivial
  | swapBuffers | graphicsShutdown => exact quiet_drawing (.pure trivial)
  | registerEvent => exact absurd rfl hregister
  | triggerEvent event =>
    refine .andThen (quiet_stringArg _ event) fun event => .andThen (.asks fun _ => trivial) fun handlers => ?_
    rw [callAll_idle]
    exact .andThen (.pure trivial) fun _ => .pure nofun
  | httpGet url =>
    refine .andThen (quiet_stringArg _ url) fun url => .andThen (quiet_request url) fun answer => ?_
    rcases answer with reason | ⟨status, body⟩
    · exact .raise _
    · refine .andThen (quiet_log _) fun _ => ?_
      split
      · exact .raise _
      · exact .pure nofun

/-- `spawn` refuses, or leaves the function to a new interpreter -/
theorem run_spawn (v : Value) :
    (∃ e, run idle .spawn [v] = Action.fail e) ∨ run idle .spawn [v] = (Eval.spawn v >>= fun _ => return .unit) := by
  cases v with
  | function f =>
    by_cases h : f.sig.params = []
    · right
      simp only [run, functionArg, Value.isFunction, h]
      rfl
    · left
      refine ⟨⟨.spawnArity f.sig.params.length, .unknown, [], false⟩, ?_⟩
      simp only [run, functionArg, Value.isFunction, h, ne_eq, not_false_eq_true, if_true]
      rfl
  | builtin b => exact .inr rfl
  | unit | number | string | bool | range | unknown => exact .inl ⟨_, rfl⟩

/-- spawning leads to the next spawn -/
theorem spawn_apply (f : Value) (m : Machine) :
    (Eval.spawn f m).2.world.store = spawned f m ∧
      (Eval.spawn f m).2.interpreter = { m.interpreter with path := true :: m.interpreter.path } ∧
      m.world.SameHost (Eval.spawn f m).2.world := by
  simp only [Eval.spawn, schedule, Action.bind_apply, Action.exchange]
  split
  · exact ⟨rfl, rfl, rfl, rfl, rfl⟩
  · obtain ⟨hstore, hinterpreter, hhosts, -⟩ := quiet_log (fun _ => ⟨text "spawn scheduled", []⟩) _
    exact ⟨hstore, hinterpreter, hhosts.hosts, hhosts.memory, hhosts.orders⟩

/-- `register_event` refuses, or adds a handler -/
theorem run_registerEvent (event h : Value) :
    (∃ e, run idle .registerEvent [event, h] = Action.fail e) ∨
      ∃ name, run idle .registerEvent [event, h] = (do
        changeInterpreter fun i => { i with handlers := addHandler name h i.handlers }
        log fun m => ⟨text "event registered",
          [(text "event", name), (text "handlers", Bytes.ofNat (handlersOf m.interpreter name).length)]⟩
        return .unit) := by
  cases event with
  | string name =>
    by_cases hf : h.isFunction
    · right
      refine ⟨name, ?_⟩
      simp only [run, stringArg, functionArg, hf, if_true]
      rfl
    · left
      refine ⟨⟨.badCallback (Primitive.name .registerEvent) (text "a handler function") h.typeName, .unknown, [], false⟩, ?_⟩
      simp only [run, stringArg, functionArg, hf]
      rfl
  | unit | number | bool | function | builtin | range | unknown => exact .inl ⟨_, rfl⟩

/-- what a builtin makes of a machine -/
inductive Effects (args : List Value) (m m' : Machine) : Prop where
  /-- nothing that concerns scopes, interpreter and host -/
  | nothing (hstore : m'.world.store = m.world.store) (hinterpreter : m'.interpreter = m.interpreter)
    (hhosts : m.world.SameHost m'.world)
  /-- new scopes for a spawned function -/
  | spawned (v : Value) (hv : v ∈ args) (hstore : m'.world.store = Eval.spawned v m)
    (hinterpreter : m'.interpreter = { m.interpreter with path := true :: m.interpreter.path })
    (hhosts : m.world.SameHost m'.world)
  /-- a new handler -/
  | registered (event : Bytes) (h : Value) (hh : h ∈ args) (hstore : m'.world.store = m.world.store)
    (hinterpreter : m'.interpreter = { m.interpreter with handlers := addHandler event h m.interpreter.handlers })
    (hhosts : m.world.SameHost m'.world)

/-- a builtin apart from its calls: what it makes of the machine, and that it gives no function of a program -/
theorem run_idle (p : Primitive) (args : List Value) (m : Machine) :
    Effects args m (p.run idle args m).2 ∧ ∀ v, (p.run idle args m).1 = .ok v → v.IsPlain := by
  by_cases hquiet : p ≠ .spawn ∧ p ≠ .registerEvent
  · obtain ⟨hstore, hinterpreter, hhosts, hplain⟩ := quiet_run hquiet.1 hquiet.2 args m
    exact ⟨.nothing hstore hinterpreter hhosts, hplain⟩
  cases p.given args with
  | wrong harity hargs =>
    rw [run_of_length_ne harity hargs]
    refine ⟨.nothing rfl rfl (.refl _), ?_⟩
    rintro v ⟨⟩
    nofun
  | spawn v =>
    rcases run_spawn v with ⟨e, he⟩ | he
    · rw [he]
      exact ⟨.nothing rfl rfl (.refl _), nofun⟩
    · rw [he]
      obtain ⟨hstore, hinterpreter, hhosts⟩ := spawn_apply v m
      simp only [Action.bind_apply]
      rcases hm : Eval.spawn v m with ⟨e | a, m'⟩ <;> rw [hm] at hstore hinterpreter hhosts
      · exact ⟨.spawned v (by simp) hstore hinterpreter hhosts, nofun⟩
      · refine ⟨.spawned v (by simp) hstore hinterpreter hhosts, ?_⟩
        rintro v ⟨⟩
        nofun
  | registerEvent event h =>
    rcases run_registerEvent event h with ⟨e, he⟩ | ⟨name, he⟩
    · rw [he]
      exact ⟨.nothing rfl rfl (.refl _), nofun⟩
    · rw [he]
      obtain ⟨hstore, hinterpreter, hhosts, -⟩ := quiet_log (fun m => ⟨text "event registered",
        [(text "event", name), (text "handlers", Bytes.ofNat (handlersOf m.interpreter name).length)]⟩)
        { m with interpreter := { m.interpreter with handlers := addHandler name h m.interpreter.handlers } }
      refine ⟨.registered name h (by simp) hstore hinterpreter ⟨hhosts.hosts, hhosts.memory, hhosts.orders⟩, ?_⟩
      rintro v ⟨⟩
      nofun
  | _ => exact absurd ⟨nofun, nofun⟩ hquiet

end Primitive

/-! ## Scopes after deeds -/

/-- the machine with other scopes -/
def Machine.withStore (m : Machine) (s : Store) : Machine := { m with world := { m.world with store := s } }

/-- the store with bindings in a scope -/
def Store.defineAll (s : Store) (scope : ScopeId) (bindings : List (Bytes × Value)) : Store :=
  bindings.foldl (fun s b => s.define scope b.1 b.2) s

theorem Store.Kept.defineAll {s s' : Store} {scope : ScopeId} (h : s.Kept s') (hscope : s.scopes.size ≤ scope)
    (bindings : List (Bytes × Value)) : s.Kept (s'.defineAll scope bindings) := by
  induction bindings generalizing s' with
  | nil => exact h
  | cons b rest ih => exact ih (h.define hscope b.1 b.2)

namespace Deed

theorem bindIn_singleton (scope : ScopeId) (name : Bytes) (v : Value) :
    bindIn scope [(name, v)] = Eval.define scope name v := rfl

theorem bindIn_apply (scope : ScopeId) (bindings : List (Bytes × Value)) (m : Machine) :
    bindIn scope bindings m = (.ok (), m.withStore (m.world.store.defineAll scope bindings)) := by
  induction bindings generalizing m with
  | nil => rfl
  | cons b rest ih => exact ih _

theorem act_openScope (parent : ScopeId) (bindings : List (Bytes × Value)) (m : Machine) :
    (openScope parent bindings).act m = (.ok m.world.store.scopes.size,
      m.withStore ((m.world.store.push (some parent)).2.defineAll m.world.store.scopes.size bindings)) := by
  have hbind := bindIn_apply m.world.store.scopes.size bindings (m.withStore (m.world.store.push (some parent)).2)
  change (bindIn m.world.store.scopes.size bindings >>= fun _ => pure m.world.store.scopes.size)
    (m.withStore (m.world.store.push (some parent)).2) = _
  rw [Action.bind_apply, hbind]
  rfl

theorem act_declare (scope : ScopeId) (d : Declaration) (m : Machine) : (declare scope d).act m =
    if (m.world.store.bound? scope d.name).isSome then
      (.ok m.world.store.scopes.size, m.withStore
        ((m.world.store.push (some scope)).2.define m.world.store.scopes.size d.name (d.bound m.world.store.scopes.size)))
    else (.ok scope, m.withStore (m.world.store.define scope d.name (d.bound scope))) := by
  simp only [act, Eval.declare, Eval.store, Action.bind_apply, Action.asks]
  split
  · rfl
  · rfl

theorem act_set (owner : ScopeId) (name : Bytes) (v : Value) (m : Machine) : (set owner name v).act m =
    (.ok (), m.withStore (if (m.world.store.bound? owner name).isSome then m.world.store.define owner name v
      else m.world.store)) := rfl

/-- binding a name that is bound gives it a new value -/
theorem act_set_of_bound {owner : ScopeId} {name : Bytes} {m : Machine} (h : (m.world.store.bound? owner name).isSome)
    (v : Value) : (set owner name v).act m = Eval.define owner name v m := by
  rw [act_set, if_pos h]
  rfl

/-- binding a name that is not bound declares it -/
theorem act_declare_of_free {scope : ScopeId} {name : Bytes} {m : Machine}
    (h : ¬(m.world.store.bound? scope name).isSome) (v : Value) :
    (declare scope (.value name v)).act m = (.ok scope, (Eval.define scope name v m).2) := by
  have hfree : ¬(m.world.store.bound? scope (Declaration.value name v).name).isSome = true := h
  rw [act_declare, if_neg hfree]
  rfl

/-- what a deed makes of the scopes that are there -/
structure Preserves (d : Deed) (s s' : Store) : Prop where
  size : s.scopes.size ≤ s'.scopes.size
  parent : ∀ {i : ScopeId}, i < s.scopes.size → s'.parent? i = s.parent? i
  bound : ∀ {i : ScopeId} (name : Bytes), i < s.scopes.size →
    ((s'.bound? i name).isSome ↔ (s.bound? i name).isSome ∨ ∃ decl, d = .declare i decl ∧ decl.name = name)

theorem Preserves.of_kept {d : Deed} {s s' : Store} (h : s.Kept s')
    (hd : ∀ i decl, d = .declare i decl → (s.bound? i decl.name).isSome) : Preserves d s s' := by
  refine ⟨h.size, h.parent?, fun {i} name hi => ?_⟩
  rw [h.bound? hi]
  constructor
  · exact .inl
  · rintro (hbound | ⟨decl, hdecl, rfl⟩)
    · exact hbound
    · exact hd i decl hdecl

/-- a binding in a scope that is there -/
theorem Preserves.of_define {d : Deed} {s : Store} {id : ScopeId} {name : Bytes} (v : Value)
    (hd : ∀ i decl, d = .declare i decl → i = id ∧ decl.name = name)
    (hname : (s.bound? id name).isSome ∨ ∃ decl, d = .declare id decl ∧ decl.name = name) :
    Preserves d s (s.define id name v) := by
  refine ⟨Nat.le_of_eq (Snapshot.size_define ..).symm, fun _ => Store.parent?_define .., fun {i} other hi => ?_⟩
  rw [Store.bound?_define]
  by_cases h : id = i ∧ name = other
  · obtain ⟨rfl, rfl⟩ := h
    simp only [hi, and_self, if_true, Option.isSome_some, true_iff]
    exact hname
  · have hne : ¬(id = i ∧ name = other ∧ i < s.scopes.size) := fun hall => h ⟨hall.1, hall.2.1⟩
    rw [if_neg hne]
    constructor
    · exact .inl
    · rintro (hbound | ⟨decl, hdecl, rfl⟩)
      · exact hbound
      · obtain ⟨rfl, rfl⟩ := hd i decl hdecl
        exact absurd ⟨rfl, rfl⟩ h

/-- **One deed.** Of the scopes that are there a deed keeps the scopes around them; such a scope binds a name afterwards
when it did before, or when the deed declares the name in this scope. -/
theorem preserves_effect (d : Deed) (m : Machine) : Preserves d m.world.store (d.effect m).world.store := by
  cases d with
  | openScope parent bindings =>
    rw [effect, act_openScope]
    exact .of_kept (((Store.Kept.refl _).push _).defineAll (Nat.le_refl _) _) nofun
  | declare scope decl =>
    rw [effect, act_declare]
    by_cases hbound : (m.world.store.bound? scope decl.name).isSome = true
    · rw [if_pos hbound]
      refine .of_kept (((Store.Kept.refl _).push _).define (Nat.le_refl _) _ _) ?_
      rintro i decl' ⟨⟩
      exact hbound
    · rw [if_neg hbound]
      refine .of_define _ ?_ (.inr ⟨decl, rfl, rfl⟩)
      rintro i decl' ⟨⟩
      exact ⟨rfl, rfl⟩
  | set owner name v =>
    rw [effect, act_set]
    by_cases hbound : (m.world.store.bound? owner name).isSome = true
    · rw [if_pos hbound]
      exact .of_define v nofun (.inl hbound)
    · rw [if_neg hbound]
      exact .of_kept (.refl _) nofun
  | builtin p args =>
    rw [effect, act]
    rcases (Primitive.run_idle p args m).1 with ⟨hstore, -, -⟩ | ⟨v, -, hstore, -, -⟩ | ⟨event, h, -, hstore, -, -⟩
    · rw [hstore]
      exact .of_kept (.refl _) nofun
    · rw [hstore]
      exact .of_kept (Eval.spawned_kept v m) nofun
    · rw [hstore]
      exact .of_kept (.refl _) nofun
  | enter | leave | moveGlobal | remember => exact .of_kept (.refl _) nofun
  | trace function stage =>
    rw [effect, act, (Eval.quiet_trace function stage m).1]
    exact .of_kept (.refl _) nofun
  | note entry =>
    rw [effect, act, (Eval.quiet_log _ m).1]
    exact .of_kept (.refl _) nofun

end Deed

end Ouroboros
