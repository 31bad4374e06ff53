/-
Like steps.

Two steps are alike (`Eval.Alike`) when on machines that differ in details only they give the same up to details, or fail
alike, and leave machines that differ in details only. Steps made of like steps are alike. What builtins do to the outside
does not depend on details, for of a function of a program they see no more than its name and its marks; so every builtin of
the language is alike for arguments that differ in details only, if the calls that it makes are (`Primitive.alike_run`).
-/
import Ouroboros.Proofs.Execution.Outside
import Ouroboros.Proofs.Execution.Termination
import Ouroboros.Proofs.Forgetting.Machine

namespace Ouroboros

variable {d : Details}

namespace Machine.SameUpTo

variable {m m' : Machine}

theorem store (h : m.SameUpTo d m') : m.world.store.forget d = m'.world.store.forget d :=
  congrArg (fun m => m.world.store) h.forgotten

theorem interpreter (h : m.SameUpTo d m') : m.interpreter.forget d = m'.interpreter.forget d :=
  congrArg Machine.interpreter h.forgotten

theorem core (h : m.SameUpTo d m') : m.interpreter.core = m'.interpreter.core := by
  have hcore := congrArg Interpreter.core h.interpreter
  exact hcore

theorem global (h : m.SameUpTo d m') : m.interpreter.global = m'.interpreter.global := by
  have hglobal := congrArg Interpreter.global h.interpreter
  exact hglobal

theorem limit (h : m.SameUpTo d m') : m.interpreter.limit = m'.interpreter.limit := by
  have hlimit := congrArg Interpreter.limit h.interpreter
  exact hlimit

theorem frames (h : m.SameUpTo d m') :
    m.interpreter.frames.map Frame.unplaced = m'.interpreter.frames.map Frame.unplaced :=
  congrArg Interpreter.frames h.interpreter

theorem memory (h : m.SameUpTo d m') : m.world.memory.map (Value.forget d) = m'.world.memory.map (Value.forget d) :=
  congrArg (fun m => m.world.memory) h.forgotten

theorem outside (h : m.SameUpTo d m') : m'.outside = m.outside := (congrArg Machine.outside h.forgotten).symm

theorem withStore (h : m.SameUpTo d m') {s s' : Store} (hs : s.forget d = s'.forget d) :
    (m.withStore s).SameUpTo d (m'.withStore s') :=
  ⟨congrArg₂ Machine.withStore h.forgotten hs, h.hosts⟩

theorem proceed (h : m.SameUpTo d m') (o : World) (es : Array Effect) : (m.proceed o es).SameUpTo d (m'.proceed o es) :=
  ⟨congrArg (fun m => m.proceed o es) h.forgotten, h.hosts⟩

end Machine.SameUpTo

namespace Eval

variable {α β γ δ : Type}

/-- On machines that differ in details only, both steps give the same without details, which `g` takes from what they give,
or they fail alike; and they leave machines that differ in details only. -/
def Alike (d : Details) (g : α → β) (x y : Eval α) : Prop := ∀ m m' : Machine, m.SameUpTo d m' →
  forgetResult g (x m).1 = forgetResult g (y m').1 ∧ (x m).2.SameUpTo d (y m').2

/-- calls that are alike for functions and arguments that differ in details only -/
def AlikeCalls (d : Details) (call : Call) : Prop :=
  ∀ {f f' : Value} {args args' : List Value} (pos pos' : Pos), f.forget d = f'.forget d →
    args.map (Value.forget d) = args'.map (Value.forget d) →
    Alike d (Value.forget d) (call f args pos) (call f' args' pos')

/-! ## Making like steps -/

namespace Alike

variable {g : α → β} {x y z : Eval α}

theorem symm (h : Alike d g x y) : Alike d g y x := by
  intro m m' hm
  obtain ⟨hresult, hafter⟩ := h m' m hm.symm
  exact ⟨hresult.symm, hafter.symm⟩

theorem trans (h : Alike d g x y) (h' : Alike d g y z) : Alike d g x z := by
  intro m m' hm
  obtain ⟨hresult, hafter⟩ := h m m' hm
  obtain ⟨hresult', hafter'⟩ := h' m' m' (hm.symm.trans hm)
  exact ⟨hresult.trans hresult', hafter.trans hafter'⟩

theorem pure {a b : α} (h : g a = g b) : Alike d g (Pure.pure a) (Pure.pure b) :=
  fun _ _ hm => ⟨congrArg Except.ok h, hm⟩

theorem bind {h : γ → δ} {k l : α → Eval γ} (hx : Alike d g x y) (hk : ∀ a b, g a = g b → Alike d h (k a) (l b)) :
    Alike d h (x >>= k) (y >>= l) := by
  intro m m' hm
  obtain ⟨hresult, hafter⟩ := hx m m' hm
  rw [Action.bind_apply, Action.bind_apply]
  rcases hrun : x m with ⟨e | a, n⟩ <;> rcases hrun' : y m' with ⟨e' | b, n'⟩ <;> rw [hrun, hrun'] at hresult hafter
  · exact ⟨congrArg Except.error (Except.error.inj hresult), hafter⟩
  · cases hresult
  · cases hresult
  · exact hk a b (Except.ok.inj hresult) n n' hafter

/-- what the first steps give is the same -/
theorem andThen {h : γ → δ} {k l : α → Eval γ} (hx : Alike d id x y) (hk : ∀ a, Alike d h (k a) (l a)) :
    Alike d h (x >>= k) (y >>= l) := by
  refine hx.bind fun a b hab => ?_
  obtain rfl : a = b := hab
  exact hk a

theorem fail {e e' : Diagnostic} (h : e.unplaced = e'.unplaced) : Alike d g (Action.fail e) (Action.fail e') :=
  fun _ _ hm => ⟨congrArg Except.error h, hm⟩

/-- the same fault at two places -/
theorem failAt (pos pos' : Pos) (fault : Fault) : Alike d g (Action.failAt pos fault) (Action.failAt pos' fault) := fail rfl

theorem asks {f f' : Machine → α} (h : ∀ m m', m.SameUpTo d m' → g (f m) = g (f' m')) :
    Alike d g (Action.asks f) (Action.asks f') := fun m m' hm => ⟨congrArg Except.ok (h m m' hm), hm⟩

theorem change {f f' : Machine → Machine} (h : ∀ m m', m.SameUpTo d m' → (f m).SameUpTo d (f' m')) :
    Alike d id (Action.change f) (Action.change f') := fun m m' hm => ⟨rfl, h m m' hm⟩

theorem attempt (h : Alike d g x y) : Alike d (forgetResult g) (Action.attempt x) (Action.attempt y) :=
  fun m m' hm => ⟨congrArg Except.ok (h m m' hm).1, (h m m' hm).2⟩

/-- a step that only has to do with the outside -/
theorem of_outward (h : Outward x y) : Alike d g x y := by
  intro m m' hm
  obtain ⟨r, o, es, hx, hy, -⟩ := h m m' hm.outside
  rw [hx, hy]
  exact ⟨rfl, hm.proceed o es⟩

end Alike

theorem alike_log {entry entry' : Machine → LogEntry} (h : ∀ m m', m.SameUpTo d m' → entry' m' = entry m) :
    Alike d id (log entry) (log entry') := by
  intro m m' hm
  obtain ⟨r, o, es, hx, hy, -⟩ := log_outward hm.outside (h m m' hm)
  rw [hx, hy]
  exact ⟨rfl, hm.proceed o es⟩

/-! ## Scopes -/

theorem alike_newScope (parent : ScopeId) : Alike d id (newScope parent) (newScope parent) := by
  intro m m' hm
  have hpush := (Store.push_forget d m.world.store (some parent)).symm.trans
    ((congrArg (fun s => s.push (some parent)) hm.store).trans (Store.push_forget d m'.world.store (some parent)))
  obtain ⟨hid, hstore⟩ := Prod.mk.inj hpush
  exact ⟨congrArg Except.ok hid, hm.withStore hstore⟩

theorem alike_define (scope : ScopeId) (name : Bytes) {v v' : Value} (h : v.forget d = v'.forget d) :
    Alike d id (define scope name v) (define scope name v') := by
  refine .change fun m m' hm => hm.withStore ?_
  rw [Store.define_forget, Store.define_forget, hm.store, h]

theorem alike_store : Alike d (Store.forget d) store store := .asks fun _ _ hm => hm.store

theorem alike_lookUp (scope : ScopeId) (name : Bytes) :
    Alike d (Option.map (Value.forget d)) (Action.asks fun m => m.world.store.lookup? scope name)
      (Action.asks fun m => m.world.store.lookup? scope name) := by
  refine .asks fun m m' hm => ?_
  rw [← Store.lookup?_forget, ← Store.lookup?_forget, hm.store]

/-! ## Spawned work -/

theorem schedule_forget (f : Value) (m : Machine) : schedule (f.forget d) (m.forget d) =
    ((schedule f m).1, (schedule f m).2.forget d) := by
  have hnew := World.newInterpreter_forget d m.world m.interpreter.limit (false :: m.interpreter.path)
  rcases h : m.world.newInterpreter m.interpreter.limit (false :: m.interpreter.path) with ⟨child, w⟩
  rw [h] at hnew
  have htransfer := transfer_forget d m.interpreter.core child.core (w.orders m.interpreter.path) f w.store
  simp only [schedule, Action.exchange, Machine.forget, Interpreter.forget, h] at hnew ⊢
  simp only [hnew]
  by_cases hclosed : w.closed = true
  · simp [World.forget, htransfer, hclosed]
  · simp [World.forget, htransfer, hclosed, Job.forget, Interpreter.forget]

theorem alike_schedule {f f' : Value} (h : f.forget d = f'.forget d) : Alike d id (schedule f) (schedule f') := by
  intro m m' hm
  have hrun := (schedule_forget f m).symm.trans ((congrArg₂ schedule h hm.forgotten).trans (schedule_forget f' m'))
  obtain ⟨hresult, hafter⟩ := Prod.mk.inj hrun
  rw [hresult]
  exact ⟨rfl, hafter, hm.hosts⟩

theorem alike_spawn {f f' : Value} (h : f.forget d = f'.forget d) : Alike d id (spawn f) (spawn f') := by
  refine .andThen (alike_schedule h) fun closed => ?_
  cases closed with
  | true => exact .failAt _ _ _
  | false => exact alike_log fun _ _ _ => rfl

end Eval

/-! ## Builtins -/

namespace Value

/-- builtins do not see details -/
theorem resembles_of_forget {v v' : Value} (h : v.forget d = v'.forget d) : v.Resembles v' := by
  by_cases hf : v.isFunction
  · by_cases hf' : v'.isFunction
    · cases v with
      | function f =>
        cases v' with
        | function f' =>
          have hsig : f.sig.forget d = f'.sig.forget d := congrArg Closure.sig (Value.function.inj h)
          exact .function (congrArg Signature.name hsig).symm (congrArg Signature.isAsync hsig).symm
            (congrArg Signature.isGpu hsig).symm
        | unit | number | string | bool | builtin | range | unknown => cases h
      | builtin b =>
        cases v' <;> cases h
        exact .refl _
      | unit | number | string | bool | range | unknown => cases hf
    · rw [forget_of_not_function d hf'] at h
      rw [← h, isFunction_forget] at hf'
      exact absurd hf hf'
  · have hf' : ¬v'.isFunction := by rwa [← isFunction_forget d, ← h, isFunction_forget]
    rw [forget_of_not_function d hf, forget_of_not_function d hf'] at h
    rw [h]
    exact .refl _

/-- lists that differ in details only, one value after the other -/
theorem forall₂_of_map_forget {vs vs' : List Value} (h : vs.map (forget d) = vs'.map (forget d)) :
    List.Forall₂ (fun v v' => v.forget d = v'.forget d) vs vs' := by
  rw [← List.forall₂_eq_eq_eq, List.forall₂_map_left_iff, List.forall₂_map_right_iff] at h
  exact h

end Value

namespace Primitive

open Eval Deed

variable {p : Primitive}

theorem handlersOf_forget (i : Interpreter) (event : Bytes) :
    handlersOf (i.forget d) event = (handlersOf i event).map (Value.forget d) := by
  simp only [handlersOf, Interpreter.forget]
  induction i.handlers with
  | nil => rfl
  | cons h rest ih =>
    rcases h with ⟨other, hs⟩
    simp only [List.map_cons, List.lookup_cons]
    cases event == other
    · exact ih
    · rfl

theorem addHandler_forget (event : Bytes) (h : Value) (handlers : List (Bytes × List Value)) :
    addHandler event (h.forget d) (handlers.map fun h => (h.1, h.2.map (Value.forget d))) =
      (addHandler event h handlers).map fun h => (h.1, h.2.map (Value.forget d)) := by
  induction handlers with
  | nil => rfl
  | cons entry rest ih =>
    rcases entry with ⟨other, hs⟩
    by_cases hother : other = event
    · simp [addHandler, hother]
    · simp [addHandler, hother, ih]

/-- the handlers of an event differ in details only -/
theorem handlersOf_alike {m m' : Machine} (hm : m.SameUpTo d m') (event : Bytes) :
    (handlersOf m.interpreter event).map (Value.forget d) = (handlersOf m'.interpreter event).map (Value.forget d) := by
  rw [← handlersOf_forget, ← handlersOf_forget, hm.interpreter]

variable {call : Call}

theorem alike_callAll (hcall : AlikeCalls d call) {hs hs' : List Value}
    (h : List.Forall₂ (fun v v' => v.forget d = v'.forget d) hs hs') : Alike d id (callAll call hs) (callAll call hs') := by
  induction h with
  | nil => exact .pure rfl
  | cons hf _ ih => exact (hcall _ _ hf rfl).bind fun _ _ _ => ih

theorem alike_spawning {v v' : Value} (h : v.forget d = v'.forget d) :
    Alike d (Value.forget d) (run call .spawn [v]) (run call .spawn [v']) := by
  have hspawn : Alike d (Value.forget d) (do Eval.spawn v; return .unit) (do Eval.spawn v'; return .unit) :=
    .andThen (alike_spawn h) fun _ => .pure rfl
  refine .andThen (.of_outward (outward_functionArg _ (Value.resembles_of_forget h))) fun _ => ?_
  cases Value.resembles_of_forget h with
  | refl =>
    cases v with
    | function f =>
      dsimp only
      split
      · exact .andThen (.failAt _ _ _) fun _ => hspawn
      · exact hspawn
    | unit | number | string | bool | builtin | range | unknown => exact hspawn
  | @function f f' _ _ _ =>
    have hparams : f.sig.params.map (Param.forget d) = f'.sig.params.map (Param.forget d) :=
      congrArg (fun f => f.sig.params) (Value.function.inj h)
    have hlength : f.sig.params.length = f'.sig.params.length := by
      simpa only [List.length_map] using congrArg List.length hparams
    have hnil : f.sig.params ≠ [] ↔ f'.sig.params ≠ [] := by
      rw [← List.length_pos_iff, ← List.length_pos_iff, hlength]
    simp only [hnil, hlength]
    split
    · exact .andThen (.failAt _ _ _) fun _ => hspawn
    · exact hspawn

theorem alike_registering {event event' h h' : Value} (hevent : event.forget d = event'.forget d)
    (hh : h.forget d = h'.forget d) :
    Alike d (Value.forget d) (run call .registerEvent [event, h]) (run call .registerEvent [event', h']) := by
  refine .andThen (.of_outward (outward_stringArg _ (Value.resembles_of_forget hevent))) fun event => ?_
  refine .andThen (.of_outward (outward_functionArg _ (Value.resembles_of_forget hh))) fun _ => ?_
  refine .andThen (.change fun m m' hm => ⟨?_, hm.hosts⟩) fun _ => .andThen (alike_log fun m m' hm => ?_) fun _ => .pure rfl
  · have hadd := congrArg₂ (addHandler event) hh (congrArg Interpreter.handlers hm.interpreter)
    simp only [Interpreter.forget, addHandler_forget] at hadd
    have hothers := hm.forgotten
    simp only [Machine.forget, Interpreter.forget, Machine.mk.injEq, Interpreter.mk.injEq] at hothers ⊢
    exact ⟨⟨hothers.1.1, hothers.1.2.1, hothers.1.2.2.1, hothers.1.2.2.2.1, hadd, hothers.1.2.2.2.2.2⟩, hothers.2⟩
  · have hlength := congrArg List.length (handlersOf_alike hm event)
    rw [List.length_map, List.length_map] at hlength
    rw [hlength]

/-- a builtin that only has to do with the outside and makes no calls -/
theorem run_eq_idle (hp : p.isOutward = true) (hne : p ≠ .setTimeout) (call : Call) (args : List Value) :
    p.run call args = p.run idle args := by
  rw [run_eq]
  cases p <;> first
    | rfl
    | exact absurd rfl hne
    | cases hp

/-- what builtins do, case by case of what they are given -/
theorem alike_run (hcall : AlikeCalls d call) (p : Primitive) {args args' : List Value}
    (hargs : args.map (Value.forget d) = args'.map (Value.forget d)) :
    Alike d (Value.forget d) (p.run call args) (p.run call args') := by
  have hvs := Value.forall₂_of_map_forget hargs
  by_cases hp : p.isOutward = true ∧ p ≠ .setTimeout
  · rw [run_eq_idle hp.1 hp.2 call args, run_eq_idle hp.1 hp.2 call args']
    exact .of_outward (outward_run hp.1 (hvs.imp fun _ _ h => Value.resembles_of_forget h))
  cases p.given args with
  | wrong harity hne =>
    rw [run_of_length_ne harity hne, run_of_length_ne harity (by rwa [← hvs.length_eq])]
    exact .pure rfl
  | spawn =>
    rcases hvs with _ | ⟨hf, ⟨⟩⟩
    exact alike_spawning hf
  | setTimeout =>
    rcases hvs with _ | ⟨hf, _ | ⟨hv, ⟨⟩⟩⟩
    refine .andThen (.of_outward (outward_functionArg _ (Value.resembles_of_forget hf))) fun _ => ?_
    refine .andThen (.of_outward (outward_secondsArg (Value.resembles_of_forget hv))) fun _ => ?_
    exact .andThen (.of_outward (outward_sleep _)) fun _ => hcall _ _ hf rfl
  | registerEvent =>
    rcases hvs with _ | ⟨hevent, _ | ⟨hh, ⟨⟩⟩⟩
    exact alike_registering hevent hh
  | triggerEvent =>
    rcases hvs with _ | ⟨hevent, ⟨⟩⟩
    refine .andThen (.of_outward (outward_stringArg _ (Value.resembles_of_forget hevent))) fun event => ?_
    refine .bind (.asks fun m m' hm => handlersOf_alike hm event) fun hs hs' hhs => ?_
    refine .andThen (alike_callAll hcall (Value.forall₂_of_map_forget hhs)) fun _ => .pure ?_
    rw [← List.length_map (Value.forget d), hhs, List.length_map]
  | _ => exact absurd ⟨rfl, nofun⟩ hp

end Primitive

end Ouroboros
