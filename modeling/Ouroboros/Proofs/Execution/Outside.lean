/-
What builtins have to do with the outside.

The outside of a machine is its world without scopes, host, waiting work and record. Most builtins read nothing else, change
nothing else and add to the record: on machines with the same outside they give the same, leave the same outside, and do the
same things to it (`Outward`). They do so for arguments that they cannot tell apart: of a function of a program no builtin
sees more than its name and its marks (`Primitive.outward_run`). The three others register a handler, call the handlers of
an event, or spawn.
-/
import Ouroboros.Proofs.Execution.Pairing

namespace Ouroboros

namespace Machine

/-- the world without scopes, host, waiting work and record -/
def outside (m : Machine) : World :=
  { m.world with store := .empty, hosts := #[], memory := [], orders := fun _ _ _ => 0, jobs := [], record := #[] }

/-- the machine when the outside is `o` and `es` was done to it -/
def proceed (m : Machine) (o : World) (es : Array Effect) : Machine :=
  { m with
    world := { o with
      store := m.world.store, hosts := m.world.hosts, memory := m.world.memory, orders := m.world.orders
      jobs := m.world.jobs, record := m.world.record ++ es } }

@[simp] theorem jobs_proceed (m : Machine) (o : World) (es : Array Effect) :
    (m.proceed o es).world.jobs = m.world.jobs := rfl

@[simp] theorem record_proceed (m : Machine) (o : World) (es : Array Effect) :
    (m.proceed o es).world.record = m.world.record ++ es := rfl

theorem proceed_self (m : Machine) : m.proceed m.world #[] = m := by
  simp only [proceed, Array.append_empty]

theorem proceed_proceed (m : Machine) (o o' : World) (es es' : Array Effect) :
    (m.proceed o es).proceed o' es' = m.proceed o' (es ++ es') := by
  simp only [proceed, Array.append_assoc]

/-- only the outside of the world that is put in matters -/
theorem proceed_congr (m : Machine) {m₁ m₂ : Machine} (h : m₂.outside = m₁.outside) (es : Array Effect) :
    m.proceed m₂.world es = m.proceed m₁.world es := by
  obtain ⟨i₁, w₁⟩ := m₁
  obtain ⟨i₂, w₂⟩ := m₂
  cases w₁
  cases w₂
  cases h
  rfl

/-- a part of the outside -/
theorem outside_congr {γ : Type} (f : World → γ) (hf : ∀ m : Machine, f m.outside = f m.world) {m m' : Machine}
    (h : m'.outside = m.outside) : f m'.world = f m.world := by
  rw [← hf, ← hf, h]

theorem outside_proceed (m m' : Machine) (o : World) (es : Array Effect) :
    (m'.proceed o es).outside = (m.proceed o es).outside := rfl

end Machine

/-! ## Values that builtins cannot tell apart -/

/-- the same value, or functions of programs with the same name and marks -/
inductive Value.Resembles : Value → Value → Prop where
  | refl (v : Value) : Resembles v v
  | function {f f' : Closure} (hname : f'.sig.name = f.sig.name) (hasync : f'.sig.isAsync = f.sig.isAsync)
    (hgpu : f'.sig.isGpu = f.sig.isGpu) : Resembles (.function f) (.function f')

namespace Value.Resembles

variable {v v' : Value}

theorem typeName (h : v.Resembles v') : v'.typeName = v.typeName := by
  cases h <;> rfl

theorem isFunction (h : v.Resembles v') : v'.isFunction = v.isFunction := by
  cases h <;> rfl

theorem shown (h : v.Resembles v') : v'.shown = v.shown := by
  cases h with
  | refl => rfl
  | function hname => simp only [Value.shown, hname]

theorem described (h : v.Resembles v') : v'.described = v.described := by
  cases h <;> rfl

theorem callName (h : v.Resembles v') : v'.callName = v.callName := by
  cases h with
  | refl => rfl
  | function hname => exact hname

theorem isTrue (h : v.Resembles v') : v'.isTrue = v.isTrue := by
  cases h <;> rfl

theorem eq_of_not_function (h : v.Resembles v') (hv : ¬v.isFunction) : v' = v := by
  cases h with
  | refl => rfl
  | function => exact absurd rfl hv

end Value.Resembles

theorem Value.Paired.resembles {P : Pairing} {v v' : Value} (h : v.Paired P v') : v.Resembles v' := by
  cases h with
  | function => exact .function rfl rfl rfl
  | plain => exact .refl v

/-! ## Steps -/

namespace Eval

variable {α β : Type}

/-- on machines with the same outside, the steps give the same, leave the same outside and do the same to it; and they do
not decide whether more work is taken -/
def Outward (x x' : Eval α) : Prop := ∀ m m', m'.outside = m.outside →
  ∃ r o es, x m = (r, m.proceed o es) ∧ x' m' = (r, m'.proceed o es) ∧ o.closed = m.world.closed

namespace Outward

variable {x x' : Eval α}

theorem pure (a : α) : Outward (Pure.pure a) (Pure.pure a) := by
  intro m m' h
  refine ⟨.ok a, m.world, #[], ?_, ?_, rfl⟩
  · rw [m.proceed_self]
    rfl
  · rw [← m'.proceed_congr h, m'.proceed_self]
    rfl

theorem fail (e : Diagnostic) : Outward (Action.fail e : Eval α) (Action.fail e) := by
  intro m m' h
  refine ⟨.error e, m.world, #[], ?_, ?_, rfl⟩
  · rw [m.proceed_self]
    rfl
  · rw [← m'.proceed_congr h, m'.proceed_self]
    rfl

theorem raise (fault : Fault) : Outward (Eval.raise fault : Eval α) (Eval.raise fault) := fail _

theorem asks {f : Machine → α} (hf : ∀ m m', m'.outside = m.outside → f m' = f m) :
    Outward (Action.asks f) (Action.asks f) := by
  intro m m' h
  refine ⟨.ok (f m), m.world, #[], ?_, ?_, rfl⟩
  · rw [m.proceed_self]
    rfl
  · rw [← m'.proceed_congr h, m'.proceed_self, ← hf m m' h]
    rfl

theorem bind {k k' : α → Eval β} (hx : Outward x x') (hk : ∀ a, Outward (k a) (k' a)) :
    Outward (x >>= k) (x' >>= k') := by
  intro m m' h
  obtain ⟨r, o, es, hrun, hrun', hclosed⟩ := hx m m' h
  simp only [Action.bind_apply, hrun, hrun']
  cases r with
  | error e => exact ⟨.error e, o, es, rfl, rfl, hclosed⟩
  | ok a =>
    obtain ⟨r', o', es', hnext, hnext', hclosed'⟩ := hk a _ _ (m.outside_proceed m' o es)
    refine ⟨r', o', es ++ es', ?_, ?_, hclosed'.trans hclosed⟩
    · exact hnext.trans (by rw [Machine.proceed_proceed])
    · exact hnext'.trans (by rw [Machine.proceed_proceed])

end Outward

theorem outward_perform (e : Effect) : Outward (perform e) (perform e) := by
  intro m m' h
  refine ⟨.ok (), m.world, #[e], ?_, ?_, rfl⟩
  · simp only [Machine.proceed, ← Array.push_eq_append]
    rfl
  · rw [← m'.proceed_congr h]
    simp only [Machine.proceed, ← Array.push_eq_append]
    rfl

theorem log_apply (entry : Machine → LogEntry) (m : Machine) :
    log entry m = if m.world.logging then perform (.log (entry m)) m else (.ok (), m) := by
  simp only [log, Action.change]
  split <;> rfl

/-- a line of the debug log that is the same on both machines -/
theorem log_outward {entry entry' : Machine → LogEntry} {m m' : Machine} (h : m'.outside = m.outside)
    (hentry : entry' m' = entry m) :
    ∃ r o es, log entry m = (r, m.proceed o es) ∧ log entry' m' = (r, m'.proceed o es) ∧ o.closed = m.world.closed := by
  have hlogging : m'.world.logging = m.world.logging := Machine.outside_congr World.logging (fun _ => rfl) h
  rw [log_apply, log_apply, hlogging, hentry]
  by_cases hlog : m.world.logging = true
  · rw [if_pos hlog, if_pos hlog]
    exact outward_perform _ m m' h
  · rw [if_neg hlog, if_neg hlog]
    exact Outward.pure () m m' h

theorem outward_log (entry : LogEntry) : Outward (log fun _ => entry) (log fun _ => entry) :=
  fun _ _ h => log_outward h rfl

/-- a change of the outside -/
theorem outward_changeWorld {f : World → World}
    (hf : ∀ m : Machine, Machine.mk m.interpreter (f m.world) = m.proceed (f m.outside) #[])
    (hclosed : ∀ w, (f w).closed = w.closed) : Outward (changeWorld f) (changeWorld f) := by
  intro m m' h
  refine ⟨.ok (), f m.outside, #[], congrArg _ (hf m), ?_, hclosed _⟩
  rw [← h]
  exact congrArg _ (hf m')

theorem outward_writeOut (operation t : Bytes) : Outward (writeOut operation t) (writeOut operation t) := by
  refine .bind (.asks fun m m' h => Machine.outside_congr (fun w => w.sink) (fun _ => rfl) h) fun sink => ?_
  rcases sink with _ | ⟨_ | left, reason⟩
  · exact outward_perform _
  · exact .raise _
  · refine .bind (outward_changeWorld (fun m => ?_) fun _ => rfl) fun _ => outward_perform _
    simp only [Machine.proceed, Machine.outside, Array.append_empty]

theorem outward_readLine (operation : Bytes) : Outward (readLine operation) (readLine operation) := by
  let take : Eval (Except Bytes Bytes) := Action.exchange fun m =>
    (m.world.input.readLine.1, { m with world := { m.world with input := m.world.input.readLine.2 } })
  have htake : Outward take take := by
    intro m m' h
    have hinput : m'.world.input = m.world.input := Machine.outside_congr World.input (fun _ => rfl) h
    refine ⟨.ok m.world.input.readLine.1, { m.outside with input := m.world.input.readLine.2 }, #[], ?_, ?_, rfl⟩
    · simp only [take, Action.exchange, Machine.proceed, Machine.outside, Array.append_empty]
    · rw [← h, ← hinput]
      simp only [take, Action.exchange, Machine.proceed, Machine.outside, Array.append_empty]
  refine .bind htake fun line => ?_
  cases line with
  | ok line => exact .pure _
  | error reason => exact .raise _

theorem outward_sleep (nanoseconds : Int) : Outward (sleep nanoseconds) (sleep nanoseconds) := by
  unfold sleep
  split
  · refine .bind (outward_changeWorld (fun m => ?_) fun _ => rfl) fun _ => outward_perform _
    simp only [Machine.proceed, Machine.outside, Array.append_empty]
  · exact .pure _

theorem outward_consult (call : GraphicsCall) : Outward (consult call) (consult call) := by
  intro m m' h
  have hgraphics : m'.world.graphics = m.world.graphics := Machine.outside_congr World.graphics (fun _ => rfl) h
  cases hbackend : m.world.graphics with
  | none =>
    have hrun : ∀ {m : Machine}, m.world.graphics = none → consult call m = (.ok none, m) := by
      intro m hnone
      simp only [consult, Action.exchange, hnone]
    rw [hrun hbackend, hrun (hgraphics.trans hbackend)]
    exact Outward.pure none m m' h
  | some backend =>
    refine ⟨.ok (backend.ask call).1, { m.outside with graphics := some (backend.ask call).2 }, #[], ?_, ?_, rfl⟩
    · simp only [consult, Action.exchange, hbackend, Machine.proceed, Machine.outside, Array.append_empty]
    · rw [← h]
      simp only [consult, Action.exchange, hgraphics.trans hbackend, Machine.proceed, Machine.outside, Array.append_empty]

theorem outward_heed (operation : Bytes) (refusal : Option Refusal) :
    Outward (heed operation refusal) (heed operation refusal) := by
  rcases refusal with _ | t | d
  · exact .pure _
  · exact .raise _
  · exact .fail d

theorem outward_draw (operation : Bytes) (call : GraphicsCall) : Outward (draw operation call) (draw operation call) :=
  .bind (outward_perform _) fun _ => .bind (outward_consult call) fun refusal => outward_heed operation refusal

theorem outward_needGraphics (operation : Bytes) : Outward (needGraphics operation) (needGraphics operation) := by
  have hmissing : ∀ m m' : Machine, m'.outside = m.outside → m'.world.graphics.isNone = m.world.graphics.isNone :=
    fun m m' h => Machine.outside_congr (fun w => w.graphics.isNone) (fun _ => rfl) h
  refine .bind (.asks hmissing) fun missing => ?_
  split
  · exact .raise _
  · exact .pure _

theorem outward_request (url : Bytes) : Outward (request url) (request url) := by
  intro m m' h
  have hweb : m'.world.web = m.world.web := Machine.outside_congr World.web (fun _ => rfl) h
  refine ⟨.ok (m.world.web.ask url).1, { m.outside with web := (m.world.web.ask url).2 }, #[], ?_, ?_, rfl⟩
  · simp only [request, Action.exchange, Machine.proceed, Machine.outside, Array.append_empty]
  · rw [← h, ← hweb]
    simp only [request, Action.exchange, Machine.proceed, Machine.outside, Array.append_empty]

end Eval

/-! ## Builtins -/

namespace Primitive

open Eval Deed

variable {p : Primitive} {v v' : Value}

theorem outward_stringArg (wanted : String) (h : v.Resembles v') :
    Outward (p.stringArg wanted v) (p.stringArg wanted v') := by
  cases h with
  | function => exact .raise _
  | refl =>
    cases v with
    | string t => exact .pure _
    | unit | number | bool | function | builtin | range | unknown => exact .raise _

theorem outward_numberArg (wanted : String) (h : v.Resembles v') :
    Outward (p.numberArg wanted v) (p.numberArg wanted v') := by
  cases h with
  | function => exact .raise _
  | refl =>
    cases v with
    | number n => exact .pure _
    | unit | string | bool | function | builtin | range | unknown => exact .raise _

theorem outward_intArg (h : v.Resembles v') : Outward (p.intArg v) (p.intArg v') := by
  cases h with
  | function => exact .raise _
  | refl =>
    cases v with
    | number n =>
      simp only [intArg]
      split
      · exact .pure _
      · exact .raise _
      · exact .raise _
    | unit | string | bool | function | builtin | range | unknown => exact .raise _

theorem outward_functionArg (wanted : String) (h : v.Resembles v') :
    Outward (p.functionArg wanted v) (p.functionArg wanted v') := by
  simp only [functionArg, h.isFunction, h.typeName]
  split
  · exact .pure _
  · exact .raise _

theorem outward_secondsArg (h : v.Resembles v') : Outward (p.secondsArg v) (p.secondsArg v') := by
  refine .bind (outward_numberArg _ h) fun n => ?_
  split
  · exact .raise _
  · exact .pure _

theorem outward_markArg {mark : Signature → Bool}
    (hmark : ∀ {s s' : Signature}, s'.isAsync = s.isAsync → s'.isGpu = s.isGpu → mark s' = mark s) (h : v.Resembles v') :
    Outward (p.markArg mark v) (p.markArg mark v') := by
  cases h with
  | function _ hasync hgpu =>
    simp only [markArg, hmark hasync hgpu]
    exact .pure _
  | refl =>
    cases v with
    | function f => exact .pure _
    | builtin b => exact .pure _
    | unit | number | string | bool | range | unknown => exact .raise _

theorem outward_drawing {args args' : Eval GraphicsCall} (h : Outward args args') :
    Outward (p.drawing args) (p.drawing args') := by
  refine .bind (outward_needGraphics _) fun _ => .bind h fun call => ?_
  exact .bind (outward_draw _ call) fun _ => .pure _

theorem outward_stringConcat {a a' b b' : Value} (ha : a.Resembles a') (hb : b.Resembles b') :
    Outward (run idle .stringConcat [a, b]) (run idle .stringConcat [a', b']) := by
  rcases run_stringConcat a b with ⟨t, u, rfl, rfl, -⟩ | ⟨hstrings, hrun⟩
  · cases ha
    cases hb
    exact .pure _
  rcases run_stringConcat a' b' with ⟨t, u, rfl, rfl, -⟩ | ⟨-, hrun'⟩
  · cases ha
    cases hb
    exact absurd ⟨t, u, rfl, rfl⟩ hstrings
  rw [hrun, hrun', ha.typeName, hb.typeName]
  exact .raise _

theorem outward_fetching (h : v.Resembles v') : Outward (run idle .httpGet [v]) (run idle .httpGet [v']) := by
  refine .bind (outward_stringArg _ h) fun url => ?_
  refine .bind (outward_request url) fun answer => ?_
  rcases answer with reason | ⟨status, body⟩
  · exact .raise _
  · refine .bind (outward_log _) fun _ => ?_
    split
    · exact .raise _
    · exact .pure _

theorem map_shown {vs vs' : List Value} (hvs : List.Forall₂ Value.Resembles vs vs') :
    vs'.map Value.shown = vs.map Value.shown := by
  induction hvs with
  | nil => rfl
  | cons h _ ih => rw [List.map_cons, List.map_cons, h.shown, ih]

/-- whether the builtin has to do with nothing but the outside and its arguments -/
def isOutward : Primitive → Bool
  | .spawn | .registerEvent | .triggerEvent => false
  | _ => true

/-- **Builtins and the outside.** A builtin other than the three that spawn, register and trigger does the same on
machines with the same outside, for arguments that it cannot tell apart. -/
theorem outward_run (hp : p.isOutward = true) {vs vs' : List Value} (hvs : List.Forall₂ Value.Resembles vs vs') :
    Outward (p.run idle vs) (p.run idle vs') := by
  cases p.given vs with
  | wrong harity hargs =>
    rw [run_of_length_ne harity hargs, run_of_length_ne harity (by rwa [← hvs.length_eq])]
    exact .pure _
  | print =>
    simp only [run, map_shown hvs]
    exact .bind (outward_writeOut _ _) fun _ => .pure _
  | len | stringLength =>
    rcases hvs with _ | ⟨hv, ⟨⟩⟩
    exact .bind (outward_stringArg _ hv) fun _ => .pure _
  | toString =>
    rcases hvs with _ | ⟨hv, ⟨⟩⟩
    simp only [run, hv.shown]
    exact .pure _
  | stringConcat =>
    rcases hvs with _ | ⟨ha, _ | ⟨hb, ⟨⟩⟩⟩
    exact outward_stringConcat ha hb
  | typeOf =>
    rcases hvs with _ | ⟨hv, ⟨⟩⟩
    simp only [run, hv.typeName]
    exact .pure _
  | isAsync =>
    rcases hvs with _ | ⟨hv, ⟨⟩⟩
    exact outward_markArg (fun hasync _ => hasync) hv
  | isGpu =>
    rcases hvs with _ | ⟨hv, ⟨⟩⟩
    exact outward_markArg (fun _ hgpu => hgpu) hv
  | getInput =>
    rcases hvs with _ | ⟨hv, ⟨⟩⟩
    refine .bind (outward_stringArg _ hv) fun prompt => ?_
    have hread : Outward (do return .string (← readLine (name .getInput)) : Eval Value)
        (do return .string (← readLine (name .getInput))) := .bind (outward_readLine _) fun _ => .pure _
    split
    · exact .bind (outward_writeOut _ _) fun _ => hread
    · exact hread
  | sleep =>
    rcases hvs with _ | ⟨hv, ⟨⟩⟩
    exact .bind (outward_secondsArg hv) fun _ => .bind (outward_sleep _) fun _ => .pure _
  | setTimeout =>
    rcases hvs with _ | ⟨hf, _ | ⟨hv, ⟨⟩⟩⟩
    refine .bind (outward_functionArg _ hf) fun _ => .bind (outward_secondsArg hv) fun _ => ?_
    exact .bind (outward_sleep _) fun _ => .pure _
  | clock =>
    cases hvs
    exact .bind (.asks fun m m' h => Machine.outside_congr (fun w => clockReading w.clock) (fun _ => rfl) h) fun _ => .pure _
  | graphicsInit =>
    rcases hvs with _ | ⟨hv, ⟨⟩⟩
    exact outward_drawing (.bind (outward_stringArg _ hv) fun _ => .pure _)
  | createWindow =>
    rcases hvs with _ | ⟨hw, _ | ⟨hh, _ | ⟨htitle, ⟨⟩⟩⟩⟩
    refine outward_drawing (.bind (outward_intArg hw) fun _ => .bind (outward_intArg hh) fun _ => ?_)
    exact .bind (outward_stringArg _ htitle) fun _ => .pure _
  | clear =>
    rcases hvs with _ | ⟨hr, _ | ⟨hg, _ | ⟨hb, _ | ⟨ha, ⟨⟩⟩⟩⟩⟩
    refine outward_drawing (.bind (outward_numberArg _ hr) fun _ => .bind (outward_numberArg _ hg) fun _ => ?_)
    exact .bind (outward_numberArg _ hb) fun _ => .bind (outward_numberArg _ ha) fun _ => .pure _
  | swapBuffers | graphicsShutdown =>
    cases hvs
    exact outward_drawing (.pure _)
  | httpGet =>
    rcases hvs with _ | ⟨hv, ⟨⟩⟩
    exact outward_fetching hv
  | spawn | registerEvent | triggerEvent => cases hp

end Primitive

end Ouroboros
