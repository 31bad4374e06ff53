/-
The record of calls in the debug log.

A call that is written in a program evaluates what is called, says that it is about to call, evaluates the arguments, says
that they are evaluated, and is carried out. A call that is carried out, also one that a builtin makes, says that its body
is executed, runs the body with one more active call, and says how the body ended and that the call is completed. All
lines of a call name the function, and each has the number of active calls.

So the deeds of a run that does not fail are those of well-nested calls (`Machine.exec_traced`), if the host's operations do
not get over failures: a call that has failed never says that it is completed (`Machine.exec_untraced`). `Eval.SourceCalls`
and `Eval.AppliedCall` are the grammar of these deeds and of the lines that they write. Each part of a call is what a task
does, on the machine that the deeds before it have made: the lines in front of "about to call" are those of evaluating what
is called, and "left by return" is said exactly of builtins and of functions whose statements ended by leaving the function.

The proof follows the tasks (`Eval.logs_runWithin`): the deeds of each are in the grammar, and the log grows by the lines
that the grammar has for them (`Eval.Writes`).
-/
import Ouroboros.Proofs.Execution.Idle
import Ouroboros.Proofs.Execution.Judgments
import Ouroboros.Proofs.Execution.Traversal

namespace Ouroboros

/-! ## Lines about calls -/

/-- a line that a call writes to the debug log -/
structure CallRecord where
  function : Bytes
  stage : Eval.CallStage
  /-- the number of active calls -/
  depth : Nat

namespace CallRecord

/-- the line -/
def entry (r : CallRecord) : LogEntry :=
  ⟨text "call", [(text "function", r.function), (text "state", r.stage.name), (text "depth", Bytes.ofNat r.depth)]⟩

/-- the lines of a call that is carried out, with those of its body -/
def ofCall (function : Bytes) (depth : Nat) (inner : List CallRecord) (stage : Eval.CallStage) : List CallRecord :=
  ⟨function, .bodyExecuting, depth + 1⟩ :: (inner ++ [⟨function, stage, depth⟩, ⟨function, .completed, depth⟩])

end CallRecord

/-- whether the line says that a call has reached the stage -/
def LogEntry.isAbout (stage : Eval.CallStage) (e : LogEntry) : Bool := e.fields[1]? = some (text "state", stage.name)

/-- the line about a call that the effect writes, if it writes one -/
def Effect.callEntry? : Effect → Option LogEntry
  | .log entry => if entry.message = text "call" then some entry else none
  | _ => none

namespace Machine

/-- the lines about calls in the debug log -/
def callLog (m : Machine) : List LogEntry := m.world.record.toList.filterMap Effect.callEntry?

/-- the machine when something else is recorded -/
def recorded (m : Machine) (e : Effect) : Machine := { m with world := { m.world with record := m.world.record.push e } }

theorem callLog_recorded (m : Machine) (e : Effect) : (m.recorded e).callLog = m.callLog ++ e.callEntry?.toList := by
  simp only [callLog, recorded, Array.toList_push, List.filterMap_append]
  cases h : e.callEntry? with
  | none => rw [List.filterMap_cons_none h, List.filterMap_nil, Option.toList_none]
  | some entry => rw [List.filterMap_cons_some h, List.filterMap_nil, Option.toList_some]

end Machine

namespace Deed

/-- the deeds of a call that is carried out, with those of its body -/
def ofCall (frame : Frame) (inner : List Deed) (stage : Eval.CallStage) : List Deed :=
  .enter frame :: .trace frame.name .bodyExecuting ::
    (inner ++ [.leave, .trace frame.name stage, .trace frame.name .completed])

/-- whether the deed has nothing to do with calls -/
def isSilent : Deed → Bool
  | .enter _ | .leave | .trace .. => false
  | .note entry => entry.message != text "call"
  | .openScope .. | .declare .. | .set .. | .builtin .. | .moveGlobal .. | .remember .. => true

end Deed

namespace Eval

/-! ## The grammar -/

/-- on the machine, the task gives `a`, and these are the deeds -/
def Task.Gives (t : Task) (m : Machine) (a : t.Answer) (ds : List Deed) : Prop :=
  ∃ n, Task.runWithin n t m = some (.ok a, ds)

mutual

/-- deeds of a program, done with `depth` active calls around it, and their lines: among other deeds, those of calls that
are written in the program, one after the other -/
inductive SourceCalls : Nat → Machine → List Deed → List CallRecord → Prop where
  | nil (depth : Nat) (m : Machine) : SourceCalls depth m [] []
  | deed {depth : Nat} {m : Machine} {d : Deed} {ds : List Deed} {rs : List CallRecord} (hd : d.isSilent = true)
      (rest : SourceCalls depth (d.effect m) ds rs) : SourceCalls depth m (d :: ds) rs
  | call {depth : Nat} {m : Machine} {ds ds' : List Deed} {rs rs' : List CallRecord} (first : SourceCall depth m ds rs)
      (rest : SourceCalls depth (performAll ds m) ds' rs') : SourceCalls depth m (ds ++ ds') (rs ++ rs')

/-- a call that is written in a program -/
inductive SourceCall : Nat → Machine → List Deed → List CallRecord → Prop where
  | intro {depth : Nat} {scope : ScopeId} {pos : Pos} {callee : Expr} {args : List Expr} {f : Value} {vs : List Value}
      {m m₁ m₂ : Machine} {calleeDeeds argDeeds callDeeds : List Deed}
      {calleeRecords argRecords callRecords : List CallRecord}
      (runsCallee : (Task.expr scope callee).Gives m f calleeDeeds)
      (calleeCalls : SourceCalls depth m calleeDeeds calleeRecords)
      (announced : m₁ = performAll (calleeDeeds ++ [.trace f.callName .aboutToCall]) m)
      (runsArgs : (Task.exprs scope args).Gives m₁ vs argDeeds)
      (argCalls : SourceCalls depth m₁ argDeeds argRecords)
      (prepared : m₂ = performAll (argDeeds ++ [.trace f.callName .argsEvaluated]) m₁)
      (applied : AppliedCall depth f vs pos m₂ callDeeds callRecords) :
      SourceCall depth m
        (calleeDeeds ++ .trace f.callName .aboutToCall :: (argDeeds ++ .trace f.callName .argsEvaluated :: callDeeds))
        (calleeRecords ++ ⟨f.callName, .aboutToCall, depth⟩ ::
          (argRecords ++ ⟨f.callName, .argsEvaluated, depth⟩ :: callRecords))

/-- a call that is carried out on a machine with `depth` active calls -/
inductive AppliedCall : Nat → Value → List Value → Pos → Machine → List Deed → List CallRecord → Prop where
  /-- a builtin returns -/
  | builtin {depth : Nat} {b : Builtin} {args : List Value} {pos : Pos} {m : Machine} {v : Value} {inner : List Deed}
      {rs : List CallRecord} (runsBody : (Task.body (.builtin b) args).Gives (m.inside b.name pos) (.returned v) inner)
      (calls : BuiltinCalls (depth + 1) (m.inside b.name pos) inner rs) :
      AppliedCall depth (.builtin b) args pos m (Deed.ofCall ⟨b.name, pos⟩ inner .returnSignal)
        (CallRecord.ofCall b.name depth rs .returnSignal)
  /-- the statements of a declared function end by leaving it -/
  | left {depth : Nat} {f : Closure} {args : List Value} {pos : Pos} {m : Machine} {v : Value} {inner : List Deed}
      {rs : List CallRecord} (runsBody : (Task.body (.declared f) args).Gives (m.inside f.sig.name pos) (.returned v) inner)
      (calls : SourceCalls (depth + 1) (m.inside f.sig.name pos) inner rs) :
      AppliedCall depth (.function f) args pos m (Deed.ofCall ⟨f.sig.name, pos⟩ inner .returnSignal)
        (CallRecord.ofCall f.sig.name depth rs .returnSignal)
  /-- the statements of a declared function run through -/
  | through {depth : Nat} {f : Closure} {args : List Value} {pos : Pos} {m : Machine} {v : Value} {inner : List Deed}
      {rs : List CallRecord} (runsBody : (Task.body (.declared f) args).Gives (m.inside f.sig.name pos) (.normal v) inner)
      (calls : SourceCalls (depth + 1) (m.inside f.sig.name pos) inner rs) :
      AppliedCall depth (.function f) args pos m (Deed.ofCall ⟨f.sig.name, pos⟩ inner .normalEnd)
        (CallRecord.ofCall f.sig.name depth rs .normalEnd)

/-- what a builtin does in its body, with `depth` active calls: it makes calls, and a host's operation may run programs -/
inductive BuiltinCalls : Nat → Machine → List Deed → List CallRecord → Prop where
  | nil (depth : Nat) (m : Machine) : BuiltinCalls depth m [] []
  | deed {depth : Nat} {m : Machine} {d : Deed} {ds : List Deed} {rs : List CallRecord} (hd : d.isSilent = true)
      (rest : BuiltinCalls depth (d.effect m) ds rs) : BuiltinCalls depth m (d :: ds) rs
  | call {depth : Nat} {f : Value} {args : List Value} {m : Machine} {ds ds' : List Deed} {rs rs' : List CallRecord}
      (first : AppliedCall depth f args .unknown m ds rs) (rest : BuiltinCalls depth (performAll ds m) ds' rs') :
      BuiltinCalls depth m (ds ++ ds') (rs ++ rs')
  | program {depth : Nat} {m : Machine} {ds ds' : List Deed} {rs rs' : List CallRecord} (first : SourceCalls depth m ds rs)
      (rest : BuiltinCalls depth (performAll ds m) ds' rs') : BuiltinCalls depth m (ds ++ ds') (rs ++ rs')

end

theorem performAll_concat (ds : List Deed) (d : Deed) (m : Machine) :
    performAll (ds ++ [d]) m = d.effect (performAll ds m) := performAll_append ds [d] m

theorem SourceCalls.append {depth : Nat} {ds' : List Deed} {rs' : List CallRecord} : {m : Machine} → {ds : List Deed} →
    {rs : List CallRecord} → SourceCalls depth m ds rs → SourceCalls depth (performAll ds m) ds' rs' →
    SourceCalls depth m (ds ++ ds') (rs ++ rs')
  | _, _, _, .nil .., h' => h'
  | _, _, _, .deed hd rest, h' => .deed hd (rest.append h')
  | _, _, _, .call first rest, h' => by
    rw [performAll_append] at h'
    rw [List.append_assoc, List.append_assoc]
    exact .call first (rest.append h')

theorem BuiltinCalls.append {depth : Nat} {ds' : List Deed} {rs' : List CallRecord} : {m : Machine} → {ds : List Deed} →
    {rs : List CallRecord} → BuiltinCalls depth m ds rs → BuiltinCalls depth (performAll ds m) ds' rs' →
    BuiltinCalls depth m (ds ++ ds') (rs ++ rs')
  | _, _, _, .nil .., h' => h'
  | _, _, _, .deed hd rest, h' => .deed hd (rest.append h')
  | _, _, _, .call first rest, h' => by
    rw [performAll_append] at h'
    rw [List.append_assoc, List.append_assoc]
    exact .call first (rest.append h')
  | _, _, _, .program first rest, h' => by
    rw [performAll_append] at h'
    rw [List.append_assoc, List.append_assoc]
    exact .program first (rest.append h')

/-! ## The lines of deeds -/

/-- active calls and the lines about calls are the same on both machines -/
structure Keeps (m m' : Machine) : Prop where
  frames : m'.interpreter.frames = m.interpreter.frames
  logging : m'.world.logging = m.world.logging
  callLog : m'.callLog = m.callLog

namespace Keeps

variable {m m' m'' : Machine}

theorem refl (m : Machine) : Keeps m m := ⟨rfl, rfl, rfl⟩

theorem trans (h : Keeps m m') (h' : Keeps m' m'') : Keeps m m'' :=
  ⟨h'.frames.trans h.frames, h'.logging.trans h.logging, h'.callLog.trans h.callLog⟩

theorem recorded (m : Machine) {e : Effect} (h : e.callEntry? = none) : Keeps m (m.recorded e) := by
  refine ⟨rfl, rfl, ?_⟩
  rw [m.callLog_recorded, h, Option.toList_none, List.append_nil]

end Keeps

/-- the step writes nothing about calls -/
def Silent {α : Type} (x : Eval α) : Prop := ∀ m, Keeps m (x m).2

namespace Silent

variable {α β : Type}

theorem bind {x : Eval α} {k : α → Eval β} (hx : Silent x) (hk : ∀ a, Silent (k a)) : Silent (x >>= k) := by
  intro m
  have h := hx m
  rw [Action.bind_apply]
  rcases hrun : x m with ⟨d | a, m₁⟩ <;> rw [hrun] at h
  · exact h
  · exact h.trans (hk a m₁)

theorem perform {e : Effect} (h : ∀ entry, e ≠ .log entry) : Silent (perform e) := by
  intro m
  refine .recorded m ?_
  cases e with
  | log entry => exact absurd rfl (h entry)
  | out | err | draw | sleep => rfl

theorem log {entry : Machine → LogEntry} (h : ∀ m, (entry m).message ≠ text "call") : Silent (log entry) := by
  intro m
  simp only [Eval.log, Action.change]
  split
  · exact .recorded m (if_neg (h m))
  · exact .refl m

theorem consult (call : GraphicsCall) : Silent (consult call) := by
  intro m
  simp only [Eval.consult, Action.exchange]
  split
  · exact .refl m
  · exact ⟨rfl, rfl, rfl⟩

theorem heed (operation : Bytes) (refusal : Option Refusal) : Silent (heed operation refusal) := by
  rcases refusal with _ | t | d <;> exact .refl

end Silent

theorem silent_rules : IdleRules @Silent where
  pure _ := .refl
  bind := .bind
  raise _ := .refl
  asks _ := .refl
  perform := .perform
  log := .log
  limitSink _ _ := ⟨rfl, rfl, rfl⟩
  passTime _ _ := ⟨rfl, rfl, rfl⟩
  takeLine _ := ⟨rfl, rfl, rfl⟩
  refuse operation call := .bind (.consult call) (.heed operation)
  request _ _ := ⟨rfl, rfl, rfl⟩
  schedule _ _ := ⟨rfl, rfl, rfl⟩
  addHandler _ _ _ := ⟨rfl, rfl, rfl⟩

theorem silent_act {d : Deed} (hd : d.isSilent = true) : Silent d.act := by
  cases d with
  | enter | leave | trace => cases hd
  | openScope parent bindings =>
    intro m
    rw [Deed.act_openScope]
    exact ⟨rfl, rfl, rfl⟩
  | declare scope d =>
    intro m
    rw [Deed.act_declare]
    split <;> exact ⟨rfl, rfl, rfl⟩
  | set | moveGlobal | remember => exact fun m => ⟨rfl, rfl, rfl⟩
  | builtin p args => exact silent_rules.run p args
  | note entry => exact .log fun _ => bne_iff_ne.mp hd

/-- the deeds restore the active calls, and write these lines about calls -/
structure Writes (m : Machine) (ds : List Deed) (rs : List CallRecord) : Prop where
  frames : (performAll ds m).interpreter.frames = m.interpreter.frames
  logging : (performAll ds m).world.logging = m.world.logging
  callLog : (performAll ds m).callLog = m.callLog ++ rs.map CallRecord.entry

/-- a machine with so many active calls, which keeps the debug log -/
structure Moment (depth : Nat) (m : Machine) : Prop where
  depth : m.interpreter.frames.length = depth
  logging : m.world.logging = true

namespace Writes

variable {m : Machine} {d : Deed} {ds ds' : List Deed} {rs rs' : List CallRecord}

theorem nil (m : Machine) : Writes m [] [] := ⟨rfl, rfl, (List.append_nil _).symm⟩

theorem append (h : Writes m ds rs) (h' : Writes (performAll ds m) ds' rs') : Writes m (ds ++ ds') (rs ++ rs') := by
  refine ⟨?_, ?_, ?_⟩
  · rw [performAll_append, h'.frames, h.frames]
  · rw [performAll_append, h'.logging, h.logging]
  · rw [performAll_append, h'.callLog, h.callLog, List.map_append, List.append_assoc]

theorem silent (hd : d.isSilent = true) (m : Machine) : Writes m [d] [] := by
  have h := silent_act hd m
  exact ⟨h.frames, h.logging, h.callLog.trans (List.append_nil _).symm⟩

end Writes

namespace Moment

variable {depth : Nat} {m : Machine} {ds : List Deed} {rs : List CallRecord}

theorem after (hm : Moment depth m) (h : Writes m ds rs) : Moment depth (performAll ds m) :=
  ⟨(congrArg List.length h.frames).trans hm.depth, h.logging.trans hm.logging⟩

/-- a line about a call -/
theorem trace (hm : Moment depth m) (function : Bytes) (stage : CallStage) :
    Writes m [.trace function stage] [⟨function, stage, depth⟩] := by
  let r : CallRecord := ⟨function, stage, depth⟩
  have hrun : performAll [.trace function stage] m = m.recorded (.log r.entry) := by
    simp only [performAll_cons, performAll_nil, Deed.effect, Deed.act, Eval.trace, log, Action.change, if_pos hm.logging,
      hm.depth]
    rfl
  refine ⟨?_, ?_, ?_⟩ <;> rw [hrun]
  · rfl
  · rfl
  · exact m.callLog_recorded _

/-- deeds, and then a line about a call -/
theorem spoken (hm : Moment depth m) (h : Writes m ds rs) (function : Bytes) (stage : CallStage) :
    Writes m (ds ++ [.trace function stage]) (rs ++ [⟨function, stage, depth⟩]) :=
  h.append ((hm.after h).trace function stage)

/-- a call is entered -/
theorem inside (hm : Moment depth m) (name : Bytes) (pos : Pos) :
    Moment (depth + 1) (m.inside name pos) ∧ (m.inside name pos).interpreter.frames = ⟨name, pos⟩ :: m.interpreter.frames ∧
      (m.inside name pos).callLog = m.callLog ++ [CallRecord.entry ⟨name, .bodyExecuting, depth + 1⟩] := by
  have hentered : Moment (depth + 1) (Eval.enter ⟨name, pos⟩ m).2 := ⟨congrArg (· + 1) hm.depth, hm.logging⟩
  have hline := hentered.trace name .bodyExecuting
  exact ⟨hentered.after hline, hline.frames, hline.callLog⟩

/-- a call that is carried out, around the deeds of its body -/
theorem ofCall (hm : Moment depth m) (name : Bytes) (pos : Pos) (stage : CallStage)
    (h : Writes (m.inside name pos) ds rs) :
    Writes m (Deed.ofCall ⟨name, pos⟩ ds stage) (CallRecord.ofCall name depth rs stage) := by
  obtain ⟨hinside, hframes, hlog⟩ := hm.inside name pos
  have hafter := hinside.after h
  -- the machine on which the call has been left
  let left := Deed.effect .leave (performAll ds (m.inside name pos))
  have hback : left.interpreter.frames = m.interpreter.frames := congrArg List.tail (h.frames.trans hframes)
  have hleft : Moment depth left := ⟨(congrArg List.length hback).trans hm.depth, hafter.logging⟩
  have hended := hleft.trace name stage
  have hlines : Writes left [.trace name stage, .trace name .completed] [⟨name, stage, depth⟩, ⟨name, .completed, depth⟩] :=
    hended.append ((hleft.after hended).trace name .completed)
  have hrun : performAll (Deed.ofCall ⟨name, pos⟩ ds stage) m = performAll [.trace name stage, .trace name .completed] left :=
    performAll_append ds _ (m.inside name pos)
  refine ⟨?_, ?_, ?_⟩
  · rw [hrun, ← hback]
    exact hlines.frames
  · rw [hrun, hm.logging, ← hleft.logging]
    exact hlines.logging
  · have hend : left.callLog = m.callLog ++ CallRecord.entry ⟨name, .bodyExecuting, depth + 1⟩ :: rs.map CallRecord.entry := by
      rw [List.append_cons, ← hlog]
      exact h.callLog
    simp only [hrun, hlines.callLog, hend, CallRecord.ofCall, List.map_cons, List.map_append, List.map_nil, List.append_assoc,
      List.cons_append]

end Moment

mutual

theorem SourceCalls.writes : {depth : Nat} → {m : Machine} → {ds : List Deed} → {rs : List CallRecord} → Moment depth m →
    SourceCalls depth m ds rs → Writes m ds rs
  | _, m, _, _, _, .nil .. => .nil m
  | _, m, _, _, hm, .deed hd rest => by
    have hdeed := Writes.silent hd m
    exact hdeed.append (rest.writes (hm.after hdeed))
  | _, _, _, _, hm, .call first rest => (first.writes hm).append (rest.writes (hm.after (first.writes hm)))

theorem SourceCall.writes : {depth : Nat} → {m : Machine} → {ds : List Deed} → {rs : List CallRecord} → Moment depth m →
    SourceCall depth m ds rs → Writes m ds rs
  | _, _, _, _, hm, .intro (f := f) _ calleeCalls announced _ argCalls prepared applied => by
    have hcallee := calleeCalls.writes hm
    have hannounced := hm.spoken hcallee f.callName .aboutToCall
    have hm₁ := announced ▸ hm.after hannounced
    have hargs := argCalls.writes hm₁
    have hprepared := hm₁.spoken hargs f.callName .argsEvaluated
    have happlied := applied.writes (prepared ▸ hm₁.after hprepared)
    subst announced prepared
    have hall := hannounced.append (hprepared.append happlied)
    simp only [List.append_assoc, List.singleton_append] at hall
    exact hall

theorem AppliedCall.writes : {depth : Nat} → {f : Value} → {args : List Value} → {pos : Pos} → {m : Machine} →
    {ds : List Deed} → {rs : List CallRecord} → Moment depth m → AppliedCall depth f args pos m ds rs → Writes m ds rs
  | _, _, _, pos, _, _, _, hm, .builtin (b := b) _ calls => hm.ofCall b.name pos _ (calls.writes (hm.inside b.name pos).1)
  | _, _, _, pos, _, _, _, hm, .left (f := f) _ calls =>
    hm.ofCall f.sig.name pos _ (calls.writes (hm.inside f.sig.name pos).1)
  | _, _, _, pos, _, _, _, hm, .through (f := f) _ calls =>
    hm.ofCall f.sig.name pos _ (calls.writes (hm.inside f.sig.name pos).1)

theorem BuiltinCalls.writes : {depth : Nat} → {m : Machine} → {ds : List Deed} → {rs : List CallRecord} → Moment depth m →
    BuiltinCalls depth m ds rs → Writes m ds rs
  | _, m, _, _, _, .nil .. => .nil m
  | _, m, _, _, hm, .deed hd rest => by
    have hdeed := Writes.silent hd m
    exact hdeed.append (rest.writes (hm.after hdeed))
  | _, _, _, _, hm, .call first rest => (first.writes hm).append (rest.writes (hm.after (first.writes hm)))
  | _, _, _, _, hm, .program first rest => (first.writes hm).append (rest.writes (hm.after (first.writes hm)))

end

/-! ## The deeds of tasks -/

/-- what deeds are, done with so many active calls on a machine, and what their lines are -/
abbrev Grammar : Type := Nat → Machine → List Deed → List CallRecord → Prop

/-- the grammar takes deeds that have nothing to do with calls, and takes deeds behind others -/
structure Grammar.Closed (G : Grammar) : Prop where
  nil : ∀ depth m, G depth m [] []
  deed : ∀ {depth m d}, d.isSilent = true → G depth m [d] []
  append : ∀ {depth m ds ds' rs rs'}, G depth m ds rs → G depth (performAll ds m) ds' rs' → G depth m (ds ++ ds') (rs ++ rs')
  writes : ∀ {depth m ds rs}, Moment depth m → G depth m ds rs → Writes m ds rs

theorem closed_sourceCalls : Grammar.Closed SourceCalls where
  nil := .nil
  deed hd := .deed hd (.nil ..)
  append := .append
  writes := SourceCalls.writes

theorem closed_builtinCalls : Grammar.Closed BuiltinCalls where
  nil := .nil
  deed hd := .deed hd (.nil ..)
  append := .append
  writes := BuiltinCalls.writes

end Eval

namespace Course

open Eval

variable {α β : Type} {G G' : Grammar} {S : α → Prop} {T : β → Prop}

/-- when the host's operations do not get over failures, and the course comes to something of which `S` holds, its deeds are
in the grammar -/
def Logs (S : α → Prop) (G : Grammar) (x : Course α) : Prop := ∀ depth m a ds, Moment depth m → m.world.HostsPassOn →
  x m = some (.ok a, ds) → S a → ∃ rs, G depth m ds rs

/-- whatever it comes to -/
abbrev LogsAll (G : Grammar) ⦃α : Type⦄ (x : Course α) : Prop := x.Logs (fun _ => True) G

theorem hostsPassOn_performAll {m : Machine} (h : m.world.HostsPassOn) (ds : List Deed) :
    (performAll ds m).world.HostsPassOn := by
  rw [World.HostsPassOn, hosts_performAll]
  exact h

namespace Logs

theorem weaken {x : Course α} (hx : x.Logs S G) (hG : ∀ {depth m ds rs}, G depth m ds rs → G' depth m ds rs) :
    x.Logs S G' := by
  intro depth m a ds hm hhosts h ha
  obtain ⟨rs, hrs⟩ := hx depth m a ds hm hhosts h ha
  exact ⟨rs, hG hrs⟩

theorem mono {S' : α → Prop} {x : Course α} (hx : x.Logs S' G) (hS : ∀ a, S a → S' a) : x.Logs S G :=
  fun depth m a ds hm hhosts h ha => hx depth m a ds hm hhosts h (hS a ha)

/-- one course and then another, which fails or is no success when the first is none -/
theorem andThen (hG : G.Closed) {x : Course α} {k : α → Course β} (hx : x.Logs S G) (hk : ∀ a, S a → (k a).Logs T G)
    (hstops : ∀ a m b ds, ¬S a → k a m = some (.ok b, ds) → ¬T b) : (x >>= k).Logs T G := by
  intro depth m b ds hm hhosts h hb
  obtain ⟨a, ds₁, ds₂, hfirst, hnext, rfl⟩ := bind_eq_ok h
  have ha : S a := not_not.mp fun ha => hstops a _ b ds₂ ha hnext hb
  obtain ⟨rs, hrs⟩ := hx depth m a ds₁ hm hhosts hfirst ha
  have hm' := hm.after (hG.writes hm hrs)
  obtain ⟨rs', hrs'⟩ := hk a ha depth _ b ds₂ hm' (hostsPassOn_performAll hhosts ds₁) hnext hb
  exact ⟨rs ++ rs', hG.append hrs hrs'⟩

theorem bind (hG : G.Closed) {x : Course α} {k : α → Course β} (hx : x.LogsAll G) (hk : ∀ a, (k a).Logs T G) :
    (x >>= k).Logs T G := hx.andThen hG (fun a _ => hk a) fun _ _ _ _ h => absurd trivial h

/-- a course without deeds -/
theorem of_idle (hG : G.Closed) {x : Course α} (h : ∀ m a ds, x m = some (.ok a, ds) → ds = []) : x.Logs S G := by
  intro depth m a ds _ _ hx _
  rw [h m a ds hx]
  exact ⟨[], hG.nil depth m⟩

theorem pure (hG : G.Closed) (a : α) : (Pure.pure a : Course α).Logs S G := by
  refine of_idle hG ?_
  rintro m b ds ⟨⟩
  rfl

theorem fail (hG : G.Closed) (d : Diagnostic) : (Course.fail d : Course α).Logs S G := by
  refine of_idle hG ?_
  rintro m b ds ⟨⟩

theorem asks (hG : G.Closed) (f : Machine → α) : (Course.asks f).Logs S G := by
  refine of_idle hG ?_
  rintro m b ds ⟨⟩
  rfl

theorem deed (hG : G.Closed) {d : Deed} (hd : d.isSilent = true) {S : d.Answer → Prop} : (Course.deed d).Logs S G := by
  intro depth m a ds _ _ h _
  obtain ⟨-, rfl⟩ := Prod.mk.inj (Option.some.inj h)
  exact ⟨[], hG.deed hd⟩

/-- what succeeds as `S` says, when nothing is said of failures -/
theorem attempt {x : Course α} (hx : x.LogsAll G) : (Course.attempt x).Logs (fun r => ∃ a, r = .ok a) G := by
  rintro depth m r ds hm hhosts h ⟨a, rfl⟩
  exact hx depth m a ds hm hhosts (attempt_eq_ok h) trivial

end Logs

end Course

namespace Eval

theorem AppliedCall.made {depth : Nat} {f : Value} {args : List Value} {m : Machine} {ds : List Deed} {rs : List CallRecord}
    (h : AppliedCall depth f args .unknown m ds rs) : BuiltinCalls depth m ds rs := by
  have hcalls := BuiltinCalls.call h (.nil depth _)
  rw [List.append_nil, List.append_nil] at hcalls
  exact hcalls

theorem SourceCalls.made {depth : Nat} {m : Machine} {ds : List Deed} {rs : List CallRecord}
    (h : SourceCalls depth m ds rs) : BuiltinCalls depth m ds rs := by
  have hcalls := BuiltinCalls.program h (.nil depth _)
  rw [List.append_nil, List.append_nil] at hcalls
  exact hcalls

theorem logs_rules {G : Grammar} (hG : G.Closed) : CourseRules (Course.LogsAll G) where
  pure := .pure hG
  fail := .fail hG
  reads f := .of_idle hG fun m a ds h => (Prod.mk.inj (Option.some.inj h)).2.symm
  bind := .bind hG
  deed {d} h := by
    cases d with
    | openScope | declare | set | builtin => exact .deed hG rfl
    | enter | leave | trace | moveGlobal | note | remember => cases h

/-- what the deeds of a task are -/
def Task.grammar : Task → Grammar
  | .call f args pos => fun depth m ds rs => AppliedCall depth f args pos m ds rs
  | .body (.builtin _) _ | .handlers _ => BuiltinCalls
  | .owner .. | .expr .. | .exprs .. | .stmt .. | .stmts .. | .rounds .. | .body (.declared _) _ | .copy .. | .program .. =>
    SourceCalls

/-- whether the task has not failed; a failure of a program is something that it gives -/
def Task.Succeeds : (t : Task) → t.Answer → Prop
  | .program .., (a : Except Diagnostic Value × ScopeId) => ∃ v, a.1 = .ok v
  | .owner .., _ | .expr .., _ | .exprs .., _ | .stmt .., _ | .stmts .., _ | .rounds .., _ | .call .., _ | .body .., _
  | .handlers .., _ | .copy .., _ => True

/-- a builtin returns -/
theorem body_builtin {n : Nat} {b : Builtin} {args : List Value} {m : Machine} {c : Completion} {ds : List Deed}
    (h : Task.runWithin n (.body (.builtin b) args) m = some (.ok c, ds)) : ∃ v, c = .returned v := by
  cases n with
  | zero => cases h
  | succ n =>
    obtain ⟨v, _, _, -, h, -⟩ := Course.bind_eq_ok h
    cases h
    exact ⟨v, rfl⟩

/-- a call that is left with a value says how its body ended, and that it is completed -/
theorem settle_eq_ok {callee : Callee} {pos : Pos} {r : Except Diagnostic Completion} {m : Machine} {v : Value} {ds : List Deed}
    (h : Course.settle callee pos r m = some (.ok v, ds)) :
    ∃ c, r = .ok c ∧ ds = [.leave, .trace callee.name c.stage, .trace callee.name .completed] := by
  rcases r with d | v | v
  · cases h
  · cases h
    exact ⟨_, rfl, rfl⟩
  · cases h
    exact ⟨_, rfl, rfl⟩

section

variable {n : Nat} (hrun : ∀ t, (Task.runWithin n t).Logs t.Succeeds t.grammar)

include hrun

theorem logs_inside {G : Grammar} (hG : ∀ {depth m ds rs}, SourceCalls depth m ds rs → G depth m ds rs) :
    HoldsInside (Course.LogsAll G) (Task.runWithin n) where
  owner scope name := (hrun (.owner scope name)).weaken hG
  expr scope e := (hrun (.expr scope e)).weaken hG
  exprs scope es := (hrun (.exprs scope es)).weaken hG
  stmt scope s := (hrun (.stmt scope s)).weaken hG
  stmts scope ss last := (hrun (.stmts scope ss last)).weaken hG
  rounds scope var body next high := (hrun (.rounds scope var body next high)).weaken hG
  copy id c := (hrun (.copy id c)).weaken hG

/-! ### Programs -/

/-- a call that is written in a program -/
theorem logs_callExpr (scope : ScopeId) (pos : Pos) (callee : Expr) (args : List Expr) :
    (Course.expr (Task.runWithin n) scope (.call pos callee args)).LogsAll SourceCalls := by
  intro depth m v ds hm hhosts h _
  obtain ⟨f, calleeDeeds, _, hf, h₁, rfl⟩ := Course.bind_eq_ok h
  obtain ⟨_, rfl, h₂⟩ := Course.deed_bind (.trace f.callName .aboutToCall) (a := ()) rfl h₁
  obtain ⟨vs, argDeeds, _, hvs, h₃, rfl⟩ := Course.bind_eq_ok h₂
  obtain ⟨callDeeds, rfl, hcall⟩ := Course.deed_bind (.trace f.callName .argsEvaluated) (a := ()) rfl h₃
  rw [← performAll_concat] at hvs hcall
  rw [← performAll_concat] at hcall
  obtain ⟨calleeRecords, hcallee⟩ := hrun (.expr scope callee) depth m f calleeDeeds hm hhosts hf trivial
  have hm₁ := hm.after (hm.spoken (hcallee.writes hm) f.callName .aboutToCall)
  have hhosts₁ := Course.hostsPassOn_performAll hhosts (calleeDeeds ++ [.trace f.callName .aboutToCall])
  obtain ⟨argRecords, hargs⟩ := hrun (.exprs scope args) depth _ vs argDeeds hm₁ hhosts₁ hvs trivial
  have hm₂ := hm₁.after (hm₁.spoken (hargs.writes hm₁) f.callName .argsEvaluated)
  obtain ⟨callRecords, happlied⟩ := hrun (.call f vs pos) depth _ v callDeeds hm₂
    (Course.hostsPassOn_performAll (Course.hostsPassOn_performAll hhosts _) _) hcall trivial
  have hsource := SourceCall.intro ⟨n, hf⟩ hcallee rfl ⟨n, hvs⟩ hargs rfl happlied
  have hcalls := SourceCalls.call hsource (.nil depth _)
  rw [List.append_nil] at hcalls
  exact ⟨_, hcalls⟩

theorem logs_program (scope : ScopeId) (ss : List Stmt) (last : Value) :
    (Course.program (Task.runWithin n) scope ss last).Logs (fun a => ∃ v, a.1 = .ok v) SourceCalls := by
  cases ss with
  | nil => exact .pure closed_sourceCalls _
  | cons s rest =>
    refine (hrun (.stmt scope s)).attempt.andThen closed_sourceCalls ?_ ?_
    · rintro _ ⟨⟨inner, v | v⟩, rfl⟩
      · exact hrun (.program inner rest v)
      · exact .pure closed_sourceCalls _
    · intro r m b ds hr h
      rcases r with d | a
      · cases h
        exact nofun
      · exact absurd ⟨a, rfl⟩ hr

theorem logs_exec (p : Program) (scope : Option ScopeId) :
    (Course.exec (Task.runWithin n) p scope).Logs (fun r => ∀ ds, r = .error ds → ds = []) SourceCalls := by
  have R := logs_rules closed_sourceCalls
  unfold Course.exec
  split
  · refine .bind closed_sourceCalls (R.asks _) fun first => ?_
    refine (hrun (.program first p.stmts .unit)).andThen closed_sourceCalls (fun r _ => ?_) fun r m b ds hr h => ?_
    · refine .bind closed_sourceCalls (R.asks _) fun global => ?_
      dsimp only
      split
      · exact .bind closed_sourceCalls (.deed closed_sourceCalls (d := .moveGlobal _) rfl) fun _ => .pure closed_sourceCalls _
      · exact .pure closed_sourceCalls _
    · rcases r with ⟨d | v, last⟩
      · have h : (Course.asks (fun m => m.interpreter.global) >>= _) m = some (.ok b, ds) := h
        rw [Course.asks_bind] at h
        dsimp only at h
        split at h
        · obtain ⟨_, -, h⟩ := Course.deed_bind (.moveGlobal last) (a := ()) rfl h
          cases h
          exact fun hb => List.cons_ne_nil _ _ (hb _ rfl)
        · cases h
          exact fun hb => List.cons_ne_nil _ _ (hb _ rfl)
      · exact absurd ⟨v, rfl⟩ hr
  · exact .pure closed_sourceCalls _

theorem logs_execSource (name source : Bytes) :
    (Course.execSource (Task.runWithin n) name source).Logs (fun r => ∀ ds, r = .error ds → ds = []) SourceCalls := by
  refine .bind closed_sourceCalls (.deed closed_sourceCalls (d := .note _) ?_) fun _ => logs_exec hrun _ none
  have hexec : (text "exec" != text "call") = true := by decide
  have hfailed : (text "parse failed" != text "call") = true := by decide
  simp only [Deed.isSilent, sourceNote]
  split
  · exact hexec
  · exact hfailed

/-! ### Builtins -/

theorem logs_handlers (hs : List Value) : (Course.handlers (Task.runWithin n) hs).LogsAll BuiltinCalls := by
  cases hs with
  | nil => exact .pure closed_builtinCalls _
  | cons h rest =>
    exact .bind closed_builtinCalls ((hrun (.call h [] .unknown)).weaken AppliedCall.made) fun _ => hrun (.handlers rest)

theorem logs_primitive (p : Primitive) (args : List Value) :
    (Course.primitive (Task.runWithin n) p args).LogsAll BuiltinCalls := by
  have R := logs_rules closed_builtinCalls
  have hidle : (Course.deed (.builtin p args)).LogsAll BuiltinCalls := R.deed (d := .builtin p args) rfl
  unfold Course.primitive
  split
  · exact hidle
  · exact R.bind hidle fun _ => (hrun (.call _ [] .unknown)).weaken AppliedCall.made
  · exact R.bind (R.asks _) fun hs => R.bind hidle fun v => R.bind (hrun (.handlers hs)) fun _ => R.pure _
  · exact R.bind (R.asks _) fun c => R.bind ((hrun (.copy _ c)).weaken SourceCalls.made) fun _ => hidle

/-- a host's question that is answered without a failure -/
theorem logs_answer (r : HostRequest) :
    (Course.answer (Task.runWithin n) r).Logs (fun a => r.failures a = []) BuiltinCalls := by
  have R := logs_rules closed_builtinCalls
  have I := logs_inside hrun SourceCalls.made
  cases r with
  | call f args =>
    refine .mono ((hrun (.call f args .unknown)).weaken AppliedCall.made).attempt ?_
    rintro (d | v) ha
    · cases ha
    · exact ⟨v, rfl⟩
  | exec p scope =>
    refine .mono ((logs_exec hrun p scope).weaken SourceCalls.made) ?_
    rintro _ ha ds rfl
    exact ha
  | execSource name source =>
    refine .mono ((logs_execSource hrun name source).weaken SourceCalls.made) ?_
    rintro _ ha ds rfl
    exact ha
  | register name arity index =>
    exact .mono (R.bind (R.asks _) fun core => R.bindHere core name _) fun _ _ => trivial
  | define scope name v => exact .mono (R.bindHere scope name v) fun _ _ => trivial
  | set scope name v => exact .mono (R.setVisible I scope name v) fun _ _ => trivial
  | lookUp scope name => exact .mono (R.lookUp I scope name) fun _ _ => trivial
  | core | global | kept => exact .asks closed_builtinCalls _
  | newScope parent => exact .deed closed_builtinCalls (d := .openScope ..) rfl
  | remember vs => exact .deed closed_builtinCalls (d := .remember vs) rfl

theorem logs_host {action : HostAction} (h : action.PassesOn) :
    (Course.host (Task.runWithin n) action).LogsAll BuiltinCalls := by
  induction action with
  | answer v => exact .pure closed_builtinCalls v
  | fail d => exact .fail closed_builtinCalls d
  | ask r next ih =>
    refine (logs_answer hrun r).andThen closed_builtinCalls (fun a _ => ih a (h a).2) fun a m b ds ha hnext => ?_
    rcases (h a).1 with hnone | ⟨d, -, hd⟩
    · exact absurd hnone ha
    · rw [hd] at hnext
      cases hnext

theorem logs_builtin (b : Builtin) (args : List Value) :
    (Course.builtin (Task.runWithin n) b args).LogsAll BuiltinCalls := by
  obtain ⟨name, arity, p | index⟩ := b
  · exact logs_primitive hrun p args
  · intro depth m v ds hm hhosts h _
    rw [← Builtin.ofHost, Course.builtin_ofHost] at h
    cases hoperation : m.world.hosts[index]? with
    | none =>
      rw [hoperation] at h
      exact (logs_rules closed_builtinCalls).pure _ depth m v ds hm hhosts h trivial
    | some operation =>
      rw [hoperation] at h
      have hpasses := hhosts operation (Array.mem_of_getElem? hoperation) args
      exact logs_host hrun hpasses depth m v ds hm hhosts h trivial

/-! ### Calls -/

theorem logs_body (callee : Callee) (args : List Value) :
    (Course.body (Task.runWithin n) args callee).LogsAll (Task.body callee args).grammar := by
  cases callee with
  | declared f =>
    refine .bind closed_sourceCalls (.deed closed_sourceCalls (d := .openScope ..) rfl) fun scope => ?_
    exact hrun (.stmts scope f.body .unit)
  | builtin b => exact .bind closed_builtinCalls (logs_builtin hrun b args) fun v => .pure closed_builtinCalls _

theorem logs_call (f : Value) (args : List Value) (pos : Pos) :
    (Course.call (Task.runWithin n) f args pos).LogsAll (Task.call f args pos).grammar := by
  intro depth m v ds hm hhosts h _
  rw [Course.call] at h
  cases hcallee : calleeFor f args with
  | error fault =>
    rw [hcallee] at h
    cases h
  | ok callee =>
    simp only [hcallee] at h
    rw [Course.asks_bind] at h
    split at h
    · cases h
    obtain ⟨_, rfl, hentered⟩ := Course.deed_bind (.enter ⟨callee.name, pos⟩) (a := ()) rfl h
    obtain ⟨_, rfl, hstarted⟩ := Course.deed_bind (.trace callee.name .bodyExecuting) (a := ()) rfl hentered
    obtain ⟨r, inner, _, hbody, hsettle, rfl⟩ := Course.bind_eq_ok hstarted
    obtain ⟨c, rfl, rfl⟩ := settle_eq_ok hsettle
    have hbody := Course.attempt_eq_ok hbody
    have hinside := (hm.inside callee.name pos).1
    have hhosts' : (m.inside callee.name pos).world.HostsPassOn :=
      Course.hostsPassOn_performAll hhosts [.enter ⟨callee.name, pos⟩, .trace callee.name .bodyExecuting]
    obtain ⟨rs, hrs⟩ := hrun (.body callee args) (depth + 1) (m.inside callee.name pos) c inner hinside hhosts' hbody trivial
    have hf := of?_of_calleeFor hcallee
    cases f with
    | unit | number | string | bool | range | unknown => cases hf
    | builtin b =>
      cases hf
      obtain ⟨w, rfl⟩ := body_builtin hbody
      exact ⟨_, .builtin ⟨n, hbody⟩ hrs⟩
    | function f =>
      cases hf
      cases c with
      | returned w => exact ⟨_, .left ⟨n, hbody⟩ hrs⟩
      | normal w => exact ⟨_, .through ⟨n, hbody⟩ hrs⟩

end

/-- **The deeds of a task are those of well-nested calls.** -/
theorem logs_runWithin (n : Nat) (t : Task) : (Task.runWithin n t).Logs t.Succeeds t.grammar := by
  induction n generalizing t with
  | zero => exact fun _ _ _ _ _ _ h => by cases h
  | succ n ih =>
    have R := logs_rules closed_sourceCalls
    have I := logs_inside ih id
    cases t with
    | owner scope name => exact R.owner I scope name
    | expr scope e =>
      refine R.expr I scope e ?_
      rintro pos callee args rfl
      exact logs_callExpr ih scope pos callee args
    | exprs scope es => exact R.exprs I scope es
    | stmt scope s => exact R.stmt I scope s
    | stmts scope ss last => exact R.stmts I scope ss last
    | rounds scope var ss next high => exact R.rounds I scope var ss next high
    | call f args pos => exact logs_call ih f args pos
    | body callee args => exact logs_body ih callee args
    | handlers hs => exact logs_handlers ih hs
    | copy id c => exact R.copy I id c
    | program scope ss last => exact logs_program ih scope ss last

/-! ## Calls are completed -/

theorem CallStage.name_injective : Function.Injective CallStage.name := by
  intro s s' h
  cases s <;> cases s' <;> first | rfl | exact absurd h (by decide)

theorem countP_entries (stage : CallStage) (rs : List CallRecord) :
    (rs.map CallRecord.entry).countP (LogEntry.isAbout stage) = rs.countP fun r => r.stage = stage := by
  rw [List.countP_map]
  refine List.countP_congr fun r _ => ?_
  simp [LogEntry.isAbout, CallRecord.entry, CallStage.name_injective.eq_iff]

/-- as many bodies are begun as calls are completed -/
def IsBalanced (rs : List CallRecord) : Prop :=
  rs.countP (fun r => r.stage = .bodyExecuting) = rs.countP fun r => r.stage = .completed

namespace IsBalanced

variable {rs rs' : List CallRecord}

theorem nil : IsBalanced [] := rfl

theorem append (h : IsBalanced rs) (h' : IsBalanced rs') : IsBalanced (rs ++ rs') := by
  simp only [IsBalanced, List.countP_append] at h h' ⊢
  rw [h, h']

theorem ofCall (function : Bytes) (depth : Nat) {inner : List CallRecord} {stage : CallStage} (h : IsBalanced inner)
    (hstage : stage = .returnSignal ∨ stage = .normalEnd) : IsBalanced (CallRecord.ofCall function depth inner stage) := by
  simp only [IsBalanced] at h
  rcases hstage with rfl | rfl <;> simp [IsBalanced, CallRecord.ofCall, h]

end IsBalanced

mutual

theorem SourceCalls.balanced : {depth : Nat} → {m : Machine} → {ds : List Deed} → {rs : List CallRecord} →
    SourceCalls depth m ds rs → IsBalanced rs
  | _, _, _, _, .nil .. => .nil
  | _, _, _, _, .deed _ rest => rest.balanced
  | _, _, _, _, .call first rest => first.balanced.append rest.balanced

theorem SourceCall.balanced : {depth : Nat} → {m : Machine} → {ds : List Deed} → {rs : List CallRecord} →
    SourceCall depth m ds rs → IsBalanced rs
  | depth, _, _, _, .intro (f := f) _ calleeCalls _ _ argCalls _ applied => by
    have hannounced : IsBalanced [⟨f.callName, .aboutToCall, depth⟩] := rfl
    have hprepared : IsBalanced [⟨f.callName, .argsEvaluated, depth⟩] := rfl
    exact calleeCalls.balanced.append (hannounced.append (argCalls.balanced.append (hprepared.append applied.balanced)))

theorem AppliedCall.balanced : {depth : Nat} → {f : Value} → {args : List Value} → {pos : Pos} → {m : Machine} →
    {ds : List Deed} → {rs : List CallRecord} → AppliedCall depth f args pos m ds rs → IsBalanced rs
  | _, _, _, _, _, _, _, .builtin _ calls => calls.balanced.ofCall _ _ (.inl rfl)
  | _, _, _, _, _, _, _, .left _ calls => calls.balanced.ofCall _ _ (.inl rfl)
  | _, _, _, _, _, _, _, .through _ calls => calls.balanced.ofCall _ _ (.inr rfl)

theorem BuiltinCalls.balanced : {depth : Nat} → {m : Machine} → {ds : List Deed} → {rs : List CallRecord} →
    BuiltinCalls depth m ds rs → IsBalanced rs
  | _, _, _, _, .nil .. => .nil
  | _, _, _, _, .deed _ rest => rest.balanced
  | _, _, _, _, .call first rest => first.balanced.append rest.balanced
  | _, _, _, _, .program first rest => first.balanced.append rest.balanced

end

end Eval

/-! ## Programs -/

namespace Machine

open Eval

/-- **The record of calls is well nested.** Let a program run on a well-formed machine that keeps the debug log, with any
number of active calls, let the host's operations not get over failures, and let the run not fail. What is done then are the
deeds of calls that are written in programs, one after the other, and the lines that the run adds about calls are theirs.
Each such call has the lines of evaluating what is called, "about to call", the lines of the arguments, "arguments
evaluated", and the lines of the call itself, which are "body executing" one call deeper, the lines of the body there, and
in the end "return signal" or "normal end", and "completed". Builtins and functions that are left say "return signal",
functions whose statements run through say "normal end", and all lines of a call name the function. -/
theorem exec_traced {m m' : Machine} {p : Program} {scope : Option ScopeId} {v : Value} (hm : m.WellFormed)
    (hscope : ∀ s, scope = some s → s < m.size) (hlog : m.world.logging = true) (hhosts : m.world.HostsPassOn)
    (h : m.exec p scope = (.ok v, m')) : ∃ N deeds rs,
      (∀ n, N ≤ n → (Operation.exec p scope).runWithin n m = some (.ok (.ok v), deeds)) ∧ performAll deeds m = m' ∧
      SourceCalls m.interpreter.frames.length m deeds rs ∧ m'.callLog = m.callLog ++ rs.map CallRecord.entry := by
  obtain ⟨N, deeds, hends, hdeeds, -⟩ := (Operation.exec p scope).exists_effort hm hscope
  rw [Operation.perform, h] at hends hdeeds
  have hmoment : Moment m.interpreter.frames.length m := ⟨rfl, hlog⟩
  obtain ⟨rs, hcalls⟩ := logs_exec (logs_runWithin N) p scope _ m (.ok v) deeds hmoment hhosts (hends N (Nat.le_refl N)) nofun
  obtain rfl : performAll deeds m = m' := hdeeds
  exact ⟨N, deeds, rs, hends, rfl, hcalls, (hcalls.writes hmoment).callLog⟩

/-- a machine that keeps the debug log -/
def noting : Machine := start { World.fresh with logging := true } 10

theorem wellFormed_noting : noting.WellFormed := by
  have h := wellFormed_start 10
  exact ⟨h.store, h.core, h.global, h.handlers, h.hosts, h.memory⟩

/-- the machine with an operation that passes on what a function gives -/
def relayer : Machine := noting.register (text "relay") none .relaying

/-- calls in arguments, in bodies, and made by builtins and by the host; of the functions one is left and the other runs
through -/
def chained : Program := Program.ofSource <|
  text "fn twice(n) \x7b return n + n; \x7d fn tell() \x7b print(twice(len(\"ab\"))); \x7d " ++
    text "register_event(\"go\", tell); trigger_event(\"go\"); set_timeout(tell, 0); relay(tell);"

theorem exec_traced_chained :
    relayer.WellFormed ∧ (∀ s, (none : Option ScopeId) = some s → s < relayer.size) ∧ relayer.world.logging = true ∧
    relayer.world.HostsPassOn ∧ ∃ v m' N deeds rs, relayer.exec chained none = (.ok v, m') ∧ m'.callLog.length = 74 ∧
      (∀ n, N ≤ n → (Operation.exec chained none).runWithin n relayer = some (.ok (.ok v), deeds)) ∧
      performAll deeds relayer = m' ∧ SourceCalls relayer.interpreter.frames.length relayer deeds rs ∧
      m'.callLog = relayer.callLog ++ rs.map CallRecord.entry := by
  have hwell : relayer.WellFormed := wellFormed_noting.register _ _ (HostOperation.within_relaying _)
  have hhosts : relayer.world.HostsPassOn := by
    intro operation h args
    obtain rfl := List.mem_singleton.mp (Array.mem_toList_iff.mpr h)
    exact HostOperation.passesOn_relaying args
  have hscope : ∀ s, (none : Option ScopeId) = some s → s < relayer.size := nofun
  have hok : (relayer.exec chained none).1.isOk = true := by decide +kernel
  have hcount : (relayer.exec chained none).2.callLog.length = 74 := by decide +kernel
  rcases hrun : relayer.exec chained none with ⟨ds | v, m'⟩ <;> rw [hrun] at hok hcount
  · cases hok
  · obtain ⟨N, deeds, rs, htraced⟩ := exec_traced hwell hscope rfl hhosts hrun
    exact ⟨hwell, hscope, rfl, hhosts, v, m', N, deeds, rs, rfl, hcount, htraced⟩

/-- the machine with an operation that gets over failures -/
def tried : Machine := noting.register (text "try") none .trying

/-- a function fails, and the host gets over it -/
def failingOnce : Program := Program.ofSource (text "fn f() \x7b y; \x7d try(f);")

/-- The call of the function never says that it is completed, and so the lines are those of no well-nested calls, although
the program does not fail. -/
theorem exec_untraced : (tried.exec failingOnce none).1.isOk = true ∧
    ∀ depth deeds rs, SourceCalls depth tried deeds rs →
      (tried.exec failingOnce none).2.callLog ≠ tried.callLog ++ rs.map CallRecord.entry := by
  refine ⟨by decide +kernel, fun depth deeds rs hcalls hlog => ?_⟩
  have hbegun : (tried.exec failingOnce none).2.callLog.countP (LogEntry.isAbout .bodyExecuting) = 2 := by decide +kernel
  have hcompleted : (tried.exec failingOnce none).2.callLog.countP (LogEntry.isAbout .completed) = 1 := by decide +kernel
  have hnothing : tried.callLog = [] := rfl
  rw [hlog, hnothing, List.nil_append, countP_entries] at hbegun hcompleted
  have hbalanced := hcalls.balanced
  rw [IsBalanced, hbegun, hcompleted] at hbalanced
  cases hbalanced

end Machine

end Ouroboros
