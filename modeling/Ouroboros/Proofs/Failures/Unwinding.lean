/-
Failures on their way out.

A failure inside calls is handed on from each call to the one around it, and on the way it gets a place and a trace. That
the trace shows the calls which were active when the failure arose needs a look at that moment, which a run does not leave
behind. So evaluation is carried out once more, such that a failing call is not left: the machine stays as it is when the
failure arises (`Eval.halt`). Where this succeeds, evaluation does the same. Where it fails, evaluation fails too, and what
it fails with is the failure that arose, handed on through the calls that are active there (`Eval.Halts`, `Eval.unwind`).

So every failure of a program has the trace of the calls that were active when it arose, and a place: its own, or that of
the innermost call that was made in a text (`Machine.failure_located`).
-/
import Ouroboros.Proofs.Execution.Contents
import Ouroboros.Proofs.Execution.Captures
import Ouroboros.Proofs.Failures.Placed

namespace Ouroboros

/-- the machine with other active calls -/
def Machine.withFrames (m : Machine) (frames : List Frame) : Machine :=
  { m with interpreter := { m.interpreter with frames } }

/-- the site inside calls, the innermost first -/
def Site.within (c : Site) (inner : List Frame) : Site := { c with frames := inner ++ c.frames }

theorem Site.within_inside (c : Site) (frame : Frame) (inner : List Frame) :
    (c.inside frame).within inner = c.within (inner ++ [frame]) := by
  simp only [inside, within, List.append_assoc, List.singleton_append]

namespace Eval

/-! ## Handing on -/

/-- a failure that arose inside the calls `inner` in `outer` and was handed on by all of `inner`, the innermost first -/
def unwind : List Frame → List Frame → Diagnostic → Diagnostic
  | [], _, d => d
  | frame :: inner, outer, d => unwind inner outer (annotate frame.pos (frame :: inner ++ outer) d)

/-- the outermost call hands on last -/
theorem unwind_append (inner : List Frame) (frame : Frame) (outer : List Frame) (d : Diagnostic) :
    unwind (inner ++ [frame]) outer d = annotate frame.pos (frame :: outer) (unwind inner (frame :: outer) d) := by
  induction inner generalizing d with
  | nil => rfl
  | cons f inner ih =>
    simp only [List.cons_append, unwind, List.append_assoc, List.nil_append] at ih ⊢
    exact ih _

theorem fault_unwind (inner outer : List Frame) (d : Diagnostic) : (unwind inner outer d).fault = d.fault := by
  induction inner generalizing d with
  | nil => rfl
  | cons frame inner ih => exact ih _

/-- a recorded trace stays -/
theorem trace_unwind_of_ne {d : Diagnostic} (h : d.trace ≠ []) (inner outer : List Frame) :
    (unwind inner outer d).trace = d.trace := by
  induction inner generalizing d with
  | nil => rfl
  | cons frame inner ih =>
    have hsame : (annotate frame.pos (frame :: inner ++ outer) d).trace = d.trace := if_neg h
    rw [unwind, ih (by rwa [hsame]), hsame]

/-- the first call to hand on a failure records all that are active -/
theorem trace_unwind {d : Diagnostic} (h : d.trace = []) (frames : List Frame) :
    (unwind frames [] d).trace = frames.map .call := by
  cases frames with
  | nil => exact h
  | cons frame inner =>
    have hnew : (annotate frame.pos (frame :: inner ++ []) d).trace = (frame :: inner).map .call := by
      rw [List.append_nil]
      exact if_pos h
    rw [unwind, trace_unwind_of_ne (by rw [hnew]; exact List.cons_ne_nil _ _), hnew]

/-- a known place stays -/
theorem pos_unwind_of_ne {d : Diagnostic} (h : d.pos.line ≠ 0) (inner outer : List Frame) :
    (unwind inner outer d).pos = d.pos := by
  induction inner generalizing d with
  | nil => rfl
  | cons frame inner ih =>
    have hsame : (annotate frame.pos (frame :: inner ++ outer) d).pos = d.pos := if_neg h
    rw [unwind, ih (by rwa [hsame]), hsame]

/-- a failure without a place gets that of the innermost call which has one -/
theorem pos_unwind {d : Diagnostic} (h : d.pos = .unknown) (inner : List Frame) {frame : Frame} (around outer : List Frame)
    (hinner : ∀ f ∈ inner, f.pos = .unknown) (hframe : frame.pos.line ≠ 0) :
    (unwind (inner ++ frame :: around) outer d).pos = frame.pos := by
  have hline : ∀ {p : Pos}, p = .unknown → p.line = 0 := by
    rintro p rfl
    rfl
  induction inner generalizing d with
  | nil =>
    have hnew : (annotate frame.pos (frame :: around ++ outer) d).pos = frame.pos := if_pos (hline h)
    rw [List.nil_append, unwind, pos_unwind_of_ne (by rwa [hnew]), hnew]
  | cons f inner ih =>
    rw [List.forall_mem_cons] at hinner
    exact ih ((if_pos (hline h)).trans hinner.1) hinner.2

/-! ## Halting at a failure -/

/-- carries out a call in which calls are carried out by `inner`, but does not leave it when its body fails -/
def haltWith (inner : Option Call) : Call := fun f args pos =>
  match calleeFor f args, inner with
  | .error fault, _ => Action.failAt pos fault
  | .ok _, none => do Action.failAt pos (.callDepth (← Action.asks fun m => m.interpreter.limit))
  | .ok callee, some call => do
    enter ⟨callee.name, pos⟩
    trace callee.name .bodyExecuting
    let e ← body call args callee
    settle callee pos (.ok e)

/-- carries out calls in which at most `room` calls are nested, but leaves none that fails -/
def haltWithin : Nat → Call
  | 0 => haltWith none
  | room + 1 => haltWith (some (haltWithin room))

/-- carries out a call, but leaves none that fails: the calls that were active at the failure still are so afterwards -/
def halt : Call := fun f args pos => do
  let n ← Action.asks fun m => room m.interpreter
  haltWithin n f args pos

/-- What two steps lead to is the same, unless the first has failed. Then it has failed inside calls that it has not left,
with a failure that arises there; and the second has failed with what becomes of it on the way out of these calls, and has
changed nothing else in the machine. -/
def HaltsAt (T : Terms) (c : Site) {α : Type} (V : α → Prop) : Except Diagnostic α × Machine →
    Except Diagnostic α × Machine → Prop
  | (.ok a, m), r => r = (.ok a, m) ∧ T.Holds c m ∧ V a
  | (.error e, m), r => ∃ inner, T.Holds (c.within inner) m ∧ T.Arises (c.within inner) e ∧
      r = (.error (unwind inner c.frames e), m.withFrames c.frames)

/-- from every machine at the site the first step halts where the second fails -/
def Halts (T : Terms) (c : Site) : Judgment := fun _ V x x' => ∀ m, T.Holds c m → HaltsAt T c V (x m) (x' m)

variable {T : Terms} {c : Site} {α β : Type} {V : α → Prop} {W : β → Prop} {x x' : Eval α}

/-- leaving all calls of a failure leads back to the site -/
theorem Terms.Holds.unwound {inner : List Frame} {m : Machine} (h : T.Holds (c.within inner) m) :
    T.Holds c (m.withFrames c.frames) :=
  { store := h.store, handlers := h.handlers, hosts := h.hosts, refuses := h.refuses, limit := h.limit, frames := rfl
    calls := fun frame hframe => h.calls frame (List.mem_append_right inner hframe) }

/-- however they end, the second step leads back to the site -/
theorem HaltsAt.holds {r r' : Except Diagnostic α × Machine} (h : HaltsAt T c V r r') : T.Holds c r'.2 := by
  rcases r with ⟨e | a, m⟩
  · obtain ⟨inner, hholds, -, rfl⟩ := h
    exact hholds.unwound
  · obtain ⟨rfl, hholds, -⟩ := h
    exact hholds

namespace Halts

/-- a step that makes no call -/
theorem of_yields (h : Yields T c V x) : Halts T c V x x := by
  intro m hm
  obtain ⟨hholds, hV, hE⟩ := h m hm
  rcases hx : x m with ⟨e | a, m'⟩ <;> rw [hx] at hholds hV hE
  · refine ⟨[], hholds, hE e rfl, ?_⟩
    rw [← hholds.frames]
    rfl
  · exact ⟨rfl, hholds, hV a rfl⟩

theorem bind {k k' : α → Eval β} (hx : Halts T c V x x') (hk : ∀ a, V a → Halts T c W (k a) (k' a)) :
    Halts T c W (x >>= k) (x' >>= k') := by
  intro m hm
  have h := hx m hm
  rw [Action.bind_apply]
  rcases hxm : x m with ⟨e | a, m'⟩ <;> rw [hxm] at h
  · obtain ⟨inner, hholds, harises, hx'⟩ := h
    refine ⟨inner, hholds, harises, ?_⟩
    rw [Action.bind_apply, hx']
  · obtain ⟨hx', hholds, hV⟩ := h
    rw [Action.bind_apply, hx']
    exact hk a hV m' hholds

end Halts

theorem halts_rules : Rules (Halts T c) where
  pure h := .of_yields (.pure h)
  bind := .bind

theorem halts_tree (hscope : ∀ i, T.scope i) : TreeRules T (Halts T c) where
  toRules := halts_rules
  failAt hpos hfault := .of_yields (.fail (.of_fault hfault (.inl hpos)))
  lookUp _ _ := .of_yields (.asks fun _ hm _ hv => Terms.store_lookUp hm.store hv)
  frames := .of_yields (.asks fun _ _ => trivial)
  trace _ _ := .of_yields (.log _)
  assign scope _ hs hv := .of_yields (.assign (T.place_stmt hs) scope _ hv)
  declare _ hd := .of_yields (.declare hscope _ hd)
  openScope parent _ hb := .of_yields (.openScope hscope parent hb)

/-- builtins inside a call that was made at a place -/
theorem halts_builtin (hcalls : T.Located c.frames .unknown) : BuiltinRules T (Halts T c) where
  toRules := halts_rules
  idle p _ hargs := .of_yields (.idle hcalls p hargs)
  handlers event := .of_yields (.asks fun _ hm => hm.handlersOf event)

/-- the host has no operations -/
theorem halts_hosts (call call' : Call) : JudgesHosts T (Halts T c) call call' := by
  intro name arity index args _ m hm
  have hrun : ∀ call : Call, (Builtin.ofHost name arity index).run call args m = (.ok .unit, m) := by
    intro call
    rw [Builtin.run_ofHost, hm.hosts]
    rfl
  rw [hrun, hrun]
  exact ⟨rfl, hm, T.value_unit⟩

/-! ## Calls -/

theorem Terms.Holds.entered {m : Machine} (hm : T.Holds c m) {frame : Frame} (h : T.Located c.frames frame.pos) :
    T.Holds (c.inside frame) (enter frame m).2 :=
  { store := hm.store, handlers := hm.handlers, hosts := hm.hosts, refuses := hm.refuses, limit := hm.limit
    frames := congrArg (frame :: ·) hm.frames
    calls := List.forall_mem_cons.mpr ⟨h.imp id And.left, hm.calls⟩ }

theorem Terms.Holds.left {m : Machine} {frame : Frame} (hm : T.Holds (c.inside frame) m) : T.Holds c (leave m).2 :=
  { store := hm.store, handlers := hm.handlers, hosts := hm.hosts, refuses := hm.refuses, limit := hm.limit
    frames := congrArg List.tail hm.frames
    calls := fun f hf => hm.calls f (List.mem_cons_of_mem _ hf) }

/-- what is done when a body has succeeded and its call has been left -/
def conclude (callee : Callee) (stage : CallStage) (v : Value) : Eval Value := do
  trace callee.name stage
  trace callee.name .completed
  return v

theorem settle_ok (callee : Callee) (pos : Pos) {e : Completion} (he : T.value e.value) :
    ∃ stage v, T.value v ∧ settle callee pos (.ok e) = leave >>= fun _ => conclude callee stage v := by
  cases e with
  | normal v => exact ⟨.normalEnd, .unit, T.value_unit, rfl⟩
  | returned v => exact ⟨.returnSignal, v, he, rfl⟩

theorem halts_conclude (callee : Callee) (stage : CallStage) {v : Value} (hv : T.value v) :
    Halts T c T.value (conclude callee stage v) (conclude callee stage v) :=
  .bind (.of_yields (.log _)) fun _ _ => .bind (.of_yields (.log _)) fun _ _ => .of_yields (.pure hv)

/-- a call is left when its body succeeds; otherwise the failure is handed on through it -/
theorem halts_carryOut (callee : Callee) {pos : Pos} (hpos : T.Located c.frames pos) {x x' : Eval Completion}
    (hbody : Halts T (c.inside ⟨callee.name, pos⟩) (fun e => T.value e.value) x x') :
    Halts T c T.value
      (do
        enter ⟨callee.name, pos⟩
        trace callee.name .bodyExecuting
        let e ← x
        settle callee pos (.ok e))
      (do
        enter ⟨callee.name, pos⟩
        trace callee.name .bodyExecuting
        let r ← Action.attempt x'
        settle callee pos r) := by
  intro m hm
  -- both steps go on from the same machine inside the call
  let m₁ := (trace callee.name .bodyExecuting (enter ⟨callee.name, pos⟩ m).2).2
  have hm₁ : T.Holds (c.inside ⟨callee.name, pos⟩) m₁ := (Yields.log _ _ (hm.entered hpos)).1
  change HaltsAt T c T.value ((x >>= fun e => settle callee pos (.ok e)) m₁) ((Action.attempt x' >>= settle callee pos) m₁)
  have hrun := hbody m₁ hm₁
  simp only [Action.bind_apply, Action.attempt]
  rcases hx : x m₁ with ⟨e | e, m₂⟩ <;> rw [hx] at hrun
  · -- the failure leaves the calls inside this one first, and then this one
    obtain ⟨inner, hholds, harises, hx'⟩ := hrun
    rw [Site.within_inside] at hholds harises
    refine ⟨inner ++ [⟨callee.name, pos⟩], hholds, harises, ?_⟩
    rw [hx', unwind_append]
    rfl
  · obtain ⟨hx', hholds, hvalue⟩ := hrun
    obtain ⟨stage, v, hv, hsettle⟩ := settle_ok callee pos hvalue
    simp only [hx', hsettle]
    exact halts_conclude callee stage hv (leave m₂).2 hholds.left

/-- A call that leaves room for `room` calls below the limit. It is made at a place, or by a builtin inside a call that was
made at one. -/
theorem halts_applyWithin (hscope : ∀ i, T.scope i) (room : Nat) (c : Site)
    (hroom : c.frames.length + room = c.limit.toNat) :
    JudgesCalls T (Halts T c) (T.Located c.frames) (haltWithin room) (applyWithin room) := by
  induction room generalizing c with
  | zero =>
    intro f args pos hpos _ _
    rw [haltWithin, applyWithin, applyWith_eq]
    unfold haltWith
    cases hcallee : calleeFor f args with
    | error fault => exact .of_yields (.fail (.of_fault (isOwn_of_calleeFor hcallee) hpos))
    | ok callee =>
      refine .bind (V := fun _ => True) (.of_yields (.asks fun _ _ => trivial)) fun limit _ => ?_
      exact .of_yields (.fail ⟨rfl, hpos, fun _ => hroom⟩)
  | succ room ih =>
    intro f args pos hpos hf hargs
    rw [haltWithin, applyWithin, applyWith_eq]
    unfold haltWith
    cases hcallee : calleeFor f args with
    | error fault => exact .of_yields (.fail (.of_fault (isOwn_of_calleeFor hcallee) hpos))
    | ok callee =>
      -- a builtin that is called here may fail without a place: this call has one, or a call around it
      have hinside : T.Located (c.inside ⟨callee.name, pos⟩).frames .unknown := by
        rcases hpos with hpos | ⟨-, frame, hframe, hplace⟩
        · exact .inr ⟨rfl, ⟨callee.name, pos⟩, List.mem_cons_self, hpos⟩
        · exact .inr ⟨rfl, frame, List.mem_cons_of_mem _ hframe, hplace⟩
      have hcalls := ih (c.inside ⟨callee.name, pos⟩) (by simp only [Site.inside, List.length_cons]; omega)
      refine halts_carryOut callee hpos ?_
      refine judge_body (halts_tree hscope) (halts_builtin hinside) id ?_ ?_ (halts_hosts _ _) hf hargs hcallee
      · exact fun f args pos h => hcalls f args pos (.inl h)
      · rintro f args pos rfl
        exact hcalls f args .unknown hinside

/-- calls that are made while no call is active -/
theorem halts_apply (hscope : ∀ i, T.scope i) (limit : Int) :
    JudgesCalls T (Halts T ⟨limit, []⟩) T.place halt apply := by
  intro f args pos hpos hf hargs m hm
  have hroom : room m.interpreter = limit.toNat := by
    rw [room, hm.limit, hm.frames]
    exact congrArg Int.toNat (Int.sub_zero limit)
  have hempty : ([] : List Frame).length + room m.interpreter = limit.toNat := by
    rw [hroom, List.length_nil, Nat.zero_add]
  exact halts_applyWithin hscope (room m.interpreter) ⟨limit, []⟩ hempty f args pos (.inl hpos) hf hargs m hm

/-! ## Programs -/

/-- programs at places of which `P` holds -/
def Terms.within (P : Pos → Prop) : Terms where
  expr e := P e.pos
  stmt s := P s.pos
  place := P
  scope _ := True
  place_expr := id
  place_stmt := id

/-- programs with places -/
def Terms.placed : Terms := .within Pos.IsPlaced

/-- `pos` is the place of the failure `e`, or when it has none that of the innermost call which was made in a text: all
calls inside that one were made by builtins -/
def LocatedBy (pos : Pos) (e : Diagnostic) (frames : List Frame) : Prop :=
  e.pos.IsPlaced ∧ pos = e.pos ∨
    e.pos = .unknown ∧ ∃ inner frame around, frames = inner ++ frame :: around ∧ (∀ f ∈ inner, f.pos = .unknown) ∧
      frame.pos.IsPlaced ∧ pos = frame.pos

theorem LocatedBy.isPlaced {pos : Pos} {e : Diagnostic} {frames : List Frame} (h : LocatedBy pos e frames) :
    pos.IsPlaced := by
  rcases h with ⟨hplaced, rfl⟩ | ⟨-, inner, frame, around, -, -, hplaced, rfl⟩
  · exact hplaced
  · exact hplaced

/-- the innermost call that was made in a text -/
theorem exists_innermost {P : Pos → Prop} (hP : ∀ p, P p → p.IsPlaced) {frames : List Frame}
    (hcalls : ∀ f ∈ frames, P f.pos ∨ f.pos = .unknown) (h : ∃ f ∈ frames, P f.pos) :
    ∃ inner frame around, frames = inner ++ frame :: around ∧ (∀ f ∈ inner, f.pos = .unknown) ∧ P frame.pos := by
  have hsome : (frames.find? fun f => f.pos ≠ .unknown).isSome = true := by
    obtain ⟨f, hf, hplace⟩ := h
    rw [List.find?_isSome]
    exact ⟨f, hf, decide_eq_true fun hunknown => (hP _ hplace).line_ne (congrArg Pos.line hunknown)⟩
  obtain ⟨frame, hframe⟩ := Option.isSome_iff_exists.mp hsome
  obtain ⟨hknown, inner, around, rfl, hinner⟩ := List.find?_eq_some_iff_append.mp hframe
  refine ⟨inner, frame, around, rfl, fun f hf => by simpa using hinner f hf, ?_⟩
  exact (hcalls frame (by simp)).resolve_right (of_decide_eq_true hknown)

theorem locatedBy_unwind {c : Site} {m : Machine} (hm : Terms.placed.Holds c m) {e : Diagnostic}
    (he : Terms.placed.Arises c e) : LocatedBy (unwind c.frames [] e).pos e c.frames := by
  rcases he.place with hplaced | ⟨hunknown, hplaced⟩
  · exact .inl ⟨hplaced, pos_unwind_of_ne hplaced.line_ne _ _⟩
  · obtain ⟨inner, frame, around, hsplit, hinner, hframe⟩ := exists_innermost (fun _ => id) hm.calls hplaced
    refine .inr ⟨hunknown, inner, frame, around, hsplit, hinner, hframe, ?_⟩
    rw [hsplit]
    exact pos_unwind hunknown inner around [] hinner hframe.line_ne

/-- where `P` holds of the places of programs and calls, it holds of those of failures -/
theorem at_unwind {P : Pos → Prop} (hP : ∀ p, P p → p.IsPlaced) {c : Site} {m : Machine} (hm : (Terms.within P).Holds c m)
    {e : Diagnostic} (he : (Terms.within P).Arises c e) : P (unwind c.frames [] e).pos := by
  rcases he.place with hplace | ⟨hunknown, hplace⟩
  · rw [pos_unwind_of_ne (hP _ hplace).line_ne]
    exact hplace
  · obtain ⟨inner, frame, around, hsplit, hinner, hframe⟩ := exists_innermost hP hm.calls hplace
    rw [hsplit, pos_unwind hunknown inner around [] hinner (hP _ hframe).line_ne]
    exact hframe

end Eval

namespace Machine

open Eval

variable {m : Machine} {limit : Int}

/-- a program is run as its statements are, one after the other -/
theorem program_eq_stmts (call : Call) (scope : ScopeId) (ss : List Stmt) (last : Value) (m : Machine) :
    ∃ inner, program call scope ss last m =
      (.ok ((stmts call scope ss last m).1.map Completion.value, inner), (stmts call scope ss last m).2) := by
  induction ss generalizing scope last m with
  | nil => exact ⟨scope, rfl⟩
  | cons s rest ih =>
    simp only [program, stmts, Action.bind_apply, Action.attempt]
    rcases stmt call scope s m with ⟨d | ⟨inner, v | v⟩, m'⟩
    · exact ⟨scope, rfl⟩
    · exact ih inner v m'
    · exact ⟨inner, rfl⟩

/-- a sound program gives what its statements give; it leaves the machine that they leave, up to the global scope -/
theorem exec_eq_stmts {p : Program} (hp : p.isSound = true) (m : Machine) :
    (m.exec p none).1 = Eval.outcome ((stmts apply m.interpreter.global p.stmts .unit m).1.map Completion.value) ∧
      ∃ global, (m.exec p none).2 = (stmts apply m.interpreter.global p.stmts .unit m).2.moveGlobal global := by
  obtain ⟨inner, hrun⟩ := program_eq_stmts apply m.interpreter.global p.stmts .unit m
  rw [exec_of_program hp none hrun]
  refine ⟨rfl, ?_⟩
  split
  · exact ⟨inner, rfl⟩
  · exact ⟨(stmts apply m.interpreter.global p.stmts .unit m).2.interpreter.global, rfl⟩

/-- runs source text as `execSource` does, but stops inside the calls of the first failure -/
def haltSource (m : Machine) (name source : Bytes) : Except Diagnostic Completion × Machine :=
  let p := Program.ofSource source
  let m := m.log (Eval.sourceNote name p)
  stmts halt m.interpreter.global p.stmts .unit m

/-- the machine after texts were run on a new one, each under a name -/
def session (w : World) (limit : Int) (texts : List (Bytes × Bytes)) : Machine :=
  (Operation.performEach (start w limit) (texts.map fun t => .execSource t.1 t.2)).2

variable {P : Pos → Prop}

/-- the statements of a text whose tokens lie where `P` says, on a machine on which only such texts were run -/
theorem haltsAt_within (hm : (Terms.within P).Holds ⟨limit, []⟩ m) (name : Bytes) {source : Bytes}
    (hsound : (Program.ofSource source).isSound = true) (htokens : ∀ t ∈ (Token.scan source).tokens, P t.pos) :
    HaltsAt (.within P) ⟨limit, []⟩ (fun e => (Terms.within P).value e.value) (m.haltSource name source)
      (stmts apply (m.log (Eval.sourceNote name (Program.ofSource source))).interpreter.global
        (Program.ofSource source).stmts .unit (m.log (Eval.sourceNote name (Program.ofSource source)))) :=
  judge_stmts (halts_tree fun _ => trivial) (halts_apply (fun _ => trivial) limit) _
    (Program.liesIn_ofSource hsound htokens) trivial (Terms.value_unit _) _ (Yields.log _ m hm).1

theorem haltsAt_source (hm : Terms.placed.Holds ⟨limit, []⟩ m) (name : Bytes) {source : Bytes}
    (hsound : (Program.ofSource source).isSound = true) :
    HaltsAt .placed ⟨limit, []⟩ (fun e => Terms.placed.value e.value) (m.haltSource name source)
      (stmts apply (m.log (Eval.sourceNote name (Program.ofSource source))).interpreter.global
        (Program.ofSource source).stmts .unit (m.log (Eval.sourceNote name (Program.ofSource source)))) :=
  haltsAt_within hm name hsound (Token.placed_scan source)

theorem holds_execSource (hm : (Terms.within P).Holds ⟨limit, []⟩ m) (name source : Bytes)
    (htokens : (Program.ofSource source).isSound = true → ∀ t ∈ (Token.scan source).tokens, P t.pos) :
    (Terms.within P).Holds ⟨limit, []⟩ (m.execSource name source).2 := by
  have hlog : (Terms.within P).Holds ⟨limit, []⟩ (m.log (Eval.sourceNote name (Program.ofSource source))) :=
    (Yields.log _ m hm).1
  change (Terms.within P).Holds _ (exec (m.log (Eval.sourceNote name (Program.ofSource source))) _ none).2
  by_cases hsound : (Program.ofSource source).isSound = true
  · obtain ⟨-, global, hrun⟩ := exec_eq_stmts hsound (m.log (Eval.sourceNote name (Program.ofSource source)))
    rw [hrun]
    exact { (haltsAt_within hm name hsound (htokens hsound)).holds with }
  · rw [exec_of_faulty hsound]
    exact hlog

/-- a session over texts whose tokens lie where `P` says, those of texts that are no programs apart -/
theorem holds_within_session (w : World) (hstore : w.store = .empty) (hhosts : w.hosts = #[])
    (hrefuses : w.RefusesWith Diagnostic.IsFresh) (limit : Int) (texts : List (Bytes × Bytes))
    (htokens : ∀ t ∈ texts, (Program.ofSource t.2).isSound = true → ∀ u ∈ (Token.scan t.2).tokens, P u.pos) :
    (Terms.within P).Holds ⟨limit, []⟩ (session w limit texts) := by
  have hstart : (Terms.within P).Holds ⟨limit, []⟩ (start w limit) := by
    refine ⟨Terms.store_pushCore ?_, List.forall_mem_nil _, hhosts, hrefuses, List.forall_mem_nil _, rfl, rfl⟩
    rw [hstore]
    intro i scope hscope
    cases hscope
  unfold session
  generalize start w limit = m at hstart
  induction texts generalizing m with
  | nil => exact hstart
  | cons t texts ih =>
    rw [List.forall_mem_cons] at htokens
    exact ih htokens.2 _ (holds_execSource hstart t.1 t.2 htokens.1)

theorem holds_session (w : World) (hstore : w.store = .empty) (hhosts : w.hosts = #[])
    (hrefuses : w.RefusesWith Diagnostic.IsFresh) (limit : Int) (texts : List (Bytes × Bytes)) :
    Terms.placed.Holds ⟨limit, []⟩ (session w limit texts) :=
  holds_within_session w hstore hhosts hrefuses limit texts fun t _ _ => Token.placed_scan t.2

/-- **Failures are placed and traced.** Let texts be run on a new machine without host operations, the graphics backend of
which gives no diagnostics that already have a place or a trace, and let one of them, which can be read as a program, fail.
Then it fails with one diagnostic, for a fault that arises at a moment (`haltSource`) at which the machine has done to its
world all that the run does to it. The trace is that of the calls which are active at this moment, the innermost first. The
place is one in a text: that of the fault, or when it has none that of the innermost call which was made in a text. After an
overflow the trace is as long as the limit says. -/
theorem failure_located (w : World) (hstore : w.store = .empty) (hhosts : w.hosts = #[])
    (hrefuses : w.RefusesWith Diagnostic.IsFresh) (limit : Int) (earlier : List (Bytes × Bytes)) (name source : Bytes)
    (hsound : (Program.ofSource source).isSound = true) (ds : List Diagnostic)
    (hfail : ((session w limit earlier).execSource name source).1 = .error ds) :
    ∃ d e m₀, ds = [d] ∧ (session w limit earlier).haltSource name source = (.error e, m₀) ∧
      ((session w limit earlier).execSource name source).2.world = m₀.world ∧
      d.fault = e.fault ∧ d.trace = m₀.interpreter.frames.map .call ∧
      d.pos.IsPlaced ∧ LocatedBy d.pos e m₀.interpreter.frames ∧
      (d.kind = .stackOverflow → 0 ≤ limit → (d.trace.length : Int) = limit) := by
  have hhalts := haltsAt_source (holds_session w hstore hhosts hrefuses limit earlier) name hsound
  generalize session w limit earlier = m at hfail hhalts
  obtain ⟨hout, global, hmachine⟩ := exec_eq_stmts hsound (m.log (Eval.sourceNote name (Program.ofSource source)))
  rcases hhalt : m.haltSource name source with ⟨e | a, m₀⟩ <;> rw [hhalt] at hhalts
  · obtain ⟨frames, hholds, harises, hrun⟩ := hhalts
    have hsite : Site.within ⟨limit, []⟩ frames = ⟨limit, frames⟩ := by
      rw [Site.within, List.append_nil]
    rw [hsite] at hholds harises
    rw [hrun] at hout hmachine
    obtain rfl : [unwind frames [] e] = ds := Except.error.inj (hout.symm.trans hfail)
    have hplace := locatedBy_unwind hholds harises
    have htrace := trace_unwind harises.trace frames
    have hworld : (m.execSource name source).2.world = m₀.world := (congrArg world hmachine).trans rfl
    refine ⟨unwind frames [] e, e, m₀, rfl, rfl, hworld, fault_unwind frames [] e, ?_, hplace.isPlaced, ?_, ?_⟩
    · rw [hholds.frames]
      exact htrace
    · rw [hholds.frames]
      exact hplace
    · intro hkind hlimit
      have hlength : frames.length = limit.toNat := harises.overflow (by rwa [Diagnostic.kind, fault_unwind] at hkind)
      rw [htrace, List.length_map]
      omega
  · rw [hhalts.1] at hout
    cases hout.symm.trans hfail

theorem eq_error_of_map {r : Outcome} {ds : List Diagnostic} (h : r.map (fun _ => ()) = .error ds) : r = .error ds := by
  cases r with
  | error ds' => exact congrArg Except.error (Except.error.inj h)
  | ok v => cases h

/-- an event is handled by a builtin, which fails for want of a graphics backend -/
def undrawn : Bytes := text "register_event(\"quit\", graphics_shutdown);\ntrigger_event(\"quit\");"

/-- The builtin is called by a builtin, so neither its failure nor its call has a place, and the place is that of the call
around it. With the limit 1 it is not called, and then the trace has one line. -/
theorem failure_located_undrawn :
    let m := session .fresh 2 [(text "first", undrawn)]
    let d : Diagnostic := ⟨.noGraphics (text "graphics_shutdown"), ⟨2, 14⟩,
      [.call ⟨text "graphics_shutdown", .unknown⟩, .call ⟨text "trigger_event", ⟨2, 14⟩⟩], false⟩
    World.fresh.store = .empty ∧ World.fresh.hosts = #[] ∧ World.fresh.RefusesWith Diagnostic.IsFresh ∧
    (Program.ofSource undrawn).isSound = true ∧
    (m.execSource (text "again") undrawn).1 = .error [d] ∧
    ∃ e m₀, m.haltSource (text "again") undrawn = (.error e, m₀) ∧
      (m.execSource (text "again") undrawn).2.world = m₀.world ∧ d.fault = e.fault ∧
      d.trace = m₀.interpreter.frames.map .call ∧ d.pos.IsPlaced ∧ LocatedBy d.pos e m₀.interpreter.frames ∧
    ∃ d, ((session .fresh 1 []).execSource (text "first") undrawn).1 = .error [d] ∧ d.kind = .stackOverflow ∧
      d.trace = [.call ⟨text "trigger_event", ⟨2, 14⟩⟩] := by
  intro m d
  have hrefuses : World.fresh.RefusesWith Diagnostic.IsFresh := .of_none rfl
  have hsound : (Program.ofSource undrawn).isSound = true := by decide +kernel
  have hfail : (m.execSource (text "again") undrawn).1 = .error [d] := eq_error_of_map (by decide +kernel)
  have hover : ((session .fresh 1 []).execSource (text "first") undrawn).1 =
      .error [⟨.callDepth 1, ⟨2, 14⟩, [.call ⟨text "trigger_event", ⟨2, 14⟩⟩], false⟩] :=
    eq_error_of_map (by decide +kernel)
  obtain ⟨_, e, m₀, hd, hhalt, hworld, hfault, htrace, hplaced, hlocated, -⟩ :=
    failure_located .fresh rfl rfl hrefuses 2 [(text "first", undrawn)] (text "again") undrawn hsound [d] hfail
  cases hd
  exact ⟨rfl, rfl, hrefuses, hsound, hfail, e, m₀, hhalt, hworld, hfault, htrace, hplaced, hlocated, _, hover, rfl, rfl⟩

end Machine

end Ouroboros
