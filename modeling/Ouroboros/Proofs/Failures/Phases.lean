/-
Which stage a fault belongs to, and what the exit status says about it.

The scanner reports lexical faults only (`Token.scan_errors_lexing`), the reader of programs syntax faults only
(`Program.ofTokens_errors_parsing`), and without host operations a running program fails only with a fault of running
programs, however deep in calls it arises and whatever part of the outside has failed (`Eval.Running`); but a graphics
backend must not take its diagnostics from elsewhere. So the first diagnostic of a run tells a text that is no program from
a program that fails, and that is all that the exit status looks at (`CommandLine.status_classifies`).
-/
import Ouroboros.CommandLine.Run
import Ouroboros.Proofs.Failures.Unwinding
import Ouroboros.Proofs.Scanning.Pieces

namespace Ouroboros

/-! ## Reading -/

theorem Token.scan_errors_lexing (source : Bytes) : ∀ d ∈ (scan source).errors, d.kind.phase = .lexing := by
  obtain ⟨ts, q, htokens, -⟩ := exists_tokens_eq .start source
  exact (scanFrom_passes htokens).lexical

namespace Program

theorem ofTokens_errors_parsing (tokens : List Token) : ∀ d ∈ (ofTokens tokens).errors, d.kind.phase = .parsing := by
  obtain ⟨stmts, c, new, hpass, hprogram⟩ := exists_pass_cursor tokens
  rw [hprogram]
  exact fun d hd => (hpass.blames d hd).phase

/-- the faults of a text are those of its tokens and of the program that they make -/
theorem mem_ofSource_errors {source : Bytes} {d : Diagnostic} :
    d ∈ (ofSource source).errors ↔ d ∈ (Token.scan source).errors ∨ d ∈ (ofTokens (Token.scan source).tokens).errors := by
  by_cases h : (Token.scan source).errors = []
  · rw [ofSource_of_scan h, h]
    simp only [List.not_mem_nil, false_or]
  · rw [ofSource_errors h, inOrder, List.mem_mergeSort, List.mem_append]

theorem ofSource_errors_not_running {source : Bytes} {d : Diagnostic} (h : d ∈ (ofSource source).errors) :
    d.kind.phase ≠ .running := by
  intro hrunning
  rcases mem_ofSource_errors.mp h with h | h
  · cases hrunning.symm.trans (Token.scan_errors_lexing source d h)
  · cases hrunning.symm.trans (ofTokens_errors_parsing _ d h)

end Program

/-! ## Running -/

/-- The host adds no operations, and the graphics backend gives no diagnostics but those of running programs. -/
structure World.IsStandard (w : World) : Prop where
  hosts : w.hosts = #[]
  refuses : w.RefusesWith fun d => d.kind.phase = .running

namespace World.IsStandard

variable {w w' : World}

theorem congr (h : w.IsStandard) (hhosts : w'.hosts = w.hosts) (hgraphics : w'.graphics = w.graphics) : w'.IsStandard :=
  ⟨hhosts.trans h.hosts, h.refuses.congr hgraphics⟩

theorem log (entry : Machine → LogEntry) {m : Machine} (h : m.world.IsStandard) :
    (Eval.log entry m).2.world.IsStandard := by
  obtain ⟨-, -, hhost, -⟩ := Eval.quiet_log entry m
  exact ⟨hhost.hosts.trans h.hosts, (Eval.Raises.log entry m h.refuses).1⟩

end World.IsStandard

namespace Eval

/-- from a standard world the step leads to one, gives only what `V` says, and fails only with a fault of a running program
-/
def Running : Judgment := fun _ V x _ => ∀ m : Machine, m.world.IsStandard →
  (x m).2.world.IsStandard ∧ (∀ a, (x m).1 = .ok a → V a) ∧ ∀ d, (x m).1 = .error d → d.kind.phase = .running

variable {α β : Type} {V : α → Prop} {W : β → Prop} {x x' : Eval α}

namespace Running

/-- a step that does not fail -/
theorem of_ok (h : ∀ m, m.world.IsStandard → (x m).2.world.IsStandard ∧ ∃ a, (x m).1 = .ok a ∧ V a) :
    Running V x x' := by
  intro m hm
  obtain ⟨hafter, a, ha, hV⟩ := h m hm
  rw [ha]
  refine ⟨hafter, ?_, ?_⟩
  · rintro b ⟨⟩
    exact hV
  · rintro d ⟨⟩

theorem asks {f : Machine → α} (h : ∀ m, m.world.IsStandard → V (f m)) : Running V (Action.asks f) x' :=
  of_ok fun m hm => ⟨hm, f m, rfl, h m hm⟩

theorem pure {a : α} (h : V a) : Running V (Pure.pure a) x' := of_ok fun _ hm => ⟨hm, a, rfl, h⟩

theorem fail {d : Diagnostic} (h : d.kind.phase = .running) : Running V (Action.fail d) x' := by
  intro m hm
  refine ⟨hm, ?_, ?_⟩
  · rintro a ⟨⟩
  · rintro e ⟨⟩
    exact h

theorem failAt {fault : Fault} (h : fault.isOwn = true) (pos : Pos) : Running V (Action.failAt pos fault) x' :=
  fail (Fault.isOwn_iff.mp h).1

/-- a step that only has to do with scopes -/
theorem of_onScopes {f : Store → α × Store} (h : OnScopes f x) (hV : ∀ a, V a) : Running V x x' := by
  refine of_ok fun m hm => ?_
  rw [h m]
  exact ⟨hm.congr rfl rfl, _, rfl, hV _⟩

theorem bind {k k' : α → Eval β} (hx : Running V x x') (hk : ∀ a, V a → Running W (k a) (k' a)) :
    Running W (x >>= k) (x' >>= k') := by
  intro m hm
  obtain ⟨hafter, hV, hE⟩ := hx m hm
  rw [Action.bind_apply]
  rcases hrun : x m with ⟨d | a, m'⟩ <;> rw [hrun] at hafter hV hE
  · refine ⟨hafter, ?_, ?_⟩
    · rintro b ⟨⟩
    · rintro e ⟨⟩
      exact hE d rfl
  · exact hk a (hV a rfl) m' hafter

/-- what a step failed with is one of a running program, also where the failure is caught -/
theorem attempt (h : Running V x x') :
    Running (fun r => ∀ d, r = .error d → d.kind.phase = .running) (Action.attempt x) (Action.attempt x') :=
  of_ok fun m hm => ⟨(h m hm).1, _, rfl, (h m hm).2.2⟩

end Running

theorem running_rules : Rules Running where
  pure := .pure
  bind := .bind

theorem running_log (entry : Machine → LogEntry) : Running (fun _ => True) (log entry) (log entry) :=
  .of_ok fun _ hm => ⟨hm.log entry, (), rfl, trivial⟩

theorem running_assign (pos : Pos) (scope : ScopeId) (name : Bytes) (v : Value) {x' : Eval Unit} :
    Running (fun _ => True) (assign pos scope name v) x' := by
  intro m hm
  rcases assign_apply pos scope name v m with ⟨fault, hfault, h⟩ | ⟨owner, -, -, h⟩
  · rw [h]
    have hfails : Running (fun _ => True) (Action.failAt pos fault : Eval Unit) x' := .failAt hfault pos
    exact hfails m hm
  · rw [h]
    refine ⟨hm.congr rfl rfl, fun _ _ => trivial, ?_⟩
    rintro d ⟨⟩

theorem running_tree : TreeRules (.free fun _ => True) Running where
  toRules := running_rules
  failAt _ hfault := .failAt hfault _
  lookUp _ _ := .asks fun _ _ v _ => Terms.value_free _ v
  frames := .asks fun _ _ => trivial
  trace _ _ := running_log _
  assign scope v _ _ := running_assign _ scope _ v
  declare _ _ := .of_onScopes (onScopes_declare _ _) fun _ => trivial
  openScope _ _ _ := .of_onScopes (onScopes_openScope _ _) fun _ => trivial

/-- a builtin apart from its calls, whatever the outside does -/
theorem running_idle (p : Primitive) (args : List Value) :
    Running (Terms.free fun _ => True).value (p.run Deed.idle args) (p.run Deed.idle args) := by
  intro m hm
  obtain ⟨hrefuses, hfails⟩ := p.raises_run _ args m hm.refuses
  refine ⟨⟨?_, hrefuses⟩, fun v _ => Terms.value_free _ v, fun d hd => ?_⟩
  · rcases (p.run_idle args m).1 with ⟨-, -, hhost⟩ | ⟨-, -, -, -, hhost⟩ | ⟨-, -, -, -, -, hhost⟩
    all_goals exact hhost.hosts.trans hm.hosts
  · rcases hfails d hd with ⟨fault, hfault, rfl⟩ | hrunning
    · exact (Fault.isOwn_iff.mp hfault).1
    · exact hrunning

theorem running_builtin : BuiltinRules (.free fun _ => True) Running where
  toRules := running_rules
  idle p args _ := running_idle p args
  handlers _ := .asks fun _ _ h _ => Terms.value_free _ h

/-- a standard world has no operations of a host -/
theorem running_hosts (call call' : Call) : JudgesHosts (.free fun _ => True) Running call call' := by
  intro name arity index args _ m hm
  rw [Builtin.run_ofHost, hm.hosts]
  refine ⟨hm, fun v _ => Terms.value_free _ v, ?_⟩
  rintro d ⟨⟩

/-! ## Calls -/

theorem running_changeFrames (f : List Frame → List Frame) {x' : Eval Unit} :
    Running (fun _ => True) (changeInterpreter fun i => { i with frames := f i.frames }) x' :=
  .of_ok fun _ hm => ⟨hm.congr rfl rfl, (), rfl, trivial⟩

/-- a failure that is handed on by a call keeps its category -/
theorem running_settle (callee : Callee) (pos : Pos) {r : Except Diagnostic Completion}
    (h : ∀ d, r = .error d → d.kind.phase = .running) :
    Running (Terms.free fun _ => True).value (settle callee pos r) (settle callee pos r) := by
  have hleave : Running (fun _ => True) leave leave := running_changeFrames List.tail
  rcases r with d | v | v
  · exact .bind (.asks (V := fun _ => True) fun _ _ => trivial) fun frames _ => .bind hleave fun _ _ => .fail (h d rfl)
  · refine .bind hleave fun _ _ => .bind (running_log _) fun _ _ => ?_
    exact .bind (running_log _) fun _ _ => .pure (Terms.value_free _ _)
  · refine .bind hleave fun _ _ => .bind (running_log _) fun _ _ => ?_
    exact .bind (running_log _) fun _ _ => .pure (Terms.value_free _ _)

theorem running_applyWithin (room : Nat) :
    JudgesCalls (.free fun _ => True) Running (fun _ => True) (applyWithin room) (applyWithin room) := by
  induction room with
  | zero =>
    intro f args pos _ _ _
    rw [applyWithin, applyWith_eq]
    cases hcallee : calleeFor f args with
    | error fault => exact .failAt (isOwn_of_calleeFor hcallee) pos
    | ok callee => exact .bind (.asks (V := fun _ => True) fun _ _ => trivial) fun limit _ => .fail rfl
  | succ room ih =>
    intro f args pos _ hf hargs
    rw [applyWithin, applyWith_eq]
    cases hcallee : calleeFor f args with
    | error fault => exact .failAt (isOwn_of_calleeFor hcallee) pos
    | ok callee =>
      have hbody := judge_body running_tree running_builtin id ih (fun f args pos _ => ih f args pos trivial)
        (running_hosts _ _) hf hargs hcallee
      refine .bind (running_changeFrames _) fun _ _ => .bind (running_log _) fun _ _ => ?_
      exact .bind hbody.attempt fun r hr => running_settle callee pos hr

theorem running_apply : JudgesCalls (.free fun _ => True) Running (fun _ => True) apply apply :=
  fun f args pos hpos hf hargs m => running_applyWithin (room m.interpreter) f args pos hpos hf hargs m

theorem running_stmts (scope : ScopeId) (ss : List Stmt) (last : Value) :
    Running (fun _ => True) (stmts apply scope ss last) (stmts apply scope ss last) :=
  running_rules.weaken (judge_stmts running_tree running_apply ss (fun s _ => Terms.admits_free _ s) trivial
    (Terms.value_free _ last)) fun _ _ => trivial

/-! ## What evaluation fails with -/

variable {m : Machine} {d : Diagnostic}

theorem expr_fails_running (hm : m.world.IsStandard) {scope : ScopeId} {e : Expr}
    (h : (expr apply scope e m).1 = .error d) : d.kind.phase = .running := by
  have hexpr : Running (Terms.free fun _ => True).value (expr apply scope e) (expr apply scope e) :=
    judge_expr running_tree running_apply e (.of_forall (fun _ => trivial) e)
  exact (hexpr m hm).2.2 d h

theorem stmt_fails_running (hm : m.world.IsStandard) {scope : ScopeId} {s : Stmt}
    (h : (stmt apply scope s m).1 = .error d) : d.kind.phase = .running := by
  have hs := Terms.admits_free (fun _ => True) s
  exact (judge_stmt running_tree running_apply s hs (fun _ => trivial) m hm).2.2 d h

theorem apply_fails_running (hm : m.world.IsStandard) {f : Value} {args : List Value} {pos : Pos}
    (h : (apply f args pos m).1 = .error d) : d.kind.phase = .running := by
  have hargs : ∀ v ∈ args, (Terms.free fun _ => True).value v := fun v _ => Terms.value_free _ v
  exact (running_apply f args pos trivial (Terms.value_free _ f) hargs m hm).2.2 d h

theorem primitive_fails_running (hm : m.world.IsStandard) {p : Primitive} {args : List Value}
    (h : (p.run apply args m).1 = .error d) : d.kind.phase = .running := by
  have hcalls : JudgesCalls (.free fun _ => True) Running (· = .unknown) apply apply :=
    fun f args pos _ => running_apply f args pos trivial
  have hargs : ∀ v ∈ args, (Terms.free fun _ => True).value v := fun v _ => Terms.value_free _ v
  exact (judge_primitive running_builtin hcalls p hargs m hm).2.2 d h

end Eval

namespace Machine

variable {m : Machine}

/-- the debug log gets an entry, if it is kept, and nothing else changes -/
theorem log_eq (entry : LogEntry) (m : Machine) : ∃ news : Array Effect, (∀ e ∈ news, e = .log entry) ∧
    m.log entry = { m with world := { m.world with record := m.world.record ++ news } } := by
  by_cases h : m.world.logging = true
  · refine ⟨#[.log entry], by simp, (if_pos h).trans ?_⟩
    rfl
  · refine ⟨#[], by simp, (if_neg h).trans ?_⟩
    rw [Array.append_empty]

/-- a program that fails does so with one diagnostic, for a fault of a running program -/
theorem exec_fails_running {p : Program} (hp : p.isSound = true) (hm : m.world.IsStandard) {ds : List Diagnostic}
    (h : (m.exec p none).1 = .error ds) : ∃ d, ds = [d] ∧ d.kind.phase = .running := by
  rw [(exec_eq_stmts hp m).1] at h
  obtain ⟨-, -, hrunning⟩ := Eval.running_stmts m.interpreter.global p.stmts .unit m hm
  rcases hrun : (Eval.stmts Eval.apply m.interpreter.global p.stmts .unit m).1 with d | c <;> rw [hrun] at h hrunning
  · obtain rfl : [d] = ds := Except.error.inj h
    exact ⟨d, rfl, hrunning d rfl⟩
  · cases h

end Machine

/-! ## Exit statuses -/

namespace CommandLine

variable {m : Machine} {source : Bytes}

/-- a text that is no program is reported, and not run -/
theorem runSource_of_faulty (h : (Program.ofSource source).errors ≠ []) (colors : Bool) (name : Bytes) :
    runSource m colors name source = (.unusable,
      (m.log (Eval.sourceNote name (Program.ofSource source))).reportFailure colors name source
        (Program.ofSource source).errors) := by
  have hsound : ¬(Program.ofSource source).isSound = true := fun hs => h (List.isEmpty_iff.mp hs)
  have hexec : m.execSource name source =
      (.error (Program.ofSource source).errors, m.log (Eval.sourceNote name (Program.ofSource source))) :=
    Machine.exec_of_faulty hsound _ none
  have hstatus : Status.ofDiagnostics (Program.ofSource source).errors = .unusable := by
    obtain ⟨d, rest, hd⟩ := List.exists_cons_of_ne_nil h
    have hphase : d.kind.phase ≠ .running := Program.ofSource_errors_not_running (hd ▸ List.mem_cons_self)
    rw [hd, Status.ofDiagnostics, firstKind?]
    exact if_neg hphase
  rw [runSource, hexec]
  dsimp only
  rw [hstatus]

/-- what becomes of the run of a program -/
theorem runSource_of_sound (hm : m.world.IsStandard) (h : (Program.ofSource source).errors = []) (colors : Bool)
    (name : Bytes) : (runSource m colors name source).1 =
      if ((m.log (Eval.sourceNote name (Program.ofSource source))).exec (Program.ofSource source) none).1.isOk
      then .success else .failed := by
  have hsound : (Program.ofSource source).isSound = true := List.isEmpty_iff.mpr h
  have hready := hm.log fun _ => Eval.sourceNote name (Program.ofSource source)
  have hsource : m.execSource name source =
      (m.log (Eval.sourceNote name (Program.ofSource source))).exec (Program.ofSource source) none := rfl
  rw [runSource, hsource]
  rcases hexec : (m.log (Eval.sourceNote name (Program.ofSource source))).exec (Program.ofSource source) none with
    ⟨ds | v, m'⟩
  · obtain ⟨d, rfl, hphase⟩ := Machine.exec_fails_running hsound hready (congrArg Prod.fst hexec)
    exact if_pos hphase
  · rfl

/-- the numbers of the statuses -/
theorem code_runSource (hm : m.world.IsStandard) (colors : Bool) (name source : Bytes) :
    let p := Program.ofSource source
    let ready := m.log (Eval.sourceNote name p)
    ((runSource m colors name source).1.code = 1 ↔ p.errors ≠ []) ∧
    ((runSource m colors name source).1.code = 2 ↔ p.errors = [] ∧ ∃ ds, (ready.exec p none).1 = .error ds) ∧
    ((runSource m colors name source).1.code = 0 ↔ p.errors = [] ∧ ∃ v, (ready.exec p none).1 = .ok v) := by
  intro p ready
  by_cases hp : p.errors = []
  · have hsound : (runSource m colors name source).1 = if (ready.exec p none).1.isOk then .success else .failed :=
      runSource_of_sound hm hp colors name
    rw [hsound]
    cases (ready.exec p none).1 with
    | ok v => simp [hp, Status.code, Except.isOk, Except.toBool]
    | error ds => simp [hp, Status.code, Except.isOk, Except.toBool]
  · rw [runSource_of_faulty hp]
    simp [hp, Status.code]

/-- what is said about a text that is no program goes to standard error and to the log -/
theorem report_silent (entry : LogEntry) (colors : Bool) (name source : Bytes) (ds : List Diagnostic) (m : Machine) :
    ∃ news : Array Effect, (∀ e ∈ news, Report.outOf e = []) ∧ (m.log entry).reportFailure colors name source ds =
      { m with world := { m.world with record := m.world.record ++ news } } := by
  obtain ⟨news, hnews, hlog⟩ := Machine.log_eq entry m
  let said : Effect := .err (Text.painted colors .red ((Failure.diagnostics ds).report name source) ++ text "\n")
  refine ⟨news.push said, fun e he => ?_, ?_⟩
  · rcases Array.mem_push.mp he with he | rfl
    · rw [hnews e he]
      rfl
    · rfl
  · rw [hlog, Array.append_push]
    rfl

/-- **The exit status classifies every run.** On a machine without host operations, the graphics backend of which gives no
diagnostics but those of running programs, the status of a run is 1 exactly when the text is no program, and then nothing
goes to standard output and nothing else changes than the record of what was reported; it is 2 exactly when the text is a
program that fails, and 0 when it is one that does not. For the scanner finds lexical faults only, the reader of programs
syntax faults only, and expressions, statements, calls and builtins fail only with faults of running programs. -/
theorem status_classifies (m : Machine) (hhosts : m.world.hosts = #[])
    (hrefuses : m.world.RefusesWith fun d => d.kind.phase = .running) (colors : Bool) (name source : Bytes) :
    let p := Program.ofSource source
    let ready := m.log (Eval.sourceNote name p)
    ((runSource m colors name source).1.code = 1 ↔ p.errors ≠ []) ∧
    (p.errors ≠ [] → ∃ news : Array Effect, (∀ e ∈ news, Report.outOf e = []) ∧
      (runSource m colors name source).2 = { m with world := { m.world with record := m.world.record ++ news } }) ∧
    ((runSource m colors name source).1.code = 2 ↔ p.errors = [] ∧ ∃ ds, (ready.exec p none).1 = .error ds) ∧
    ((runSource m colors name source).1.code = 0 ↔ p.errors = [] ∧ ∃ v, (ready.exec p none).1 = .ok v) ∧
    (∀ d ∈ (Token.scan source).errors, d.kind.phase = .lexing) ∧
    (∀ tokens, ∀ d ∈ (Program.ofTokens tokens).errors, d.kind.phase = .parsing) ∧
    (∀ scope e d, (Eval.expr Eval.apply scope e m).1 = .error d → d.kind.phase = .running) ∧
    (∀ scope s d, (Eval.stmt Eval.apply scope s m).1 = .error d → d.kind.phase = .running) ∧
    (∀ f args pos d, (Eval.apply f args pos m).1 = .error d → d.kind.phase = .running) ∧
    ∀ (primitive : Primitive) args d, (primitive.run Eval.apply args m).1 = .error d → d.kind.phase = .running := by
  intro p ready
  have hstandard : m.world.IsStandard := ⟨hhosts, hrefuses⟩
  obtain ⟨hunusable, hfailed, hsuccess⟩ := code_runSource hstandard colors name source
  refine ⟨hunusable, fun hp => ?_, hfailed, hsuccess, Token.scan_errors_lexing source, Program.ofTokens_errors_parsing, ?_⟩
  · rw [runSource_of_faulty hp]
    exact report_silent _ colors name source _ m
  · exact ⟨fun _ _ _ => Eval.expr_fails_running hstandard, fun _ _ _ => Eval.stmt_fails_running hstandard,
      fun _ _ _ _ => Eval.apply_fails_running hstandard, fun _ _ _ => Eval.primitive_fails_running hstandard⟩

theorem exists_eq_ok_of_map {r : Outcome} (h : r.map (fun _ => ()) = .ok ()) : ∃ v, r = .ok v := by
  cases r with
  | error ds => cases h
  | ok v => exact ⟨v, rfl⟩

/-- a machine whose standard output takes one more write -/
def choked : Machine := Machine.start { World.fresh with sink := some ⟨1, text "broken pipe"⟩ } 10

/-- the text has a lexical fault behind a syntax fault -/
def chokedFaulty : Bytes := text "print(\"a\"); let = \"b\"; @"

/-- the second write fails inside a call -/
def chokedFailing : Bytes := text "fn show() \x7b print(\"b\"); \x7d print(\"a\"); show();"

theorem status_classifies_choked :
    choked.world.hosts = #[] ∧ (choked.world.RefusesWith fun d => d.kind.phase = .running) ∧
    (runSource choked false (text "a") chokedFaulty).1.code = 1 ∧
    (∃ news : Array Effect, (∀ e ∈ news, Report.outOf e = []) ∧ (runSource choked false (text "a") chokedFaulty).2 =
      { choked with world := { choked.world with record := choked.world.record ++ news } }) ∧
    (runSource choked false (text "b") chokedFailing).1.code = 2 ∧
    (runSource choked false (text "c") (text "print(\"a\");")).1.code = 0 := by
  have hrefuses : choked.world.RefusesWith fun d => d.kind.phase = .running := .of_none rfl
  have hfaulty : (Program.ofSource chokedFaulty).errors ≠ [] := by
    have hstray : ⟨.strayCharacter '@' 1, ⟨1, 24⟩, [], false⟩ ∈ (Token.scan chokedFaulty).errors := by decide +kernel
    exact List.ne_nil_of_mem (Program.mem_ofSource_errors.mpr (.inl hstray))
  have hfails : ((choked.log (Eval.sourceNote (text "b") (Program.ofSource chokedFailing))).exec
      (Program.ofSource chokedFailing) none).1 =
        .error [⟨.outside (text "print") (text "broken pipe"), ⟨1, 18⟩,
          [.call ⟨text "print", ⟨1, 18⟩⟩, .call ⟨text "show", ⟨1, 43⟩⟩], false⟩] :=
    Machine.eq_error_of_map (by decide +kernel)
  obtain ⟨hunusable, hsilent, -⟩ := status_classifies choked rfl hrefuses false (text "a") chokedFaulty
  obtain ⟨-, -, hfailed, -⟩ := status_classifies choked rfl hrefuses false (text "b") chokedFailing
  obtain ⟨-, -, -, hsuccess, -⟩ := status_classifies choked rfl hrefuses false (text "c") (text "print(\"a\");")
  refine ⟨rfl, hrefuses, hunusable.mpr hfaulty, hsilent hfaulty, hfailed.mpr ⟨by decide +kernel, _, hfails⟩, ?_⟩
  exact hsuccess.mpr ⟨by decide +kernel, exists_eq_ok_of_map (by decide +kernel)⟩

end CommandLine

end Ouroboros
