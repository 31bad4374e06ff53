/-
Evaluation does not look at details.

Every expression, statement and call is like its form without details, for each choice of details; the proofs follow the
trees, and for calls the room that is left for them. A program therefore runs like any other program that says the same,
on any machine that differs in details only. The text of a program runs like the program, up to places.
-/
import Ouroboros.Proofs.Execution.Judgments
import Ouroboros.Proofs.Forgetting.Steps
import Ouroboros.Proofs.RoundTrip

namespace Ouroboros

namespace Eval

variable {d : Details} {call : Call}

/-! ## Expressions -/

theorem alike_binary (pos pos' rightPos rightPos' : Pos) (op : BinaryOp) {left left' right right' : Value}
    (hleft : left.forget d = left'.forget d) (hright : right.forget d = right'.forget d) :
    Alike d (Value.forget d) (binary pos op rightPos left right) (binary pos' op rightPos' left' right') := by
  have hl := Value.resembles_of_forget hleft
  have hr := Value.resembles_of_forget hright
  by_cases hf : left.isFunction ∨ right.isFunction
  · rw [binary_of_function hf, binary_of_function (by rwa [hl.isFunction, hr.isFunction]), hl.typeName, hr.typeName]
    exact .failAt _ _ _
  · rw [not_or] at hf
    rw [hl.eq_of_not_function hf.1, hr.eq_of_not_function hf.2]
    cases applied op left right with
    | value _ h =>
      rw [h, h]
      exact .pure rfl
    | zero h | types h =>
      rw [h, h]
      exact .failAt _ _ _

theorem alike_range (pos pos' : Pos) {low low' high high' : Value} (hlow : low.forget d = low'.forget d)
    (hhigh : high.forget d = high'.forget d) :
    Alike d (Value.forget d) (range pos low high) (range pos' low' high') := by
  have hl := Value.resembles_of_forget hlow
  have hh := Value.resembles_of_forget hhigh
  by_cases hf : low.isFunction ∨ high.isFunction
  · rw [range_of_function hf, range_of_function (by rwa [hl.isFunction, hh.isFunction]), hl.described, hh.described]
    exact .failAt _ _ _
  · rw [not_or] at hf
    rw [hl.eq_of_not_function hf.1, hh.eq_of_not_function hf.2]
    cases ranged low high with
    | range _ _ _ h =>
      rw [h, h]
      exact .pure rfl
    | fault _ h =>
      rw [h, h]
      exact .failAt _ _ _

theorem alike_trace (function : Bytes) (stage : CallStage) : Alike d id (trace function stage) (trace function stage) := by
  refine alike_log fun m m' hm => ?_
  have hlength := congrArg (fun i => i.frames.length) hm.interpreter
  simp only [Interpreter.forget, List.length_map] at hlength
  rw [hlength]

mutual

theorem alike_expr (hcall : AlikeCalls d call) (scope : ScopeId) : (e : Expr) →
    Alike d (Value.forget d) (expr call scope e) (expr call scope (e.forget d))
  | .number .. | .string .. => by
    simp only [Expr.forget, expr]
    exact .pure rfl
  | .ident pos name => by
    simp only [Expr.forget, expr_ident]
    refine (alike_lookUp scope name).bind fun o o' ho => ?_
    rcases o with _ | v <;> rcases o' with _ | v'
    · exact .failAt _ _ _
    · cases ho
    · cases ho
    · exact .pure (Option.some.inj ho)
  | .group _ inner => by
    have hinner := alike_expr hcall scope inner
    simp only [Expr.forget, expr]
    split
    · exact hinner
    · simpa only [expr] using hinner
  | .await _ inner => by
    have hinner := alike_expr hcall scope inner
    simp only [Expr.forget, expr]
    split
    · exact hinner
    · simpa only [expr] using hinner
  | .binary pos op left right => by
    simp only [Expr.forget, expr]
    refine (alike_expr hcall scope left).bind fun a a' ha => (alike_expr hcall scope right).bind fun b b' hb => ?_
    exact alike_binary _ _ _ _ op ha hb
  | .range pos low high => by
    simp only [Expr.forget, expr]
    refine (alike_expr hcall scope low).bind fun a a' ha => (alike_expr hcall scope high).bind fun b b' hb => ?_
    exact alike_range _ _ ha hb
  | .call pos callee args => by
    simp only [Expr.forget, expr]
    refine (alike_expr hcall scope callee).bind fun f f' hf => ?_
    rw [(Value.resembles_of_forget hf).callName]
    refine .andThen (alike_trace _ _) fun _ => (alike_exprs hcall scope args).bind fun vs vs' hvs => ?_
    exact .andThen (alike_trace _ _) fun _ => hcall pos _ hf hvs

theorem alike_exprs (hcall : AlikeCalls d call) (scope : ScopeId) : (es : List Expr) →
    Alike d (List.map (Value.forget d)) (exprs call scope es) (exprs call scope (Expr.forgetAll d es))
  | [] => by
    simp only [Expr.forgetAll, exprs]
    exact .pure rfl
  | e :: rest => by
    simp only [Expr.forgetAll, exprs]
    refine (alike_expr hcall scope e).bind fun v v' hv => (alike_exprs hcall scope rest).bind fun vs vs' hvs => ?_
    exact .pure (congrArg₂ List.cons hv hvs)

end

/-! ## Statements -/

/-- the scope and the completion that a statement gives, without details -/
def forgetEnd (d : Details) (r : ScopeId × Completion) : ScopeId × Completion := (r.1, r.2.forget d)

theorem forgetEnd_eq {scope : ScopeId} {e e' : Completion} (h : e.forget d = e'.forget d) :
    forgetEnd d (scope, e) = forgetEnd d (scope, e') := congrArg (Prod.mk scope) h

theorem asBlock_alike {e e' : Completion} (h : e.forget d = e'.forget d) :
    e.asBlock.forget d = e'.asBlock.forget d := by
  rw [← Completion.asBlock_forget, ← Completion.asBlock_forget, h]

theorem alike_declare (scope : ScopeId) (name : Bytes) {value value' : ScopeId → Value}
    (h : ∀ target, (value target).forget d = (value' target).forget d) :
    Alike d id (declare scope name value) (declare scope name value') := by
  refine alike_store.bind fun s s' hs => ?_
  have hbound : (s.bound? scope name).isSome = (s'.bound? scope name).isSome := by
    simpa only [Store.bound?_forget, Option.isSome_map] using congrArg (fun s => (s.bound? scope name).isSome) hs
  have hdefine : ∀ target, Alike d id (do define target name (value target); return target)
      (do define target name (value' target); return target) :=
    fun target => .andThen (alike_define target name (h target)) fun _ => .pure rfl
  rw [hbound]
  split
  · exact .andThen (alike_newScope scope) hdefine
  · exact hdefine scope

theorem alike_assign (pos pos' : Pos) (scope : ScopeId) (name : Bytes) {v v' : Value} (hv : v.forget d = v'.forget d) :
    Alike d id (assign pos scope name v) (assign pos' scope name v') := by
  rw [assign_eq, assign_eq]
  refine .andThen (.asks fun m m' hm => ?_) fun owner => ?_
  · simpa only [Store.owner?_forget, id] using congrArg (fun s => s.owner? scope name) hm.store
  cases owner with
  | none => exact .failAt _ _ _
  | some owner =>
    refine .andThen (.asks fun m m' hm => hm.core) fun core => ?_
    split
    · exact .failAt _ _ _
    · exact alike_define _ _ hv

theorem alike_rounds {body body' : Int → Eval Completion}
    (h : ∀ i, Alike d (Completion.forget d) (body i) (body' i)) (n : Nat) (first : Int) :
    Alike d (Completion.forget d) (rounds body n first) (rounds body' n first) := by
  induction n generalizing first with
  | zero => exact .pure rfl
  | succ n ih =>
    refine (h first).bind fun e e' he => ?_
    rcases e with v | v <;> rcases e' with v' | v'
    · exact ih (first + 1)
    · cases he
    · cases he
    · exact .pure he

mutual

theorem alike_stmt (hcall : AlikeCalls d call) (scope : ScopeId) : (s : Stmt) →
    Alike d (forgetEnd d) (stmt call scope s) (stmt call scope (s.forget d))
  | .expr _ x => by
    simp only [Stmt.forget, stmt]
    exact (alike_expr hcall scope x).bind fun v v' hv => .pure (forgetEnd_eq (congrArg Completion.normal hv))
  | .letDecl _ name _ init => by
    simp only [Stmt.forget, stmt]
    refine (alike_expr hcall scope init).bind fun v v' hv => ?_
    exact .andThen (alike_declare scope name fun _ => hv) fun _ => .pure rfl
  | .fnDecl _ sig _ body => by
    simp only [Stmt.forget, stmt]
    refine .andThen (alike_declare scope sig.name fun target => ?_) fun _ => .pure rfl
    simp only [Value.forget, Closure.forget, sig.forget_forget d, Stmt.forgetAll_forgetAll]
  | .assign pos name value => by
    simp only [Stmt.forget, stmt]
    refine (alike_expr hcall scope value).bind fun v v' hv => ?_
    exact .andThen (alike_assign _ _ scope name hv) fun _ => .pure rfl
  | .cond _ test _ thenBody otherwise => by
    simp only [Stmt.forget, stmt]
    refine (alike_expr hcall scope test).bind fun v v' hv => ?_
    rw [(Value.resembles_of_forget hv).isTrue]
    split
    · refine .andThen (alike_newScope scope) fun inner => ?_
      exact (alike_stmts hcall inner thenBody rfl).bind fun e e' he => .pure (forgetEnd_eq (asBlock_alike he))
    · exact (alike_other hcall scope otherwise).bind fun e e' he => .pure (forgetEnd_eq he)
  | .loop _ var bounds _ body => by
    simp only [Stmt.forget, stmt]
    refine (alike_expr hcall scope bounds).bind fun v v' hv => ?_
    have hround : ∀ i : Int, Alike d (Completion.forget d)
        (do let inner ← newScope scope; define inner var (.number (Number.ofInt i)); stmts call inner body .unit)
        (do let inner ← newScope scope; define inner var (.number (Number.ofInt i))
            stmts call inner (Stmt.forgetAll d body) .unit) := by
      intro i
      refine .andThen (alike_newScope scope) fun inner => ?_
      exact .andThen (alike_define inner var rfl) fun _ => alike_stmts hcall inner body rfl
    cases Value.resembles_of_forget hv with
    | function => exact .failAt _ _ _
    | refl =>
      cases v with
      | range low high => exact (alike_rounds hround _ low).bind fun e e' he => .pure (forgetEnd_eq he)
      | unit | number | string | bool | function | builtin | unknown => exact .failAt _ _ _
  | .ret pos value => by
    simp only [Stmt.forget, stmt]
    refine .bind (g := List.map Frame.unplaced) (.asks fun m m' hm => congrArg Interpreter.frames hm.interpreter)
      fun frames frames' hframes => ?_
    rcases frames with _ | ⟨frame, frames⟩ <;> rcases frames' with _ | ⟨frame', frames'⟩
    · exact .failAt _ _ _
    · cases hframes
    · cases hframes
    · cases value with
      | none => exact .pure rfl
      | some x =>
        exact (alike_expr hcall scope x).bind fun v v' hv => .pure (forgetEnd_eq (congrArg Completion.returned hv))
  | .block _ body => by
    simp only [Stmt.forget, stmt]
    refine .andThen (alike_newScope scope) fun inner => ?_
    exact (alike_stmts hcall inner body rfl).bind fun e e' he => .pure (forgetEnd_eq (asBlock_alike he))

theorem alike_stmts (hcall : AlikeCalls d call) (scope : ScopeId) : (ss : List Stmt) → {last last' : Value} →
    last.forget d = last'.forget d →
    Alike d (Completion.forget d) (stmts call scope ss last) (stmts call scope (Stmt.forgetAll d ss) last')
  | [], _, _, hlast => by
    simp only [Stmt.forgetAll, stmts]
    exact .pure (congrArg Completion.normal hlast)
  | s :: rest, _, _, _ => by
    simp only [Stmt.forgetAll, stmts]
    refine (alike_stmt hcall scope s).bind fun r r' hr => ?_
    rcases r with ⟨inner, v | v⟩ <;> rcases r' with ⟨inner', v' | v'⟩ <;> obtain ⟨hinner, hv⟩ := Prod.mk.inj hr
    · obtain rfl : inner = inner' := hinner
      exact alike_stmts hcall inner rest (Completion.normal.inj hv)
    · cases hv
    · cases hv
    · exact .pure hv

theorem alike_other (hcall : AlikeCalls d call) (scope : ScopeId) : (o : Option Stmt) →
    Alike d (Completion.forget d) (other call scope o) (other call scope (Stmt.forgetElse d o))
  | none => by
    simp only [Stmt.forgetElse, other]
    exact .pure rfl
  | some s => by
    simp only [Stmt.forgetElse, other]
    exact (alike_stmt hcall scope s).bind fun r r' hr => .pure (Prod.mk.inj hr).2

end

/-! ## Programs -/

/-- how a program has ended, without details, and where -/
def forgetRun (d : Details) (r : Except Diagnostic Value × ScopeId) : Except Diagnostic Value × ScopeId :=
  (forgetResult (Value.forget d) r.1, r.2)

theorem alike_program (hcall : AlikeCalls d call) (scope : ScopeId) (ss : List Stmt) {last last' : Value}
    (hlast : last.forget d = last'.forget d) :
    Alike d (forgetRun d) (program call scope ss last) (program call scope (Stmt.forgetAll d ss) last') := by
  induction ss generalizing scope last last' with
  | nil => exact .pure (congrArg (fun v => (Except.ok v, scope)) hlast)
  | cons s rest ih =>
    simp only [Stmt.forgetAll, program]
    refine (alike_stmt hcall scope s).attempt.bind fun r r' hr => ?_
    rcases r with e | ⟨inner, c⟩ <;> rcases r' with e' | ⟨inner', c'⟩
    · exact .pure (congrArg (fun e => (Except.error e, scope)) (Except.error.inj hr))
    · cases hr
    · cases hr
    · obtain ⟨hinner, hc⟩ := Prod.mk.inj (Except.ok.inj hr)
      obtain rfl : inner = inner' := hinner
      rcases c with v | v <;> rcases c' with v' | v'
      · exact ih inner (Completion.normal.inj hc)
      · cases hc
      · cases hc
      · exact .pure (congrArg (fun v => (Except.ok v, inner)) (Completion.returned.inj hc))

theorem outcome_forget (r : Except Diagnostic Value) :
    (outcome r).forget d = outcome (forgetResult (Value.forget d) r) := by
  cases r <;> rfl

theorem alike_moveGlobal (scope : ScopeId) : Alike d id (moveGlobal scope) (moveGlobal scope) :=
  .change fun _ _ hm => ⟨congrArg (fun m => m.moveGlobal scope) hm.forgotten, hm.hosts⟩

/-- a program and its form without details -/
theorem alike_exec_forget (hcall : AlikeCalls d call) (p : Program) (scope : Option ScopeId) :
    Alike d (Outcome.forget d) (exec call p scope) (exec call (p.forget d) scope) := by
  have hsound : (p.forget d).isSound = p.isSound := by
    simp [Program.isSound, Program.forget]
  unfold exec
  rw [hsound]
  split
  · refine .andThen (.asks fun m m' hm => congrArg scope.getD hm.global) fun first => ?_
    refine (alike_program hcall first p.stmts rfl).bind fun r r' hr => ?_
    obtain ⟨hend, hlast⟩ := Prod.mk.inj hr
    have houtcome : (outcome r.1).forget d = (outcome r'.1).forget d := by
      rw [outcome_forget, outcome_forget, hend]
    refine .andThen (.asks fun m m' hm => hm.global) fun global => ?_
    dsimp only
    rw [hlast]
    split
    · exact .andThen (alike_moveGlobal _) fun _ => .pure houtcome
    · exact .pure houtcome
  · refine .pure (congrArg Except.error ?_)
    simp only [Program.forget, List.map_map]
    exact List.map_congr_left fun e _ => e.unplaced_unplaced.symm

theorem alike_exec (hcall : AlikeCalls d call) {p p' : Program} (hp : p.forget d = p'.forget d) (scope : Option ScopeId) :
    Alike d (Outcome.forget d) (exec call p scope) (exec call p' scope) := by
  have hp' := alike_exec_forget hcall p scope
  rw [hp] at hp'
  exact hp'.trans (alike_exec_forget hcall p' scope).symm

theorem alike_execSource (hcall : AlikeCalls d call) (name source : Bytes) :
    Alike d (Outcome.forget d) (execSource call name source) (execSource call name source) :=
  .andThen (alike_log fun _ _ _ => rfl) fun _ => alike_exec hcall rfl none

/-! ## Operations of a host -/

theorem alike_register (b : Builtin) : Alike d id (register b) (register b) :=
  .andThen (.asks fun _ _ hm => hm.core) fun core => alike_define core b.name rfl

theorem alike_setVisible (scope : ScopeId) (name : Bytes) {v v' : Value} (hv : v.forget d = v'.forget d) :
    Alike d id (setVisible scope name v) (setVisible scope name v') := by
  refine alike_store.bind fun s s' hs => ?_
  have howner : s.owner? scope name = s'.owner? scope name := by
    simpa only [Store.owner?_forget] using congrArg (fun s => s.owner? scope name) hs
  rw [howner]
  split
  · exact .pure rfl
  · exact .andThen (alike_define _ name hv) fun _ => .pure rfl

theorem alike_remember {vs vs' : List Value} (h : vs.map (Value.forget d) = vs'.map (Value.forget d)) :
    Alike d id (changeWorld fun w => { w with memory := vs }) (changeWorld fun w => { w with memory := vs' }) :=
  .change fun _ _ hm =>
    ⟨congrArg₂ (fun m vs => { m with world := { m.world with memory := vs } : Machine }) hm.forgotten h, hm.hosts⟩

/-- actions that are alike, question by question -/
theorem alike_action (hcall : AlikeCalls d call) {a a' : HostAction} (h : a.Alike d a') :
    Alike d (Value.forget d) (a.run call) (a'.run call) := by
  induction h with
  | answer h => exact .pure h
  | fail h => exact .fail h
  | @ask r r' next next' hr _ ih =>
    cases r with
    | call f args =>
      cases r' with
      | call f' args' =>
        injection hr with hf hargs
        exact (hcall _ _ hf hargs).attempt.bind fun b b' hb => ih b b' (heq_of_eq hb)
      | _ => cases hr
    | exec p scope =>
      cases r' with
      | exec p' scope' =>
        injection hr with hp hscope
        obtain rfl : scope = scope' := hscope
        exact (alike_exec hcall hp scope).bind fun b b' hb => ih b b' (heq_of_eq hb)
      | _ => cases hr
    | define scope name v =>
      cases r' with
      | define scope' name' v' =>
        injection hr with hscope hname hv
        subst hscope hname
        exact (alike_define _ _ hv).bind fun b b' hb => ih b b' (heq_of_eq hb)
      | _ => cases hr
    | set scope name v =>
      cases r' with
      | set scope' name' v' =>
        injection hr with hscope hname hv
        subst hscope hname
        exact (alike_setVisible _ _ hv).bind fun b b' hb => ih b b' (heq_of_eq hb)
      | _ => cases hr
    | remember vs =>
      cases r' with
      | remember vs' =>
        injection hr with hvs
        exact (alike_remember hvs).bind fun b b' hb => ih b b' (heq_of_eq hb)
      | _ => cases hr
    | execSource name source =>
      cases r' <;> cases hr
      exact (alike_execSource hcall name source).bind fun b b' hb => ih b b' (heq_of_eq hb)
    | register name arity index =>
      cases r' <;> cases hr
      exact (alike_register _).bind fun b b' hb => ih b b' (heq_of_eq hb)
    | lookUp scope name =>
      cases r' <;> cases hr
      exact (alike_lookUp scope name).bind fun b b' hb => ih b b' (heq_of_eq hb)
    | core =>
      cases r' <;> cases hr
      exact Alike.bind (g := id) (.asks fun _ _ hm => hm.core) fun b b' hb => ih b b' (heq_of_eq hb)
    | global =>
      cases r' <;> cases hr
      exact Alike.bind (g := id) (.asks fun _ _ hm => hm.global) fun b b' hb => ih b b' (heq_of_eq hb)
    | newScope parent =>
      cases r' <;> cases hr
      exact (alike_newScope parent).bind fun b b' hb => ih b b' (heq_of_eq hb)
    | kept =>
      cases r' <;> cases hr
      exact Alike.bind (.asks fun _ _ hm => hm.memory) fun b b' hb => ih b b' (heq_of_eq hb)

theorem alike_builtin (hcall : AlikeCalls d call) (b : Builtin) {args args' : List Value}
    (hargs : args.map (Value.forget d) = args'.map (Value.forget d)) :
    Alike d (Value.forget d) (b.run call args) (b.run call args') := by
  obtain ⟨name, arity, p | index⟩ := b
  · exact Primitive.alike_run hcall p hargs
  · intro m m' hm
    have hindex := hm.hosts index
    rw [← Builtin.ofHost, Builtin.run_ofHost, Builtin.run_ofHost]
    generalize m.world.hosts[index]? = o at hindex ⊢
    generalize m'.world.hosts[index]? = o' at hindex ⊢
    cases hindex with
    | none => exact ⟨rfl, hm⟩
    | some hop => exact alike_action hcall (hop args args' hargs) m m' hm

/-! ## Calls -/

/-- what can be called, without details -/
def Callee.forget (d : Details) : Callee → Callee
  | .declared f => .declared (f.forget d)
  | .builtin b => .builtin b

theorem Callee.of?_forget (v : Value) : of? (v.forget d) = (of? v).map (forget d) := by
  cases v <;> rfl

theorem Callee.name_forget (c : Callee) : (c.forget d).name = c.name := by
  cases c <;> rfl

theorem Callee.arity_forget (c : Callee) : (c.forget d).arity = c.arity := by
  cases c with
  | declared f => exact congrArg some (Signature.length_params_forget d f.sig)
  | builtin b => rfl

theorem alike_bindIn (scope : ScopeId) {bs bs' : List (Bytes × Value)} (h : Table.forget d bs = Table.forget d bs') :
    Alike d id (Deed.bindIn scope bs) (Deed.bindIn scope bs') := by
  induction bs generalizing bs' with
  | nil =>
    cases bs' with
    | nil => exact .pure rfl
    | cons => cases h
  | cons b bs ih =>
    cases bs' with
    | nil => cases h
    | cons b' bs' =>
      obtain ⟨hb, hrest⟩ := List.cons.inj h
      obtain ⟨hname, hv⟩ := Prod.mk.inj hb
      simp only [Deed.bindIn, hname]
      exact .andThen (alike_define scope b'.1 hv) fun _ => ih hrest

theorem zip_forget (names : List Bytes) (args : List Value) :
    Table.forget d (names.zip args) = names.zip (args.map (Value.forget d)) := by
  rw [Table.forget, List.zip_map_right]
  rfl

theorem alike_body (hcall : AlikeCalls d call) {args args' : List Value}
    (hargs : args.map (Value.forget d) = args'.map (Value.forget d)) {callee callee' : Callee}
    (h : callee.forget d = callee'.forget d) :
    Alike d (Completion.forget d) (body call args callee) (body call args' callee') := by
  cases callee with
  | builtin b =>
    cases callee' <;> cases h
    exact (alike_builtin hcall b hargs).bind fun v v' hv => .pure (congrArg Completion.returned hv)
  | declared f =>
    cases callee' with
    | builtin => cases h
    | declared f' =>
      obtain ⟨hsig, hbody, hscope⟩ := Closure.mk.inj (Callee.declared.inj h)
      have hnames : f.sig.params.map Param.name = f'.sig.params.map Param.name := by
        rw [← Signature.map_name_forget d, hsig, Signature.map_name_forget]
      simp only [body, bindAll_eq, hscope, hnames]
      refine .andThen (alike_newScope _) fun scope => .andThen (alike_bindIn scope ?_) fun _ => ?_
      · rw [zip_forget, zip_forget, hargs]
      · have hstmts := alike_stmts hcall scope f.body (rfl : Value.unit.forget d = Value.unit.forget d)
        rw [hbody] at hstmts
        exact hstmts.trans (alike_stmts hcall scope f'.body rfl).symm

theorem annotate_unplaced (pos : Pos) (frames : List Frame) (e : Diagnostic) :
    annotate .unknown (frames.map Frame.unplaced) e.unplaced = (annotate pos frames e).unplaced := by
  by_cases h : e.trace = []
  · simp [annotate, Diagnostic.unplaced, TraceLine.unplaced, h]
  · simp only [annotate, Diagnostic.unplaced, List.map_eq_nil_iff, h, if_false]
    rfl

theorem alike_enter (name : Bytes) (pos pos' : Pos) : Alike d id (enter ⟨name, pos⟩) (enter ⟨name, pos'⟩) :=
  .change fun _ _ hm => ⟨congrArg (fun m => { m with interpreter :=
    { m.interpreter with frames := ⟨name, .unknown⟩ :: m.interpreter.frames } : Machine }) hm.forgotten, hm.hosts⟩

theorem alike_leave : Alike d id leave leave := by
  refine .change fun m m' hm => ⟨?_, hm.hosts⟩
  have htail := congrArg (fun m : Machine => { m with interpreter :=
    { m.interpreter with frames := m.interpreter.frames.tail } : Machine }) hm.forgotten
  simpa only [Machine.forget, Interpreter.forget, List.map_tail] using htail

theorem calleeFor_forget (f : Value) (args : List Value) :
    calleeFor (f.forget d) (args.map (Value.forget d)) = (calleeFor f args).map (Callee.forget d) := by
  simp only [calleeFor, Callee.of?_forget, Value.typeName_forget]
  cases Callee.of? f with
  | none => rfl
  | some callee =>
    simp only [Option.map_some, Callee.arity_forget, Callee.name_forget, List.length_map]
    cases callee.arity with
    | none => rfl
    | some n =>
      simp only [apply_ite (Except.map (Callee.forget d))]
      rfl

theorem alike_settle {callee callee' : Callee} (hname : callee.name = callee'.name) (pos pos' : Pos)
    {r r' : Except Diagnostic Completion}
    (hr : forgetResult (Completion.forget d) r = forgetResult (Completion.forget d) r') :
    Alike d (Value.forget d) (settle callee pos r) (settle callee' pos' r') := by
  cases r with
  | error e =>
    cases r' with
    | ok c' => cases hr
    | error e' =>
      refine .bind (g := List.map Frame.unplaced) (.asks fun _ _ hm => hm.frames) fun frames frames' hframes => ?_
      refine .andThen alike_leave fun _ => .fail ?_
      rw [← annotate_unplaced pos frames e, ← annotate_unplaced pos' frames' e', hframes, Except.error.inj hr]
  | ok c =>
    cases r' with
    | error e' => cases hr
    | ok c' =>
      have hc : c.forget d = c'.forget d := Except.ok.inj hr
      have hend : ∀ stage {v v' : Value}, v.forget d = v'.forget d → Alike d (Value.forget d)
          (do leave; trace callee'.name stage; trace callee'.name .completed; return v)
          (do leave; trace callee'.name stage; trace callee'.name .completed; return v') := fun stage v v' hv =>
        .andThen alike_leave fun _ => .andThen (alike_trace _ _) fun _ => .andThen (alike_trace _ _) fun _ => .pure hv
      rcases c with v | v <;> rcases c' with v' | v' <;> simp only [settle, hname]
      · exact hend .normalEnd rfl
      · cases hc
      · cases hc
      · exact hend .returnSignal (Completion.returned.inj hc)

theorem alike_carryOut (hcall : AlikeCalls d call) {callee callee' : Callee} (hcallee : callee.forget d = callee'.forget d)
    {args args' : List Value} (hargs : args.map (Value.forget d) = args'.map (Value.forget d)) (pos pos' : Pos) :
    Alike d (Value.forget d) (carryOut call callee args pos) (carryOut call callee' args' pos') := by
  have hname : callee.name = callee'.name := by rw [← Callee.name_forget (d := d), hcallee, Callee.name_forget]
  simp only [carryOut, hname]
  refine .andThen (alike_enter _ _ _) fun _ => .andThen (alike_trace _ _) fun _ => ?_
  exact (alike_body hcall hargs hcallee).attempt.bind fun r r' hr => alike_settle hname pos pos' hr

theorem alike_applyWith {inner : Option Call} (h : ∀ call, inner = some call → AlikeCalls d call) :
    AlikeCalls d (applyWith inner) := by
  intro f f' args args' pos pos' hf hargs
  have hcallee := calleeFor_forget (d := d) f args
  rw [hf, hargs, calleeFor_forget] at hcallee
  rw [applyWith_eq, applyWith_eq]
  rcases hc : calleeFor f args with fault | callee <;> rcases hc' : calleeFor f' args' with fault' | callee' <;>
    rw [hc, hc'] at hcallee
  · obtain rfl : fault' = fault := Except.error.inj hcallee
    exact .failAt _ _ _
  · cases hcallee
  · cases hcallee
  · cases inner with
    | none => exact .andThen (.asks fun _ _ hm => hm.limit) fun _ => .failAt _ _ _
    | some call => exact alike_carryOut (h call rfl) (Except.ok.inj hcallee).symm hargs pos pos'

/-- what decreases along nested calls is the room for them; each call is made of calls with less room -/
theorem alike_applyWithin (room : Nat) : AlikeCalls d (applyWithin room) := by
  induction room with
  | zero =>
    refine alike_applyWith ?_
    rintro _ ⟨⟩
  | succ room ih =>
    refine alike_applyWith ?_
    rintro _ ⟨⟩
    exact ih

theorem alike_apply : AlikeCalls d apply := by
  intro f f' args args' pos pos' hf hargs
  refine .andThen (.asks fun m m' hm => ?_) fun n => alike_applyWithin n pos pos' hf hargs
  have hlength := congrArg List.length hm.frames
  rw [List.length_map, List.length_map] at hlength
  simp only [room, hm.limit, hlength]

end Eval

/-! ## Programs of a host -/

namespace Machine

variable {d : Details}

/-- what two operations gave differs in details only, and they did the same to the outside -/
structure AgreeUpTo (d : Details) (r r' : Outcome × Machine) : Prop where
  /-- values without details are equal; failures have equal faults, and active calls with equal names -/
  outcome : r.1.forget d = r'.1.forget d
  machine : r.2.SameUpTo d r'.2
  outside : r.2.world.record = r'.2.world.record

theorem step_agree {m m' : Machine} (hm : m.SameUpTo d m') {x y : Eval Outcome}
    (h : Eval.Alike d (Outcome.forget d) x y) : AgreeUpTo d (m.step x) (m'.step y) := by
  obtain ⟨hresult, hafter⟩ := h m m' hm
  have houtside : (x m).2.world.record = (y m').2.world.record := by
    have hrecord := congrArg (fun m => m.world.record) hafter.forgotten
    exact hrecord
  unfold step
  rcases hx : x m with ⟨e | o, n⟩ <;> rcases hy : y m' with ⟨e' | o', n'⟩ <;> rw [hx, hy] at hresult hafter houtside
  · exact ⟨congrArg (fun e => Except.error [e]) (Except.error.inj hresult), hafter, houtside⟩
  · cases hresult
  · cases hresult
  · exact ⟨Except.ok.inj hresult, hafter, houtside⟩

theorem exec_agree {m m' : Machine} {p p' : Program} (scope : Option ScopeId) (hp : p.forget d = p'.forget d)
    (hm : m.SameUpTo d m') : AgreeUpTo d (m.exec p scope) (m'.exec p' scope) :=
  step_agree hm (Eval.alike_exec Eval.alike_apply hp scope)

end Machine

/-- the text of a faultless program is read as the program, up to places -/
theorem Program.forget_ofSource_render {source : Bytes} (h : (ofSource source).errors = []) :
    (ofSource (ofSource source).render).errors = [] ∧
      (ofSource (ofSource source).render).forget .places = (ofSource source).forget .places := by
  obtain ⟨ts, p, hscan, hts, hderives⟩ := exists_derives_of_errors_nil h
  obtain ⟨stmts', hread, hsame⟩ := ofSource_renderAll hderives hts
  have hread' : ofSource (ofSource source).render = ⟨stmts', []⟩ := hread
  simp only [hread', forget, h, Stmt.forgetAll_places, hsame, and_self]

theorem Stmt.length_forgetAll (d : Details) (ss : List Stmt) : (forgetAll d ss).length = ss.length := by
  induction ss with
  | nil => rfl
  | cons s rest ih => simp only [forgetAll, List.length_cons, ih]

namespace Machine

/-- a machine runs texts alike that are read without a fault as programs that say the same -/
theorem execSource_agree {d : Details} {m : Machine} (hm : m.SameUpTo d m) (name : Bytes) {source source' : Bytes}
    (h : (Program.ofSource source).errors = []) (h' : (Program.ofSource source').errors = [])
    (hp : (Program.ofSource source).forget d = (Program.ofSource source').forget d) :
    AgreeUpTo d (m.execSource name source) (m.execSource name source') := by
  have hlength : (Program.ofSource source).stmts.length = (Program.ofSource source').stmts.length := by
    rw [← Stmt.length_forgetAll d, ← Stmt.length_forgetAll d (Program.ofSource source').stmts]
    exact congrArg (fun p => p.stmts.length) hp
  refine step_agree hm (.andThen (Eval.alike_log fun _ _ _ => ?_) fun _ => Eval.alike_exec Eval.alike_apply hp none)
  simp only [Eval.sourceNote, Program.isSound, h, h', hlength]

/-- **Details do not matter.** Programs that say the same run alike on machines that differ in details only, whichever
details are forgotten, all of them (`Details.all`) among others: both give values that differ in details only, or both fail
with the same faults and the same names of active calls; the machines left differ in details only, and what was done to the
outside is the same. To differ in details only, the machines must have hosts whose operations are alike up to details: one
that shows the place of a failure is not alike even to itself. Therefore the text of a faultless program runs like the
source it was read from, up to places, if the host's operations do not look at places. -/
theorem exec_upTo_details :
    (∀ (d : Details) (m m' : Machine) (p p' : Program) (scope : Option ScopeId), p.forget d = p'.forget d →
      m.SameUpTo d m' → AgreeUpTo d (m.exec p scope) (m'.exec p' scope)) ∧
    ∀ (m : Machine) (name source : Bytes), m.world.HostsAlike .places m.world → (Program.ofSource source).errors = [] →
      (Program.ofSource (Program.ofSource source).render).errors = [] ∧
      AgreeUpTo .places (m.execSource name (Program.ofSource source).render) (m.execSource name source) := by
  refine ⟨fun d m m' p p' scope hp hm => exec_agree scope hp hm, fun m name source hhosts h => ?_⟩
  obtain ⟨herrors, hread⟩ := Program.forget_ofSource_render h
  exact ⟨herrors, execSource_agree ⟨rfl, hhosts⟩ name herrors h hread⟩

/-- a function that adds one: where it stands, the type it is written with, and what is written around its result -/
def addOne (pos : Pos) (type : Option TypeRef) (around : Expr → Expr) : Stmt :=
  .fnDecl pos ⟨text "next", [⟨text "n", type, pos⟩], type, false, false⟩ pos
    [.ret pos (some (around (.binary pos .add (.ident pos (text "n")) (.number pos 1 true (text "1")))))]

/-- a call of the function with itself, which fails -/
def addOneWrongly (pos : Pos) (around : Expr → Expr) : Program :=
  let next := Expr.ident pos (text "next")
  ⟨[.expr pos (around (.call pos next [around next]))], []⟩

theorem trying_alike (d : Details) : HostOperation.Alike d .trying .trying := by
  intro args args' hargs
  cases args with
  | nil =>
    cases args' with
    | nil => exact .answer rfl
    | cons => cases hargs
  | cons f args =>
    cases args' with
    | nil => cases hargs
    | cons f' args' =>
      obtain ⟨hf, hrest⟩ := List.cons.inj hargs
      refine .ask (congrArg₂ HostRequest.call hf hrest) fun a a' ha => ?_
      have hend : Eval.forgetResult (Value.forget d) a = Eval.forgetResult (Value.forget d) a' := eq_of_heq ha
      rcases a with e | v <;> rcases a' with e' | v'
      · exact .answer rfl
      · cases hend
      · cases hend
      · exact .answer (Except.ok.inj hend)

/-- a function kept by the machine with places, a type, parentheses and `await`, and without them; the call fails in it, and
the host has an operation that could call it -/
theorem exec_upTo_details_addOne :
    let placed := addOne ⟨3, 1⟩ (some ⟨text "int", ⟨3, 9⟩⟩) fun e => .await ⟨3, 20⟩ (.group ⟨3, 26⟩ e)
    let plain := addOne .unknown none id
    let start := (start .fresh 10).register (text "trying") none .trying
    let m := (start.exec ⟨[placed], []⟩ none).2
    let m' := (start.exec ⟨[plain], []⟩ none).2
    let p := addOneWrongly ⟨4, 1⟩ (Expr.group ⟨4, 1⟩)
    let p' := addOneWrongly .unknown id
    let source := text "print((1 + 2));"
    p.forget .all = p'.forget .all ∧ m.SameUpTo .all m' ∧
    AgreeUpTo .all (m.exec p none) (m'.exec p' none) ∧
    m.world.HostsAlike .places m.world ∧ (Program.ofSource source).errors = [] ∧
    AgreeUpTo .places (m.execSource [] (Program.ofSource source).render) (m.execSource [] source) := by
  intro placed plain start m m' p p' source
  have hp : p.forget .all = p'.forget .all := rfl
  have hdeclared : Program.forget .all ⟨[placed], []⟩ = Program.forget .all ⟨[plain], []⟩ := rfl
  have hhosts : ∀ d, start.world.HostsAlike d start.world := by
    intro d i
    cases i with
    | zero => exact .some (trying_alike d)
    | succ i => exact .none
  have hm : m.SameUpTo .all m' := (exec_agree none hdeclared ⟨rfl, hhosts .all⟩).machine
  have hm' : m.world.HostsAlike .places m.world :=
    (exec_agree (p := ⟨[placed], []⟩) none rfl ⟨rfl, hhosts .places⟩).machine.hosts
  have hsource : (Program.ofSource source).errors = [] := by decide +kernel
  exact ⟨hp, hm, exec_upTo_details.1 .all m m' p p' none hp hm, hm', hsource,
    (exec_upTo_details.2 m [] source hm' hsource).2⟩

/-- an operation of a host that tells on which line a function fails -/
def telling : HostOperation
  | [] => .answer .unit
  | f :: args => .ask (.call f args) fun a : Except Diagnostic Value =>
    match a with
    | .ok v => .answer v
    | .error e => .answer (.number (Number.ofInt e.pos.line))

/-- such an operation sees a detail -/
example :
    let m := (start .fresh 10).register (text "telling") none telling
    ((m.execSource [] (text "fn f() \x7b 1(); \x7d telling(f);")).1.map Value.shown,
      (m.execSource [] (text "\nfn f() \x7b 1(); \x7d telling(f);")).1.map Value.shown) =
        (.ok (text "1"), .ok (text "2")) := by
  decide +kernel

end Machine

end Ouroboros
