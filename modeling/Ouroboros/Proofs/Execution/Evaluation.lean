/-
Expressions and statements settle.

When calls settle, so does everything else that the trees of a program ask for. Looking for a name ends since outwards the
numbers of scopes decrease (`Eval.settles_owner`); expressions and statements end by their trees (`Eval.settles_expr`,
`Eval.settles_stmt`), and loops by the rounds that are left (`Eval.settles_rounds`).
-/
import Ouroboros.Proofs.Operators
import Ouroboros.Proofs.Execution.Settling

namespace Ouroboros

namespace Eval

variable {c : Site} {k : Nat} {call : Call}

/-! ## Names -/

/-- the search for the scope that holds a name ends, for outwards the numbers of scopes decrease -/
theorem settles_owner (scope : ScopeId) (name : Bytes) {m : Machine} (hm : c.Holds m) :
    SettlesAt c (fun _ _ => True) (fun n => Task.runWithin n (.owner scope name))
      (Action.asks fun m => m.world.store.owner? scope name) m := by
  have hends : ∃ N, ∀ n, N ≤ n →
      Task.runWithin n (.owner scope name) m = some (.ok (m.world.store.owner? scope name), []) := by
    induction scope using Nat.strongRecOn with
    | _ scope ih =>
      have hrun : ∀ n, Task.runWithin (n + 1) (.owner scope name) m =
          Course.ownerIn (Task.runWithin n) m.world.store scope name m := fun n => Course.asks_bind _ _ m
      rw [Store.owner?_eq hm.wellFormed.store.ordered scope name]
      by_cases hbound : (m.world.store.bound? scope name).isSome = true
      · refine ⟨1, fun n hn => ?_⟩
        obtain ⟨n, rfl⟩ : ∃ i, n = i + 1 := ⟨n - 1, by omega⟩
        rw [hrun, Course.ownerIn, if_pos hbound, if_pos hbound]
        rfl
      · cases hp : m.world.store.parent? scope with
        | none =>
          refine ⟨1, fun n hn => ?_⟩
          obtain ⟨n, rfl⟩ : ∃ i, n = i + 1 := ⟨n - 1, by omega⟩
          rw [hrun, Course.ownerIn, if_neg hbound, if_neg hbound, hp]
          rfl
        | some p =>
          obtain ⟨N, hN⟩ := ih p (hm.wellFormed.store.parent? hp)
          refine ⟨N + 1, fun n hn => ?_⟩
          obtain ⟨n, rfl⟩ : ∃ i, n = i + 1 := ⟨n - 1, by omega⟩
          rw [hrun, Course.ownerIn, if_neg hbound, if_neg hbound, hp]
          exact hN n (Nat.le_of_succ_le_succ hn)
  obtain ⟨N, hN⟩ := hends
  exact ⟨⟨N, [], hN, rfl, trivial⟩, hm, Nat.le_refl _, fun _ _ => trivial⟩

/-- the value of a name is what the scope that holds it binds the name to -/
theorem asks_lookup? (scope : ScopeId) (name : Bytes) :
    (Action.asks fun m => m.world.store.lookup? scope name : Eval (Option Value)) = (do
      match ← Action.asks fun m => m.world.store.owner? scope name with
      | some owner => Action.asks fun m => m.world.store.bound? owner name
      | none => return none) := by
  funext m
  simp only [Action.bind_apply, Action.asks, Store.lookup?]
  cases m.world.store.owner? scope name <;> rfl

theorem settles_lookUp (scope : ScopeId) (name : Bytes) :
    Settles c k (fun n o => ∀ v, o = some v → v.Within n)
      (fun n => Course.lookUp (Task.runWithin n) scope name)
      (Action.asks fun m => m.world.store.lookup? scope name) := by
  intro m hm hk
  rw [asks_lookup?]
  refine (settles_owner scope name hm).bind (fun o ho => ?_) fun _ _ => rfl
  cases o with
  | none => exact .pure hm (by simp)
  | some owner => exact .asks hm _ fun v hv => hm.wellFormed.store.bound hv

/-! ## Expressions -/

/-- operators change nothing and give no functions -/
theorem binary_inert (pos rightPos : Pos) (op : BinaryOp) (left right : Value) (m : Machine) :
    (binary pos op rightPos left right m).2 = m ∧
      ∀ v, (binary pos op rightPos left right m).1 = .ok v → v.IsPlain := by
  cases applied op left right with
  | value hv h =>
    rw [h]
    refine ⟨rfl, ?_⟩
    rintro v ⟨⟩
    exact hv.ne_function
  | zero h | types h =>
    rw [h]
    exact ⟨rfl, nofun⟩

theorem range_inert (pos : Pos) (low high : Value) (m : Machine) :
    (range pos low high m).2 = m ∧ ∀ v, (range pos low high m).1 = .ok v → v.IsPlain := by
  cases ranged low high with
  | range _ _ _ h =>
    rw [h]
    refine ⟨rfl, ?_⟩
    rintro v ⟨⟩
    nofun
  | fault _ h =>
    rw [h]
    exact ⟨rfl, nofun⟩

/-- calls that settle -/
def SettlesCalls (c : Site) (call : Call) : Prop :=
  ∀ (k : Nat) (f : Value) (args : List Value) (pos : Pos), f.Within k → (∀ v ∈ args, v.Within k) →
    Settles c k Value.Within (fun n => Task.runWithin n (.call f args pos)) (call f args pos)

theorem settles_trace (function : Bytes) (stage : CallStage) :
    Settles c k (fun _ _ => True) (fun _ => Course.deed (.trace function stage)) (trace function stage) :=
  Settles.deed (d := .trace function stage) trivial rfl

mutual

theorem settles_expr (hcall : SettlesCalls c call) {k : Nat} {scope : ScopeId} (hscope : scope < k) : (e : Expr) →
    Settles c k Value.Within (fun n => Task.runWithin n (.expr scope e)) (expr call scope e)
  | .number _ value isInt _ => by
    rw [expr]
    exact .task (.expr ..) (.pure fun n _ => Value.within_number n _)
  | .string _ t => by
    rw [expr]
    exact .task (.expr ..) (.pure fun n _ => Value.within_string n t)
  | .ident pos name => by
    rw [expr]
    have hrun : (Eval.store >>= fun s => match s.lookup? scope name with
          | some v => return v
          | none => Action.failAt pos (.undefinedVariable name) : Eval Value) =
        (Action.asks fun m => m.world.store.lookup? scope name) >>= fun
          | some v => return v
          | none => Action.failAt pos (.undefinedVariable name) := rfl
    refine .task (.expr ..) (.congr ((settles_lookUp scope name).bind fun o n hn ho => ?_) hrun)
    cases o with
    | none => exact .failAt pos _
    | some v => exact .pure fun i hi => (ho v rfl).mono hi
  | .group _ inner => by
    rw [expr]
    exact .task (.expr ..) (settles_expr hcall hscope inner)
  | .await _ inner => by
    rw [expr]
    exact .task (.expr ..) (settles_expr hcall hscope inner)
  | .binary pos op left right => by
    rw [expr]
    refine .task (.expr ..) ((settles_expr hcall hscope left).bind fun a n hn ha => ?_)
    refine (settles_expr hcall (Nat.lt_of_lt_of_le hscope hn) right).bind fun b i hi hb => ?_
    refine .reads (fun m => (binary_inert pos right.pos op a b m).1) fun m v _ hv => ?_
    exact ((binary_inert pos right.pos op a b m).2 v hv).within _
  | .range pos low high => by
    rw [expr]
    refine .task (.expr ..) ((settles_expr hcall hscope low).bind fun a n hn ha => ?_)
    refine (settles_expr hcall (Nat.lt_of_lt_of_le hscope hn) high).bind fun b i hi hb => ?_
    refine .reads (fun m => (range_inert pos a b m).1) fun m v _ hv => ?_
    exact ((range_inert pos a b m).2 v hv).within _
  | .call pos callee args => by
    rw [expr]
    refine .task (.expr ..) ((settles_expr hcall hscope callee).bind fun f n hn hf => ?_)
    refine (settles_trace f.callName .aboutToCall).bind fun _ i hi _ => ?_
    have hlt : scope < i := Nat.lt_of_lt_of_le hscope (Nat.le_trans hn hi)
    refine (settles_exprs hcall hlt args).bind fun vs j hj hvs => ?_
    refine (settles_trace f.callName .argsEvaluated).bind fun _ l hl _ => ?_
    exact hcall l f vs pos (hf.mono (by omega)) fun v hv => (hvs v hv).mono hl

theorem settles_exprs (hcall : SettlesCalls c call) {k : Nat} {scope : ScopeId} (hscope : scope < k) :
    (es : List Expr) → Settles c k (fun n (vs : List Value) => ∀ v ∈ vs, v.Within n)
      (fun n => Task.runWithin n (.exprs scope es)) (exprs call scope es)
  | [] => by
    rw [exprs]
    exact .task (.exprs ..) (.pure fun _ _ => List.forall_mem_nil _)
  | e :: rest => by
    rw [exprs]
    refine .task (.exprs ..) ((settles_expr hcall hscope e).bind fun v n hn hv => ?_)
    refine (settles_exprs hcall (Nat.lt_of_lt_of_le hscope hn) rest).bind fun vs i hi hvs => ?_
    refine .pure fun j hj => ?_
    rw [List.forall_mem_cons]
    exact ⟨hv.mono (Nat.le_trans hi hj), fun w hw => (hvs w hw).mono hj⟩

end

/-! ## Statements -/

/-- what runs in a scope that is opened first -/
theorem settles_openScope {α : Type} {V : Nat → α → Prop} {x : Nat → ScopeId → Course α} {y : ScopeId → Eval α}
    {parent : ScopeId} {bindings : List (Bytes × Value)} (hparent : parent < k) (hb : ∀ b ∈ bindings, b.2.Within k)
    (h : ∀ i scope, k ≤ i → scope < i → Settles c i V (fun n => x n scope) (y scope)) :
    Settles c k V (fun n => (Course.deed (.openScope parent bindings) : Course ScopeId) >>= x n)
      (newScope parent >>= fun scope => Deed.bindIn scope bindings >>= fun _ => y scope) := by
  have hopen : Settles c k (fun n scope => scope < n)
      (fun _ => (Course.deed (.openScope parent bindings) : Course ScopeId))
      (newScope parent >>= fun scope => Deed.bindIn scope bindings >>= fun _ => pure scope) :=
    Settles.deed (d := .openScope parent bindings) ⟨hparent, hb⟩ rfl
  refine Settles.congr (hopen.bind fun scope i hi hscope => h i scope hi hscope) ?_
  simp only [bind_assoc, pure_bind]

theorem settles_declare {scope : ScopeId} {d : Declaration} (hd : (Deed.declare scope d).Fits k) :
    Settles c k (fun n scope => scope < n) (fun _ => (Course.deed (.declare scope d) : Course ScopeId))
      (declare scope d.name d.bound) :=
  Settles.deed (d := .declare scope d) hd rfl

/-- a new value goes to the scope that the search has found, which binds the name -/
theorem assign_eq (pos : Pos) (scope : ScopeId) (name : Bytes) (v : Value) : assign pos scope name v = (do
    match ← Action.asks fun m => m.world.store.owner? scope name with
    | none => Action.failAt pos (.undefinedTarget name)
    | some owner =>
      if owner = (← Action.asks fun m => m.interpreter.core) then Action.failAt pos (.builtinTarget name)
      else define owner name v) := rfl

theorem settles_assign (pos : Pos) (scope : ScopeId) (name : Bytes) {v : Value} (hv : v.Within k) :
    Settles c k (fun _ _ => True) (fun n => Course.assign (Task.runWithin n) pos scope name v)
      (assign pos scope name v) := by
  intro m hm hk
  rw [assign_eq]
  refine (settles_owner scope name hm).bind (fun o ho => ?_) fun _ _ => rfl
  cases o with
  | none => exact .failAt hm pos _
  | some owner =>
    refine (SettlesAt.look hm _).bind (fun core _ => ?_) fun _ _ => rfl
    refine .ite (fun _ => .failAt hm pos _) fun _ => ?_
    have hset := Settles.deed (c := c) (d := .set owner name v) hv rfl m hm hk
    refine hset.congr ?_
    have hbound := Store.bound?_owner (Except.ok.inj ho)
    rw [Deed.act_set, if_pos hbound]
    rfl

theorem settles_rounds {scope : ScopeId} (var : Bytes) {ss : List Stmt} (high : Int) (hscope : scope < k)
    (hbody : ∀ i inner, k ≤ i → inner < i →
      Settles c i Completion.Within (fun n => Task.runWithin n (.stmts inner ss .unit)) (stmts call inner ss .unit))
    (left : Nat) (next : Int) (hleft : (high - next).toNat = left) :
    Settles c k Completion.Within (fun n => Task.runWithin n (.rounds scope var ss next high))
      (rounds (fun i => do
        let inner ← newScope scope
        define inner var (.number (Number.ofInt i))
        stmts call inner ss .unit) left next) := by
  induction left generalizing k next with
  | zero =>
    have hdone : ¬next < high := by omega
    refine .task (.rounds ..) ?_
    simp only [Task.expand, Course.rounds, if_neg hdone]
    exact .pure fun n _ => Value.within_unit n
  | succ left ih =>
    have hnext : next < high := by omega
    refine .task (.rounds ..) ?_
    simp only [Task.expand, Course.rounds, if_pos hnext, rounds, bind_assoc, ← Deed.bindIn_singleton]
    refine settles_openScope hscope (List.forall_mem_singleton.mpr (Value.within_number k _)) fun i inner hi hinner => ?_
    refine (hbody i inner hi hinner).bind fun e j hj he => ?_
    cases e with
    | returned v => exact .pure fun l hl => he.mono hl
    | normal v =>
      have hle : k ≤ j := Nat.le_trans hi hj
      exact ih (Nat.lt_of_lt_of_le hscope hle) (fun l inner hl => hbody l inner (Nat.le_trans hle hl)) (next + 1)
        (by omega)

/-- a scope that is there, and a completion that refers to scopes that are there -/
def EndsWithin (n : Nat) (r : ScopeId × Completion) : Prop := r.1 < n ∧ r.2.Within n

theorem settles_ended {scope : ScopeId} {e : Completion} (hscope : scope < k) (he : e.Within k) :
    Settles c k EndsWithin (fun _ => pure (scope, e)) (pure (scope, e)) :=
  .pure fun _ hn => ⟨Nat.lt_of_lt_of_le hscope hn, he.mono hn⟩

/-- statements in a scope of their own -/
theorem settles_block {scope : ScopeId} {ss : List Stmt} (hscope : scope < k)
    (hbody : ∀ i inner, k ≤ i → inner < i →
      Settles c i Completion.Within (fun n => Task.runWithin n (.stmts inner ss .unit)) (stmts call inner ss .unit)) :
    Settles c k EndsWithin
      (fun n => Course.block (Task.runWithin n) scope ss >>= fun e => pure (scope, e))
      (do
        let inner ← newScope scope
        let e ← stmts call inner ss .unit
        return (scope, e.asBlock)) := by
  have hblock : Settles c k Completion.Within (fun n => Course.block (Task.runWithin n) scope ss)
      (newScope scope >>= fun inner => Deed.bindIn inner [] >>= fun _ =>
        stmts call inner ss .unit >>= fun e => pure e.asBlock) := by
    refine settles_openScope hscope (List.forall_mem_nil _) fun i inner hi hinner => ?_
    exact (hbody i inner hi hinner).bind fun e j hj he => .pure fun l hl => (he.mono hl).asBlock
  refine .congr (hblock.bind (g := fun e => pure (scope, e)) fun e i hi he => ?_) ?_
  · exact settles_ended (Nat.lt_of_lt_of_le hscope hi) he
  · simp only [Deed.bindIn, bind_assoc, pure_bind]

mutual

theorem settles_stmt (hcall : SettlesCalls c call) {k : Nat} {scope : ScopeId} (hscope : scope < k) : (s : Stmt) →
    Settles c k EndsWithin (fun n => Task.runWithin n (.stmt scope s)) (stmt call scope s)
  | .expr _ x => by
    rw [stmt]
    refine .task (.stmt ..) ((settles_expr hcall hscope x).bind fun v n hn hv => ?_)
    exact settles_ended (Nat.lt_of_lt_of_le hscope hn) hv
  | .letDecl _ name _ init => by
    rw [stmt]
    refine .task (.stmt ..) ((settles_expr hcall hscope init).bind fun v n hn hv => ?_)
    have hfits : (Deed.declare scope (.value name v)).Fits n := ⟨Nat.lt_of_lt_of_le hscope hn, hv⟩
    exact (settles_declare hfits).bind fun target i hi htarget => settles_ended htarget (Value.within_unit i)
  | .fnDecl _ sig _ body => by
    rw [stmt]
    have hfits : (Deed.declare scope (.function sig body)).Fits k := hscope
    refine .task (.stmt ..) ((settles_declare hfits).bind fun target i hi htarget => ?_)
    exact settles_ended htarget (Value.within_unit i)
  | .assign pos name value => by
    rw [stmt]
    refine .task (.stmt ..) ((settles_expr hcall hscope value).bind fun v n hn hv => ?_)
    exact (settles_assign pos scope name hv).bind fun _ i hi _ =>
      settles_ended (Nat.lt_of_lt_of_le hscope (Nat.le_trans hn hi)) (Value.within_unit i)
  | .cond _ test _ thenBody otherwise => by
    rw [stmt]
    refine .task (.stmt ..) ((settles_expr hcall hscope test).bind fun v n hn hv => ?_)
    have hlt : scope < n := Nat.lt_of_lt_of_le hscope hn
    refine .ite (fun _ => ?_) fun _ => ?_
    · exact settles_block hlt fun i inner _ hinner => settles_stmts hcall hinner thenBody (Value.within_unit i)
    · exact settles_other hcall hlt otherwise
  | .loop _ var bounds _ body => by
    rw [stmt]
    refine .task (.stmt ..) ((settles_expr hcall hscope bounds).bind fun v n hn hv => ?_)
    have hlt : scope < n := Nat.lt_of_lt_of_le hscope hn
    cases v with
    | range low high =>
      have hrounds := settles_rounds var high hlt
        (fun i inner _ hinner => settles_stmts hcall hinner body (Value.within_unit i)) _ low rfl
      exact hrounds.bind fun e i hi he => settles_ended (Nat.lt_of_lt_of_le hlt hi) he
    | unit | number | string | bool | function | builtin | unknown => exact .failAt _ _
  | .ret pos none => by
    rw [stmt]
    refine .task (.stmt ..) ((Settles.look _).bind fun frames n hn _ => ?_)
    exact .ite (fun _ => .failAt pos _) fun _ => settles_ended (Nat.lt_of_lt_of_le hscope hn) (Value.within_unit n)
  | .ret pos (some x) => by
    rw [stmt]
    refine .task (.stmt ..) ((Settles.look _).bind fun frames n hn _ => ?_)
    have hlt : scope < n := Nat.lt_of_lt_of_le hscope hn
    refine .ite (fun _ => .failAt pos _) fun _ => ?_
    exact (settles_expr hcall hlt x).bind fun v i hi hv => settles_ended (Nat.lt_of_lt_of_le hlt hi) hv
  | .block _ body => by
    rw [stmt]
    exact .task (.stmt ..) (settles_block hscope fun i inner _ hinner => settles_stmts hcall hinner body (Value.within_unit i))

theorem settles_stmts (hcall : SettlesCalls c call) {k : Nat} {scope : ScopeId} (hscope : scope < k) :
    (ss : List Stmt) → {last : Value} → last.Within k →
      Settles c k Completion.Within (fun n => Task.runWithin n (.stmts scope ss last)) (stmts call scope ss last)
  | [], last, hlast => by
    rw [stmts]
    exact .task (.stmts ..) (.pure fun n hn => hlast.mono hn)
  | s :: rest, last, hlast => by
    rw [stmts]
    refine .task (.stmts ..) ((settles_stmt hcall hscope s).bind fun r n hn hr => ?_)
    rcases r with ⟨inner, e⟩
    cases e with
    | returned v => exact .pure fun i hi => hr.2.mono hi
    | normal v => exact settles_stmts hcall hr.1 rest hr.2

theorem settles_other (hcall : SettlesCalls c call) {k : Nat} {scope : ScopeId} (hscope : scope < k) :
    (otherwise : Option Stmt) → Settles c k EndsWithin
      (fun n => match otherwise with
        | none => pure (scope, .normal .unit)
        | some s => do
          let (_, e) ← Task.runWithin n (.stmt scope s)
          return (scope, e))
      (do
        let e ← other call scope otherwise
        return (scope, e))
  | none => settles_ended hscope (Value.within_unit k)
  | some s => by
    rw [other, bind_assoc]
    refine (settles_stmt hcall hscope s).bind fun r n hn hr => ?_
    exact settles_ended (Nat.lt_of_lt_of_le hscope hn) hr.2

end

/-! ## Programs -/

/-- a program tells how it ended, and does not fail -/
theorem program_ok (call : Call) (scope : ScopeId) (ss : List Stmt) (last : Value) (m : Machine) :
    ∃ r, (program call scope ss last m).1 = .ok r := by
  induction ss generalizing scope last m with
  | nil => exact ⟨_, rfl⟩
  | cons s rest ih =>
    simp only [program, Action.bind_apply, Action.attempt]
    rcases stmt call scope s m with ⟨e | ⟨inner, v | v⟩, m'⟩
    · exact ⟨_, rfl⟩
    · exact ih inner v m'
    · exact ⟨_, rfl⟩

/-- a sound program does what its statements do; if it ran in the global scope, the scope in which it ended becomes the
global one -/
theorem exec_of_program {call : Call} {p : Program} (hp : p.isSound = true) (scope : Option ScopeId) {m m' : Machine}
    {r : Except Diagnostic Value} {last : ScopeId}
    (h : program call (scope.getD m.interpreter.global) p.stmts .unit m = (.ok (r, last), m')) :
    exec call p scope m = (.ok (outcome r),
      if scope.getD m.interpreter.global = m'.interpreter.global then m'.moveGlobal last else m') := by
  simp only [exec, if_pos hp, Action.bind_apply, Action.asks, h]
  split
  · rfl
  · rfl

theorem program_apply (call : Call) (scope : ScopeId) (ss : List Stmt) (last : Value) (m : Machine) :
    ∃ r inner m', program call scope ss last m = (.ok (r, inner), m') := by
  obtain ⟨⟨r, inner⟩, hr⟩ := program_ok call scope ss last m
  exact ⟨r, inner, _, Prod.ext hr rfl⟩

theorem exec_ok (call : Call) (p : Program) (scope : Option ScopeId) (m : Machine) :
    ∃ o, (exec call p scope m).1 = .ok o := by
  by_cases hp : p.isSound = true
  · obtain ⟨r, last, m', hrun⟩ := program_apply call (scope.getD m.interpreter.global) p.stmts .unit m
    exact ⟨outcome r, congrArg Prod.fst (exec_of_program hp scope hrun)⟩
  · rw [exec, if_neg hp]
    exact ⟨_, rfl⟩

theorem execSource_ok (call : Call) (name source : Bytes) (m : Machine) :
    ∃ o, (execSource call name source m).1 = .ok o := exec_ok call (Program.ofSource source) none _

/-- how a program ends: in a scope that is there, with a value that refers to scopes that are there -/
def EndsProgram (n : Nat) (r : Except Diagnostic Value × ScopeId) : Prop := r.2 < n ∧ ∀ v, r.1 = .ok v → v.Within n

theorem settles_program (hcall : SettlesCalls c call) {k : Nat} {scope : ScopeId} (hscope : scope < k) :
    (ss : List Stmt) → {last : Value} → last.Within k →
    Settles c k EndsProgram (fun n => Task.runWithin n (.program scope ss last)) (program call scope ss last)
  | [], _, hlast => by
    refine .task (.program ..) (.pure fun n hn => ⟨Nat.lt_of_lt_of_le hscope hn, ?_⟩)
    rintro v ⟨⟩
    exact hlast.mono hn
  | s :: rest, _, _ => by
    refine .task (.program ..) ((settles_stmt hcall hscope s).attempt.bind fun r n hn hr => ?_)
    rcases r with d | ⟨inner, e⟩
    · exact .pure fun i hi => ⟨Nat.lt_of_lt_of_le hscope (Nat.le_trans hn hi), nofun⟩
    · have hend := hr _ rfl
      cases e with
      | normal v => exact settles_program hcall hend.1 rest hend.2
      | returned v =>
        refine .pure fun i hi => ⟨Nat.lt_of_lt_of_le hend.1 hi, ?_⟩
        rintro w ⟨⟩
        exact Value.Within.mono hend.2 hi

/-- what a program gives refers to scopes that are there -/
def OutcomeWithin (n : Nat) (o : Outcome) : Prop := ∀ v, o = .ok v → v.Within n

theorem settles_exec (hcall : SettlesCalls c call) (p : Program) {scope : Option ScopeId}
    (hscope : ∀ s, scope = some s → s < k) :
    Settles c k OutcomeWithin (fun n => Course.exec (Task.runWithin n) p scope) (exec call p scope) := by
  refine .ite (fun _ => ?_) fun _ => .pure fun _ _ => nofun
  have hfirst : Settles c k (fun n first => first < n) (fun _ => Course.asks fun m => scope.getD m.interpreter.global)
      (Action.asks fun m => scope.getD m.interpreter.global) := by
    refine .asks _ fun m hm hk => ?_
    cases scope with
    | none => exact hm.wellFormed.global
    | some s => exact Nat.lt_of_lt_of_le (hscope s rfl) hk
  refine hfirst.bind fun first n hn hlt => (settles_program hcall hlt p.stmts (Value.within_unit n)).bind fun r i hi hr => ?_
  have houtcome : ∀ {j l : Nat}, i ≤ j → j ≤ l → OutcomeWithin l (outcome r.1) := by
    intro j l hj hl v hv
    rcases hend : r.1 with d | w
    · rw [hend] at hv
      cases hv
    · rw [hend] at hv
      cases hv
      exact (hr.2 _ hend).mono (Nat.le_trans hj hl)
  refine (Settles.look _).bind fun global j hj _ => .ite (fun _ => ?_) fun _ => .pure fun l hl => houtcome hj hl
  have hmove : (Deed.moveGlobal r.2).Fits j := Nat.lt_of_lt_of_le hr.1 hj
  refine (Settles.deed (d := .moveGlobal r.2) hmove rfl).bind fun _ l hl _ => .pure fun _ hn => ?_
  exact houtcome (Nat.le_trans hj hl) hn

theorem settles_execSource (hcall : SettlesCalls c call) (name source : Bytes) :
    Settles c k OutcomeWithin (fun n => Course.execSource (Task.runWithin n) name source) (execSource call name source) := by
  have hnote : Settles c k (fun _ _ => True)
      (fun _ => (Course.deed (.note (sourceNote name (Program.ofSource source))) : Course Unit))
      (log fun _ => sourceNote name (Program.ofSource source)) :=
    Settles.deed (d := .note _) trivial rfl
  exact hnote.bind fun _ n hn _ => settles_exec hcall (Program.ofSource source) nofun

end Eval

/-- a program that a host runs -/
theorem Machine.exec_of_program {p : Program} (hp : p.isSound = true) (scope : Option ScopeId) {m m' : Machine}
    {r : Except Diagnostic Value} {last : ScopeId}
    (h : Eval.program Eval.apply (scope.getD m.interpreter.global) p.stmts .unit m = (.ok (r, last), m')) :
    m.exec p scope = (Eval.outcome r,
      if scope.getD m.interpreter.global = m'.interpreter.global then m'.moveGlobal last else m') := by
  rw [exec, step, Eval.exec_of_program hp scope h]

end Ouroboros
