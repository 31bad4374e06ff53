/-
Judgments of evaluation.

A judgment says something of a step and of what it gives, or of two steps that are taken side by side. All of evaluation is
put together from few steps, so a judgment that holds of these and is handed on from a step to the one behind it holds of
every expression and statement (`Eval.judge_expr`, `Eval.judge_stmt`) and of every builtin of the language
(`Eval.judge_primitive`), whatever the judgment says. That it holds of calls is asked, for what a call does depends on the
room for nested calls; and so it is of the operations of the host, which may do almost anything.

The rules may count on terms (`Terms`): on what holds of the trees of the program and of all functions that it meets, on
the places at which such trees can fail, and on the scopes in which declarations are made.
-/
import Ouroboros.Proofs.Execution.Termination
import Ouroboros.Proofs.Failures.Raising

namespace Ouroboros

/-! ## Parts of trees -/

namespace Expr

/-- the expressions that an expression is made of -/
def parts : Expr → List Expr
  | .number .. | .string .. | .ident .. => []
  | .binary _ _ left right => [left, right]
  | .range _ low high => [low, high]
  | .call _ callee args => callee :: args
  | .await _ inner | .group _ inner => [inner]

theorem sizeOf_parts {e part : Expr} (h : part ∈ e.parts) : sizeOf part < sizeOf e := by
  cases e with
  | number | string | ident => cases h
  | binary | range =>
    simp only [parts, List.mem_cons, List.not_mem_nil, or_false] at h
    rcases h with rfl | rfl
    · simp +arith
    · simp +arith
  | call pos callee args =>
    rcases List.mem_cons.mp h with rfl | h
    · simp +arith
    · have hargs := List.sizeOf_lt_of_mem h
      rw [call.sizeOf_spec]
      omega
  | await | group =>
    obtain rfl := List.mem_singleton.mp h
    simp +arith

/-- the expression and all expressions in it are as `P` says -/
inductive Throughout (P : Expr → Prop) : Expr → Prop where
  | intro {e : Expr} (here : P e) (inside : ∀ part ∈ e.parts, part.Throughout P) : e.Throughout P

namespace Throughout

variable {P : Expr → Prop} {e : Expr}

theorem here (h : e.Throughout P) : P e := by
  cases h with
  | intro here _ => exact here

theorem inside (h : e.Throughout P) {part : Expr} (hpart : part ∈ e.parts) : part.Throughout P := by
  cases h with
  | intro _ inside => exact inside part hpart

/-- what holds of all expressions holds throughout -/
theorem of_forall (h : ∀ e, P e) (e : Expr) : e.Throughout P := .intro (h e) fun part _ => of_forall h part
termination_by sizeOf e
decreasing_by exact sizeOf_parts ‹_›

end Throughout

end Expr

namespace Stmt

/-- the expressions that a statement is made of -/
def exprs : Stmt → List Expr
  | .letDecl _ _ _ x | .assign _ _ x | .expr _ x => [x]
  | .cond _ test _ _ _ => [test]
  | .loop _ _ bounds _ _ => [bounds]
  | .ret _ value => value.toList
  | .fnDecl .. | .block .. => []

/-- the statements that a statement is made of -/
def parts : Stmt → List Stmt
  | .fnDecl _ _ _ body | .loop _ _ _ _ body | .block _ body => body
  | .cond _ _ _ thenBody otherwise => thenBody ++ otherwise.toList
  | .letDecl .. | .assign .. | .expr .. | .ret .. => []

theorem sizeOf_parts {s part : Stmt} (h : part ∈ s.parts) : sizeOf part < sizeOf s := by
  cases s with
  | letDecl | assign | expr | ret => cases h
  | fnDecl pos sig bodyPos body =>
    have hbody : sizeOf part < sizeOf body := List.sizeOf_lt_of_mem h
    rw [fnDecl.sizeOf_spec]
    omega
  | loop pos var bounds bodyPos body =>
    have hbody : sizeOf part < sizeOf body := List.sizeOf_lt_of_mem h
    rw [loop.sizeOf_spec]
    omega
  | block pos body =>
    have hbody : sizeOf part < sizeOf body := List.sizeOf_lt_of_mem h
    rw [block.sizeOf_spec]
    omega
  | cond pos test thenPos thenBody otherwise =>
    rw [cond.sizeOf_spec]
    rcases List.mem_append.mp h with h | h
    · have hbody := List.sizeOf_lt_of_mem h
      omega
    · obtain rfl := Option.mem_toList.mp h
      simp +arith

/-- the expressions in the statement are as `P` says, and the statement and all statements in it as `Q` says -/
inductive Throughout (P : Expr → Prop) (Q : Stmt → Prop) : Stmt → Prop where
  | intro {s : Stmt} (here : Q s) (exprs : ∀ x ∈ s.exprs, x.Throughout P) (inside : ∀ part ∈ s.parts, part.Throughout P Q) :
    s.Throughout P Q

namespace Throughout

variable {P : Expr → Prop} {Q : Stmt → Prop} {s : Stmt}

theorem here (h : s.Throughout P Q) : Q s := by
  cases h with
  | intro here _ _ => exact here

theorem exprs (h : s.Throughout P Q) {x : Expr} (hx : x ∈ s.exprs) : x.Throughout P := by
  cases h with
  | intro _ exprs _ => exact exprs x hx

theorem inside (h : s.Throughout P Q) {part : Stmt} (hpart : part ∈ s.parts) : part.Throughout P Q := by
  cases h with
  | intro _ _ inside => exact inside part hpart

theorem of_forall (h : ∀ e, P e) (h' : ∀ s, Q s) (s : Stmt) : s.Throughout P Q :=
  .intro (h' s) (fun x _ => .of_forall h x) fun part _ => of_forall h h' part
termination_by sizeOf s
decreasing_by exact sizeOf_parts ‹_›

end Throughout

/-- whether the statement declares a name in the scope in which it runs; what follows `else` runs in that scope too -/
def declares : Stmt → Bool
  | .letDecl .. | .fnDecl .. => true
  | .cond _ _ _ _ (some otherwise) => otherwise.declares
  | _ => false

end Stmt

/-- the value that a statement ends with -/
def Completion.value : Completion → Value
  | .normal v | .returned v => v

namespace Eval

/-! ## Judgments -/

/-- something said of two steps and of what they give -/
abbrev Judgment : Type 1 := ∀ ⦃α : Type⦄, (α → Prop) → Eval α → Eval α → Prop

/-- what a judgment may count on -/
structure Terms where
  /-- what holds of every expression -/
  expr : Expr → Prop
  /-- what holds of every statement -/
  stmt : Stmt → Prop
  /-- the places where trees can fail and calls are made -/
  place : Pos → Prop
  /-- the scopes in which declarations are made -/
  scope : ScopeId → Prop
  place_expr : ∀ {e}, expr e → place e.pos
  place_stmt : ∀ {s}, stmt s → place s.pos

namespace Terms

/-- a statement as the terms have it -/
def Admits (T : Terms) (s : Stmt) : Prop := s.Throughout T.expr T.stmt

/-- a value whose body, if it is a function of a program, is as the terms have it -/
def value (T : Terms) (v : Value) : Prop := ∀ f, v = .function f → ∀ s ∈ f.body, T.Admits s

theorem value_of_plain (T : Terms) {v : Value} (h : v.IsPlain) : T.value v := fun f hf => absurd hf (h f)

theorem value_unit (T : Terms) : T.value .unit := by
  intro f hf
  cases hf

/-- terms that ask only where declarations are made -/
def free (scope : ScopeId → Prop) : Terms where
  expr _ := True
  stmt _ := True
  place _ := True
  scope := scope
  place_expr _ := trivial
  place_stmt _ := trivial

theorem admits_free (scope : ScopeId → Prop) (s : Stmt) : (free scope).Admits s :=
  .of_forall (fun _ => trivial) (fun _ => trivial) s

theorem value_free (scope : ScopeId → Prop) (v : Value) : (free scope).value v := fun _ _ s _ => admits_free scope s

end Terms

/-- a judgment that is handed on from a step to the one behind it -/
structure Rules (J : Judgment) : Prop where
  pure : ∀ {α : Type} {V : α → Prop} {a : α}, V a → J V (Pure.pure a) (Pure.pure a)
  bind : ∀ {α β : Type} {V : α → Prop} {W : β → Prop} {x x' : Eval α} {k k' : α → Eval β},
    J V x x' → (∀ a, V a → J W (k a) (k' a)) → J W (x >>= k) (x' >>= k')

theorem Rules.weaken {J : Judgment} (R : Rules J) {α : Type} {V W : α → Prop} {x x' : Eval α} (h : J V x x')
    (hW : ∀ a, V a → W a) : J W x x' := by
  have hpure := R.bind h fun a ha => R.pure (hW a ha)
  rwa [bind_pure, bind_pure] at hpure

/-- a judgment that holds of the steps of which trees are made, but for those that only call expressions take -/
structure StepRules (T : Terms) (J : Judgment) : Prop extends Rules J where
  failAt : ∀ {α : Type} {V : α → Prop} {pos : Pos} {fault : Fault}, T.place pos → fault.isOwn = true →
    J V (Action.failAt pos fault) (Action.failAt pos fault)
  lookUp : ∀ (scope : ScopeId) (name : Bytes), J (fun o => ∀ v, o = some v → T.value v)
    (Action.asks fun m => m.world.store.lookup? scope name) (Action.asks fun m => m.world.store.lookup? scope name)
  frames : J (fun _ => True) (Action.asks fun m => m.interpreter.frames) (Action.asks fun m => m.interpreter.frames)
  assign : ∀ {pos : Pos} {name : Bytes} {x : Expr} (scope : ScopeId) {v : Value}, T.stmt (.assign pos name x) →
    T.value v → J (fun _ => True) (assign pos scope name v) (assign pos scope name v)
  declare : ∀ {scope : ScopeId} {d : Declaration}, T.scope scope → (∀ i, T.value (d.bound i)) →
    J T.scope (declare scope d.name d.bound) (declare scope d.name d.bound)
  openScope : ∀ (parent : ScopeId) {bindings : List (Bytes × Value)}, (∀ b ∈ bindings, T.value b.2) →
    J T.scope (Deed.act (.openScope parent bindings)) (Deed.act (.openScope parent bindings))

/-- a judgment that holds of the steps of which trees are made -/
structure TreeRules (T : Terms) (J : Judgment) : Prop extends StepRules T J where
  trace : ∀ (function : Bytes) (stage : CallStage), J (fun _ => True) (trace function stage) (trace function stage)

/-- a judgment that holds of the steps of which the language's own builtins are made -/
structure BuiltinRules (T : Terms) (J : Judgment) : Prop extends Rules J where
  idle : ∀ (p : Primitive) {args : List Value}, (∀ v ∈ args, T.value v) →
    J T.value (p.run Deed.idle args) (p.run Deed.idle args)
  handlers : ∀ event : Bytes, J (fun hs => ∀ h ∈ hs, T.value h)
    (Action.asks fun m => Primitive.handlersOf m.interpreter event)
    (Action.asks fun m => Primitive.handlersOf m.interpreter event)

/-! ## Scopes -/

/-- the step does to the scopes what `f` says and has to do with nothing else -/
def OnScopes {α : Type} (f : Store → α × Store) (x : Eval α) : Prop :=
  ∀ m, x m = (.ok (f m.world.store).1, m.withStore (f m.world.store).2)

/-- the store with a new scope that has bindings -/
def opened (parent : ScopeId) (bindings : List (Bytes × Value)) (s : Store) : ScopeId × Store :=
  (s.scopes.size, (s.push (some parent)).2.defineAll s.scopes.size bindings)

/-- the store with a declaration made in a scope, or in a new one inside it -/
def declared (scope : ScopeId) (d : Declaration) (s : Store) : ScopeId × Store :=
  if (s.bound? scope d.name).isSome then opened scope [(d.name, d.bound s.scopes.size)] s
  else (scope, s.define scope d.name (d.bound scope))

theorem onScopes_openScope (parent : ScopeId) (bindings : List (Bytes × Value)) :
    OnScopes (opened parent bindings) (Deed.act (.openScope parent bindings)) := Deed.act_openScope parent bindings

theorem onScopes_declare (scope : ScopeId) (d : Declaration) :
    OnScopes (declared scope d) (declare scope d.name d.bound) := by
  intro m
  have hact := Deed.act_declare scope d m
  unfold declared
  split
  · rwa [if_pos ‹_›] at hact
  · rwa [if_neg ‹_›] at hact

theorem onScopes_define (scope : ScopeId) (name : Bytes) (v : Value) :
    OnScopes (fun s => ((), s.define scope name v)) (define scope name v) := fun _ => rfl

/-- an assignment finds no binding, or one of a builtin, or it gives a binding a new value -/
theorem assign_apply (pos : Pos) (scope : ScopeId) (name : Bytes) (v : Value) (m : Machine) :
    (∃ fault, fault.isOwn = true ∧ assign pos scope name v m = Action.failAt pos fault m) ∨
    ∃ owner, owner ≠ m.interpreter.core ∧ (m.world.store.bound? owner name).isSome = true ∧
      assign pos scope name v m = (.ok (), m.withStore (m.world.store.define owner name v)) := by
  cases howner : m.world.store.owner? scope name with
  | none =>
    refine .inl ⟨.undefinedTarget name, rfl, ?_⟩
    simp only [assign_eq, Action.bind_apply, Action.asks, howner]
  | some owner =>
    by_cases hcore : owner = m.interpreter.core
    · refine .inl ⟨.builtinTarget name, rfl, ?_⟩
      simp only [assign_eq, Action.bind_apply, Action.asks, howner, if_pos hcore]
    · refine .inr ⟨owner, hcore, Store.bound?_owner howner, ?_⟩
      simp only [assign_eq, Action.bind_apply, Action.asks, howner, if_neg hcore]
      rfl

/-- refusing to call a value -/
theorem isOwn_of_calleeFor {f : Value} {args : List Value} {fault : Fault} (h : calleeFor f args = .error fault) :
    fault.isOwn = true := by
  unfold calleeFor at h
  split at h
  · cases h
    rfl
  · split at h
    · split at h
      · cases h
        rfl
      · cases h
    · cases h

/-- the judgment holds of calls at places of which `place` holds -/
def JudgesCalls (T : Terms) (J : Judgment) (place : Pos → Prop) (call call' : Call) : Prop :=
  ∀ (f : Value) (args : List Value) (pos : Pos), place pos → T.value f → (∀ v ∈ args, T.value v) →
    J T.value (call f args pos) (call' f args pos)

/-- the judgment holds of the operations of a host -/
def JudgesHosts (T : Terms) (J : Judgment) (call call' : Call) : Prop :=
  ∀ (name : Bytes) (arity : Option Nat) (index : Nat) {args : List Value}, (∀ v ∈ args, T.value v) →
    J T.value ((Builtin.ofHost name arity index).run call args) ((Builtin.ofHost name arity index).run call' args)

/-- The judgment holds of a call expression when it holds of the parts. A judgment that says something of the lines of a
call in the debug log holds of the whole, and not of each of them. -/
def JudgesCallExprs (T : Terms) (J : Judgment) (call call' : Call) : Prop :=
  ∀ (scope : ScopeId) {pos : Pos} {callee : Expr} {args : List Expr}, T.expr (.call pos callee args) →
    J T.value (expr call scope callee) (expr call' scope callee) →
    J (fun vs => ∀ v ∈ vs, T.value v) (exprs call scope args) (exprs call' scope args) →
    J T.value (expr call scope (.call pos callee args)) (expr call' scope (.call pos callee args))

variable {T : Terms} {J J' : Judgment} {call call' : Call} {scope : ScopeId}

/-! ## Expressions -/

theorem judge_binary (R : StepRules T J) {pos rightPos : Pos} (hpos : T.place pos) (hright : T.place rightPos)
    (op : BinaryOp) (left right : Value) :
    J T.value (binary pos op rightPos left right) (binary pos op rightPos left right) := by
  cases applied op left right with
  | value hv h =>
    rw [h]
    exact R.pure (T.value_of_plain hv.ne_function)
  | zero h =>
    rw [h]
    exact R.failAt hright rfl
  | types h =>
    rw [h]
    exact R.failAt hpos rfl

theorem judge_range (R : StepRules T J) {pos : Pos} (hpos : T.place pos) (low high : Value) :
    J T.value (range pos low high) (range pos low high) := by
  cases ranged low high with
  | range _ _ _ h =>
    rw [h]
    exact R.pure (T.value_of_plain nofun)
  | fault hkind h =>
    rw [h]
    exact R.failAt hpos (by rw [Fault.isOwn, hkind]; rfl)

/-- a name is looked up in the scopes as they are -/
theorem expr_ident (call : Call) (scope : ScopeId) (pos : Pos) (name : Bytes) :
    expr call scope (.ident pos name) = (do
      match ← Action.asks fun m => m.world.store.lookup? scope name with
      | some v => return v
      | none => Action.failAt pos (.undefinedVariable name)) := by
  rw [expr]
  rfl

mutual

theorem judge_expr_of_calls (R : StepRules T J) (hcalls : JudgesCallExprs T J call call') : (e : Expr) →
    e.Throughout T.expr → J T.value (expr call scope e) (expr call' scope e)
  | .number _ value isInt _, _ => by
    rw [expr, expr]
    exact R.pure (T.value_of_plain nofun)
  | .string _ t, _ => by
    rw [expr, expr]
    exact R.pure (T.value_of_plain nofun)
  | .ident pos name, h => by
    rw [expr_ident, expr_ident]
    refine R.bind (R.lookUp scope name) fun o ho => ?_
    cases o with
    | none => exact R.failAt (T.place_expr h.here) rfl
    | some v => exact R.pure (ho v rfl)
  | .group _ inner, h => by
    rw [expr, expr]
    exact judge_expr_of_calls R hcalls inner (h.inside List.mem_cons_self)
  | .await _ inner, h => by
    rw [expr, expr]
    exact judge_expr_of_calls R hcalls inner (h.inside List.mem_cons_self)
  | .binary pos op left right, h => by
    rw [expr, expr]
    have hright : right.Throughout T.expr := h.inside (List.mem_cons_of_mem _ List.mem_cons_self)
    refine R.bind (judge_expr_of_calls R hcalls left (h.inside List.mem_cons_self)) fun a _ => ?_
    refine R.bind (judge_expr_of_calls R hcalls right hright) fun b _ => ?_
    exact judge_binary R (T.place_expr h.here) (T.place_expr hright.here) op a b
  | .range pos low high, h => by
    rw [expr, expr]
    refine R.bind (judge_expr_of_calls R hcalls low (h.inside List.mem_cons_self)) fun a _ => ?_
    refine R.bind (judge_expr_of_calls R hcalls high (h.inside (List.mem_cons_of_mem _ List.mem_cons_self))) fun b _ => ?_
    exact judge_range R (T.place_expr h.here) a b
  | .call pos callee args, h => by
    refine hcalls scope h.here (judge_expr_of_calls R hcalls callee (h.inside List.mem_cons_self)) ?_
    exact judge_exprs_of_calls R hcalls args fun e he => h.inside (List.mem_cons_of_mem _ he)

theorem judge_exprs_of_calls (R : StepRules T J) (hcalls : JudgesCallExprs T J call call') : (es : List Expr) →
    (∀ e ∈ es, e.Throughout T.expr) →
    J (fun vs => ∀ v ∈ vs, T.value v) (exprs call scope es) (exprs call' scope es)
  | [], _ => by
    rw [exprs, exprs]
    exact R.pure (List.forall_mem_nil _)
  | e :: rest, h => by
    rw [exprs, exprs]
    rw [List.forall_mem_cons] at h
    refine R.bind (judge_expr_of_calls R hcalls e h.1) fun v hv => ?_
    refine R.bind (judge_exprs_of_calls R hcalls rest h.2) fun vs hvs => ?_
    exact R.pure (List.forall_mem_cons.mpr ⟨hv, hvs⟩)

end

/-! ## Statements -/

/-- what runs in a scope that is opened first -/
theorem judge_openScope (R : StepRules T J) {α : Type} {V : α → Prop} (parent : ScopeId)
    {bindings : List (Bytes × Value)} (hb : ∀ b ∈ bindings, T.value b.2) {k k' : ScopeId → Eval α}
    (h : ∀ inner, T.scope inner → J V (k inner) (k' inner)) :
    J V (newScope parent >>= fun inner => Deed.bindIn inner bindings >>= fun _ => k inner)
      (newScope parent >>= fun inner => Deed.bindIn inner bindings >>= fun _ => k' inner) := by
  have hopen := R.bind (R.openScope parent hb) h
  simp only [Deed.act, bind_assoc, pure_bind] at hopen
  exact hopen

/-- a step that runs in a new scope and then leaves it -/
theorem judge_block (R : StepRules T J) {x x' : ScopeId → Eval Completion}
    (h : ∀ inner, T.scope inner → J (fun e => T.value e.value) (x inner) (x' inner)) :
    J (fun r => (T.scope scope → T.scope r.1) ∧ T.value r.2.value)
      (do let inner ← newScope scope; let e ← x inner; return (scope, e.asBlock))
      (do let inner ← newScope scope; let e ← x' inner; return (scope, e.asBlock)) := by
  refine judge_openScope R scope (List.forall_mem_nil _) fun inner hinner => R.bind (h inner hinner) fun e he => ?_
  refine R.pure ⟨id, ?_⟩
  cases e with
  | normal v => exact T.value_unit
  | returned v => exact he

theorem judge_rounds (R : StepRules T J) (var : Bytes) {x x' : ScopeId → Eval Completion}
    (h : ∀ inner, T.scope inner → J (fun e => T.value e.value) (x inner) (x' inner)) (left : Nat) (next : Int) :
    J (fun e => T.value e.value)
      (rounds (fun i => do
        let inner ← newScope scope
        define inner var (.number (Number.ofInt i))
        x inner) left next)
      (rounds (fun i => do
        let inner ← newScope scope
        define inner var (.number (Number.ofInt i))
        x' inner) left next) := by
  induction left generalizing next with
  | zero => exact R.pure T.value_unit
  | succ left ih =>
    have hnumber : ∀ b ∈ [(var, Value.number (Number.ofInt next))], T.value b.2 :=
      List.forall_mem_singleton.mpr (T.value_of_plain nofun)
    refine R.bind (judge_openScope R scope hnumber h) fun e he => ?_
    cases e with
    | returned v => exact R.pure he
    | normal v => exact ih (next + 1)

mutual

theorem judge_stmt_of_calls (R : StepRules T J) (hcalls : JudgesCallExprs T J call call') : (s : Stmt) →
    {scope : ScopeId} → T.Admits s → (s.declares = true → T.scope scope) →
    J (fun r => (T.scope scope → T.scope r.1) ∧ T.value r.2.value) (stmt call scope s) (stmt call' scope s)
  | .expr _ x, scope, h, _ => by
    rw [stmt, stmt]
    exact R.bind (judge_expr_of_calls R hcalls x (h.exprs List.mem_cons_self)) fun v hv => R.pure ⟨id, hv⟩
  | .letDecl _ name _ init, scope, h, hscope => by
    rw [stmt, stmt]
    refine R.bind (judge_expr_of_calls R hcalls init (h.exprs List.mem_cons_self)) fun v hv => ?_
    refine R.bind (R.declare (d := .value name v) (hscope rfl) fun _ => hv) fun target htarget => ?_
    exact R.pure ⟨fun _ => htarget, T.value_unit⟩
  | .fnDecl _ sig _ body, scope, h, hscope => by
    rw [stmt, stmt]
    have hbody : ∀ i, T.value ((Declaration.function sig body).bound i) := by
      rintro i f ⟨⟩ s hs
      exact h.inside hs
    refine R.bind (R.declare (d := .function sig body) (hscope rfl) hbody) fun target htarget => ?_
    exact R.pure ⟨fun _ => htarget, T.value_unit⟩
  | .assign pos name value, scope, h, _ => by
    rw [stmt, stmt]
    refine R.bind (judge_expr_of_calls R hcalls value (h.exprs List.mem_cons_self)) fun v hv => ?_
    exact R.bind (R.assign scope h.here hv) fun _ _ => R.pure ⟨id, T.value_unit⟩
  | .cond _ test _ thenBody otherwise, scope, h, hscope => by
    rw [stmt, stmt]
    refine R.bind (judge_expr_of_calls R hcalls test (h.exprs List.mem_cons_self)) fun v _ => ?_
    split
    · refine judge_block R fun inner hinner => judge_stmts_of_calls R hcalls thenBody ?_ hinner T.value_unit
      exact fun s hs => h.inside (List.mem_append_left _ hs)
    · refine R.bind (judge_other_of_calls R hcalls otherwise ?_ ?_) fun e he => R.pure ⟨id, he⟩
      · exact fun s hs => h.inside (List.mem_append_right _ (Option.mem_toList.mpr hs))
      · rintro s rfl
        exact hscope
  | .loop _ var bounds _ body, scope, h, _ => by
    rw [stmt, stmt]
    have hbounds : bounds.Throughout T.expr := h.exprs List.mem_cons_self
    refine R.bind (judge_expr_of_calls R hcalls bounds hbounds) fun v _ => ?_
    cases v with
    | range low high =>
      refine R.bind (judge_rounds R var (fun inner hinner => ?_) _ _) fun e he => R.pure ⟨id, he⟩
      exact judge_stmts_of_calls R hcalls body (fun s hs => h.inside hs) hinner T.value_unit
    | unit | number | string | bool | function | builtin | unknown =>
      exact R.failAt (T.place_expr hbounds.here) rfl
  | .ret pos none, scope, h, _ => by
    rw [stmt, stmt]
    refine R.bind R.frames fun frames _ => ?_
    split
    · exact R.failAt (T.place_stmt h.here) rfl
    · exact R.pure ⟨id, T.value_unit⟩
  | .ret pos (some x), scope, h, _ => by
    rw [stmt, stmt]
    refine R.bind R.frames fun frames _ => ?_
    split
    · exact R.failAt (T.place_stmt h.here) rfl
    · exact R.bind (judge_expr_of_calls R hcalls x (h.exprs List.mem_cons_self)) fun v hv => R.pure ⟨id, hv⟩
  | .block _ body, scope, h, _ => by
    rw [stmt, stmt]
    refine judge_block R fun inner hinner => judge_stmts_of_calls R hcalls body ?_ hinner T.value_unit
    exact fun s hs => h.inside hs

theorem judge_stmts_of_calls (R : StepRules T J) (hcalls : JudgesCallExprs T J call call') : (ss : List Stmt) →
    {scope : ScopeId} → {last : Value} → (∀ s ∈ ss, T.Admits s) → T.scope scope → T.value last →
    J (fun e => T.value e.value) (stmts call scope ss last) (stmts call' scope ss last)
  | [], scope, last, _, _, hlast => by
    rw [stmts, stmts]
    exact R.pure hlast
  | s :: rest, scope, last, h, hscope, _ => by
    rw [stmts, stmts]
    rw [List.forall_mem_cons] at h
    refine R.bind (judge_stmt_of_calls R hcalls s h.1 fun _ => hscope) fun r hr => ?_
    rcases r with ⟨inner, v | v⟩
    · exact judge_stmts_of_calls R hcalls rest h.2 (hr.1 hscope) hr.2
    · exact R.pure hr.2

theorem judge_other_of_calls (R : StepRules T J) (hcalls : JudgesCallExprs T J call call') : (otherwise : Option Stmt) →
    {scope : ScopeId} → (∀ s, otherwise = some s → T.Admits s) →
    (∀ s, otherwise = some s → s.declares = true → T.scope scope) →
    J (fun e => T.value e.value) (other call scope otherwise) (other call' scope otherwise)
  | none, scope, _, _ => by
    rw [other, other]
    exact R.pure T.value_unit
  | some s, scope, h, hscope => by
    rw [other, other]
    exact R.bind (judge_stmt_of_calls R hcalls s (h s rfl) (hscope s rfl)) fun r hr => R.pure hr.2

end

/-! ### Judgments of the lines of calls -/

theorem TreeRules.judgesCallExprs (R : TreeRules T J) (hcall : JudgesCalls T J T.place call call') :
    JudgesCallExprs T J call call' := by
  intro scope pos callee args h hcallee hargs
  rw [expr, expr]
  refine R.bind hcallee fun f hf => R.bind (R.trace _ _) fun _ _ => ?_
  refine R.bind hargs fun vs hvs => R.bind (R.trace _ _) fun _ _ => ?_
  exact hcall f vs pos (T.place_expr h) hf hvs

theorem judge_expr (R : TreeRules T J) (hcall : JudgesCalls T J T.place call call') (e : Expr)
    (h : e.Throughout T.expr) : J T.value (expr call scope e) (expr call' scope e) :=
  judge_expr_of_calls R.toStepRules (R.judgesCallExprs hcall) e h

theorem judge_stmt (R : TreeRules T J) (hcall : JudgesCalls T J T.place call call') (s : Stmt) (h : T.Admits s)
    (hscope : s.declares = true → T.scope scope) :
    J (fun r => (T.scope scope → T.scope r.1) ∧ T.value r.2.value) (stmt call scope s) (stmt call' scope s) :=
  judge_stmt_of_calls R.toStepRules (R.judgesCallExprs hcall) s h hscope

theorem judge_stmts (R : TreeRules T J) (hcall : JudgesCalls T J T.place call call') (ss : List Stmt) {last : Value}
    (h : ∀ s ∈ ss, T.Admits s) (hscope : T.scope scope) (hlast : T.value last) :
    J (fun e => T.value e.value) (stmts call scope ss last) (stmts call' scope ss last) :=
  judge_stmts_of_calls R.toStepRules (R.judgesCallExprs hcall) ss h hscope hlast

/-! ## Builtins and bodies -/

theorem judge_callAll (R : Rules J) (hcall : JudgesCalls T J (· = .unknown) call call') (hs : List Value)
    (h : ∀ v ∈ hs, T.value v) : J (fun _ => True) (Primitive.callAll call hs) (Primitive.callAll call' hs) := by
  induction hs with
  | nil => exact R.pure trivial
  | cons f rest ih =>
    rw [List.forall_mem_cons] at h
    exact R.bind (hcall f [] .unknown rfl h.1 (List.forall_mem_nil _)) fun _ _ => ih h.2

theorem judge_primitive (R : BuiltinRules T J) (hcall : JudgesCalls T J (· = .unknown) call call') (p : Primitive)
    {args : List Value} (hargs : ∀ v ∈ args, T.value v) : J T.value (p.run call args) (p.run call' args) := by
  rw [run_eq call, run_eq call']
  cases h : Errand.of? p args with
  | none => exact R.idle p hargs
  | some errand =>
    cases errand with
    | copies f => exact R.idle p hargs
    | call f =>
      refine R.bind (R.idle p hargs) fun _ _ => ?_
      exact hcall f [] .unknown rfl (hargs f (Errand.mem_of?.1 f h)) (List.forall_mem_nil _)
    | handlers event =>
      refine R.bind (R.handlers event) fun hs hhs => R.bind (R.idle p hargs) fun v hv => ?_
      exact R.bind (judge_callAll R.toRules hcall hs hhs) fun _ _ => R.pure hv

theorem judge_builtin (R : BuiltinRules T J) (hcall : JudgesCalls T J (· = .unknown) call call')
    (hhosts : JudgesHosts T J call call') (b : Builtin) {args : List Value} (hargs : ∀ v ∈ args, T.value v) :
    J T.value (b.run call args) (b.run call' args) := by
  obtain ⟨name, arity, p | index⟩ := b
  · exact judge_primitive R hcall p hargs
  · exact hhosts name arity index hargs

/-- The body of a function: the statements of a declared one, or what a builtin does. Statements may be judged more strictly
than builtins, which do not know the place of the call. -/
theorem judge_body (R : TreeRules T J) (B : BuiltinRules T J')
    (hweaken : ∀ {x x' : Eval Completion}, J (fun e => T.value e.value) x x' → J' (fun e => T.value e.value) x x')
    (hcall : JudgesCalls T J T.place call call') (hcall' : JudgesCalls T J' (· = .unknown) call call')
    (hhosts : JudgesHosts T J' call call') {f : Value} (hf : T.value f) {args : List Value}
    (hargs : ∀ v ∈ args, T.value v) {callee : Callee}
    (hcallee : calleeFor f args = .ok callee) :
    J' (fun e => T.value e.value) (body call args callee) (body call' args callee) := by
  cases callee with
  | builtin b => exact B.bind (judge_builtin B hcall' hhosts b hargs) fun v hv => B.pure hv
  | declared g =>
    have hof := of?_of_calleeFor hcallee
    obtain rfl : f = .function g := by
      cases f with
      | function =>
        cases hof
        rfl
      | unit | number | string | bool | builtin | range | unknown => cases hof
    simp only [body, bindAll_eq]
    refine hweaken (judge_openScope R.toStepRules g.scope ?_ fun inner hinner => ?_)
    · exact fun b hb => hargs b.2 (List.of_mem_zip hb).2
    · exact judge_stmts R hcall g.body (hf g rfl) hinner T.value_unit

end Eval

end Ouroboros
