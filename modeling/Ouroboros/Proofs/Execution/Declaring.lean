/-
Where declarations go.

A statement that is no declaration, and every expression, leaves every scope that is there with the names it binds, and the
scope of the builtins altogether as it is; and so does whatever it calls, whether or not it fails (`Eval.sameNames_stmt`).
For declarations are made only by the statements of a block, of a round or of a call, and those run in a scope that was
opened for them; and only bindings of other scopes than that of the builtins get new values. So in a session the scope of
the builtins holds what was registered between the programs and nothing else (`Session.binds_run`).

All this is so as long as the host does not declare on its own (`HostOperation.SparesNames`). An operation that runs a
program in the global scope brings a name there, whatever statement calls it, and one that registers a builtin changes the
scope of the builtins (`Machine.declarations_stray`).

`Eval.Confined k` is the judgment behind it: the first `k` scopes are spared, and declarations are made in the others.
-/
import Ouroboros.Proofs.Execution.Judgments

namespace Ouroboros

/-! ## Scopes that keep their names -/

/-- of the first `k` scopes each binds the same names as before, and the scope of the builtins has stayed as it was -/
structure Store.SameNames (k : Nat) (core : ScopeId) (s s' : Store) : Prop where
  size : s.scopes.size ≤ s'.scopes.size
  names : ∀ i < k, ∀ name, (s'.bound? i name).isSome = (s.bound? i name).isSome
  core : s'.scopes[core]? = s.scopes[core]?

namespace Store.SameNames

variable {k : Nat} {core : ScopeId} {s s' s'' : Store}

theorem trans (h : SameNames k core s s') (h' : SameNames k core s' s'') : SameNames k core s s'' := by
  refine ⟨Nat.le_trans h.size h'.size, fun i hi name => ?_, h'.core.trans h.core⟩
  rw [h'.names i hi name, h.names i hi name]

theorem of_kept (h : s.Kept s') (hcore : core < k) (hk : k ≤ s.scopes.size) : SameNames k core s s' := by
  refine ⟨h.size, fun i hi name => ?_, h.scopes core (Nat.lt_of_lt_of_le hcore hk)⟩
  rw [h.bound? (Nat.lt_of_lt_of_le hi hk)]

/-- a binding in a later scope, or a new value for a binding that is there -/
theorem define {id : ScopeId} {name : Bytes} (hid : id ≠ core) (h : k ≤ id ∨ (s.bound? id name).isSome = true) (v : Value) :
    SameNames k core s (s.define id name v) := by
  refine ⟨Nat.le_of_eq (Snapshot.size_define ..).symm, fun i hi other => ?_, ?_⟩
  · rw [Store.bound?_define]
    split
    · obtain ⟨rfl, rfl, -⟩ := ‹id = i ∧ name = other ∧ i < s.scopes.size›
      rcases h with h | h
      · omega
      · rw [h]
        rfl
    · rfl
  · rw [Snapshot.getElem?_define, if_neg hid]

end Store.SameNames

/-- the machine has kept its builtins and host operations, and the names of its first `k` scopes; the global scope has
stayed where it was, or is none of those -/
structure Machine.SameNames (k : Nat) (m m' : Machine) : Prop where
  core : m'.interpreter.core = m.interpreter.core
  global : m'.interpreter.global = m.interpreter.global ∨ k ≤ m'.interpreter.global
  hosts : m'.world.hosts = m.world.hosts
  store : m.world.store.SameNames k m.interpreter.core m'.world.store

namespace Machine.SameNames

variable {k : Nat} {m m' m'' : Machine}

/-- what has to do with neither scopes nor host operations -/
theorem of_eq (hcore : m'.interpreter.core = m.interpreter.core) (hglobal : m'.interpreter.global = m.interpreter.global)
    (hhosts : m'.world.hosts = m.world.hosts) (hstore : m'.world.store = m.world.store) : SameNames k m m' := by
  refine ⟨hcore, .inl hglobal, hhosts, ?_⟩
  rw [hstore]
  exact ⟨Nat.le_refl _, fun _ _ _ => rfl, rfl⟩

theorem refl (m : Machine) : SameNames k m m := of_eq rfl rfl rfl rfl

theorem trans (h : SameNames k m m') (h' : SameNames k m' m'') : SameNames k m m'' := by
  have hstore := h'.store
  rw [h.core] at hstore
  refine ⟨h'.core.trans h.core, ?_, h'.hosts.trans h.hosts, h.store.trans hstore⟩
  rcases h'.global with hglobal | hglobal
  · rw [hglobal]
    exact h.global
  · exact .inr hglobal

end Machine.SameNames

/-! ## Hosts that do not declare -/

namespace HostRequest

/-- a scope that was opened is none of the first `k`, and neither is the global one, where programs may run in it -/
def Behind (k : Nat) (main : Prop) : (r : HostRequest) → r.Answer → Prop
  | .newScope _, (scope : ScopeId) => k ≤ scope
  | .global, (scope : ScopeId) => main → k ≤ scope
  | .call .., _ | .exec .., _ | .execSource .., _ | .register .., _ | .define .., _ | .set .., _ | .lookUp .., _ | .core, _
  | .kept, _ | .remember _, _ => True

/-- the question brings no names to the first `k` scopes: programs run and names are defined in other scopes only, and no
names are registered or set; `main` says whether programs may run in the global scope -/
def SparesNames (k : Nat) (main : Prop) : HostRequest → Prop
  | .exec _ scope => scope.elim main (k ≤ ·)
  | .execSource .. => main
  | .define scope .. => k ≤ scope
  | .register .. | .set .. => False
  | .call .. | .lookUp .. | .core | .global | .newScope _ | .kept | .remember _ => True

end HostRequest

/-- the host's operation brings no names to the first `k` scopes on its own -/
def HostOperation.SparesNames (k : Nat) (main : Prop) (operation : HostOperation) : Prop :=
  ∀ args, (operation args).AsksGiven (HostRequest.Behind k main) (HostRequest.SparesNames k main)

/-- the first `k` scopes are there, that of the builtins among them, and the host spares them -/
structure Machine.Spared (k : Nat) (main : Prop) (m : Machine) : Prop where
  core : m.interpreter.core < k
  size : k ≤ m.size
  global : main → k ≤ m.interpreter.global
  hosts : ∀ operation ∈ m.world.hosts, operation.SparesNames k main

theorem Machine.Spared.of_sameNames {k : Nat} {main : Prop} {m m' : Machine} (h : m.Spared k main)
    (hsame : m.SameNames k m') : m'.Spared k main := by
  refine ⟨?_, Nat.le_trans h.size hsame.store.size, fun hmain => ?_, ?_⟩
  · rw [hsame.core]
    exact h.core
  · rcases hsame.global with hglobal | hglobal
    · rw [hglobal]
      exact h.global hmain
    · exact hglobal
  · rw [hsame.hosts]
    exact h.hosts

namespace Eval

/-- the step spares the names of the first `k` scopes, that of the builtins among them, and gives only what `V` says -/
def Confined (k : Nat) (main : Prop) : Judgment := fun _ V x _ => ∀ m : Machine, m.Spared k main →
  m.SameNames k (x m).2 ∧ ∀ a, (x m).1 = .ok a → V a

variable {k : Nat} {main : Prop} {α β : Type} {V : α → Prop} {W : β → Prop} {x x' : Eval α}

namespace Confined

theorem pure {a : α} (h : V a) : Confined k main V (Pure.pure a) (Pure.pure a) := by
  intro m _
  refine ⟨.refl m, ?_⟩
  rintro b ⟨⟩
  exact h

theorem fail (d : Diagnostic) : Confined k main V (Action.fail d) x' := fun m _ => ⟨.refl m, nofun⟩

/-- a part of a machine that spares the first `k` scopes -/
theorem asks {f : Machine → α} (hV : ∀ m : Machine, m.Spared k main → V (f m)) : Confined k main V (Action.asks f) x' := by
  intro m hm
  refine ⟨.refl m, ?_⟩
  rintro a ⟨⟩
  exact hV m hm

theorem bind {l l' : α → Eval β} (hx : Confined k main V x x') (hl : ∀ a, V a → Confined k main W (l a) (l' a)) :
    Confined k main W (x >>= l) (x' >>= l') := by
  intro m hm
  obtain ⟨hsame, hV⟩ := hx m hm
  rw [Action.bind_apply]
  rcases hrun : x m with ⟨d | a, m'⟩ <;> rw [hrun] at hsame hV
  · exact ⟨hsame, nofun⟩
  · obtain ⟨hsame', hW⟩ := hl a (hV a rfl) m' (hm.of_sameNames hsame)
    exact ⟨hsame.trans hsame', hW⟩

/-- a step that only has to do with scopes -/
theorem of_onScopes {f : Store → α × Store} (h : OnScopes f x)
    (hf : ∀ s core, core < k → k ≤ s.scopes.size → s.SameNames k core (f s).2 ∧ V (f s).1) : Confined k main V x x' := by
  intro m hm
  obtain ⟨hsame, hV⟩ := hf m.world.store m.interpreter.core hm.core hm.size
  rw [h m]
  refine ⟨⟨rfl, .inl rfl, rfl, hsame⟩, ?_⟩
  rintro a ⟨⟩
  exact hV

/-- a step that leaves scopes, interpreter and host operations alone -/
theorem of_quiet (h : Quiet V x) : Confined k main V x x' := by
  intro m _
  obtain ⟨hstore, hinterpreter, hhost, hV⟩ := h m
  exact ⟨.of_eq (congrArg _ hinterpreter) (congrArg _ hinterpreter) hhost.hosts hstore, hV⟩

theorem attempt (h : Confined k main V x x') :
    Confined k main (fun r => ∀ a, r = .ok a → V a) (Action.attempt x) (Action.attempt x') := by
  intro m hm
  obtain ⟨hsame, hV⟩ := h m hm
  refine ⟨hsame, ?_⟩
  rintro r ⟨⟩
  exact hV

end Confined

theorem confined_rules : Rules (Confined k main) where
  pure := .pure
  bind := .bind

/-! ## Trees -/

theorem sameNames_opened {core : ScopeId} {s : Store} (hcore : core < k) (hk : k ≤ s.scopes.size) (parent : ScopeId)
    (bindings : List (Bytes × Value)) : s.SameNames k core (opened parent bindings s).2 := by
  have hkept : s.Kept (opened parent bindings s).2 := ((Store.Kept.refl s).push _).defineAll (Nat.le_refl _) bindings
  exact .of_kept hkept hcore hk

theorem confined_openScope (parent : ScopeId) (bindings : List (Bytes × Value)) :
    Confined k main (k ≤ ·) (Deed.act (.openScope parent bindings)) (Deed.act (.openScope parent bindings)) :=
  .of_onScopes (onScopes_openScope parent bindings) fun _ _ hcore hk => ⟨sameNames_opened hcore hk parent bindings, hk⟩

/-- a declaration in a later scope binds its name there, or in a new scope -/
theorem confined_declare {scope : ScopeId} (hscope : k ≤ scope) (d : Declaration) :
    Confined k main (k ≤ ·) (declare scope d.name d.bound) (declare scope d.name d.bound) := by
  refine .of_onScopes (onScopes_declare scope d) fun s core hcore hk => ?_
  unfold declared
  split
  · exact ⟨sameNames_opened hcore hk scope _, hk⟩
  · exact ⟨.define (Nat.ne_of_gt (Nat.lt_of_lt_of_le hcore hscope)) (.inl hscope) _, hscope⟩

/-- a new value goes to a scope that binds the name already and is not that of the builtins -/
theorem confined_assign (pos : Pos) (scope : ScopeId) (name : Bytes) (v : Value) :
    Confined k main (fun _ => True) (assign pos scope name v) (assign pos scope name v) := by
  intro m hm
  refine ⟨?_, fun _ _ => trivial⟩
  rcases assign_apply pos scope name v m with ⟨fault, -, h⟩ | ⟨owner, hne, hbound, h⟩
  · rw [h]
    exact .refl m
  · rw [h]
    exact ⟨rfl, .inl rfl, rfl, .define hne (.inr hbound) v⟩

theorem confined_tree : TreeRules (.free (k ≤ ·)) (Confined k main) where
  toRules := confined_rules
  failAt _ _ := .fail _
  lookUp _ _ := .asks fun _ _ v _ => Terms.value_free _ v
  frames := .asks fun _ _ => trivial
  trace function stage := .of_quiet (quiet_trace function stage)
  assign scope v _ _ := confined_assign _ scope _ v
  declare hscope _ := confined_declare hscope _
  openScope parent bindings _ := confined_openScope parent bindings

/-! ## Builtins -/

/-- spawning adds scopes, and registering a handler changes none -/
theorem confined_idle (p : Primitive) (args : List Value) :
    Confined k main (fun _ => True) (p.run Deed.idle args) (p.run Deed.idle args) := by
  intro m hm
  refine ⟨?_, fun _ _ => trivial⟩
  rcases (p.run_idle args m).1 with ⟨hstore, hi, hhost⟩ | ⟨v, -, hstore, hi, hhost⟩ | ⟨event, h, -, hstore, hi, hhost⟩
  · exact .of_eq (congrArg _ hi) (congrArg _ hi) hhost.hosts hstore
  · refine ⟨(congrArg Interpreter.core hi :), .inl (congrArg Interpreter.global hi :), hhost.hosts, ?_⟩
    rw [hstore]
    exact .of_kept (spawned_kept v m) hm.core hm.size
  · exact .of_eq (congrArg Interpreter.core hi :) (congrArg Interpreter.global hi :) hhost.hosts hstore

theorem confined_builtin : BuiltinRules (.free (k ≤ ·)) (Confined k main) where
  toRules := confined_rules
  idle p args _ := confined_rules.weaken (confined_idle p args) fun v _ => Terms.value_free _ v
  handlers _ := .asks fun _ _ h _ => Terms.value_free _ h

/-! ## Programs and the host -/

section Hosts

variable {call : Call} (hcall : JudgesCalls (.free (k ≤ ·)) (Confined k main) (fun _ => True) call call)
include hcall

/-- statements that start in a later scope end in a later scope -/
theorem confined_program (ss : List Stmt) {scope : ScopeId} (last : Value) (hscope : k ≤ scope) :
    Confined k main (fun r => k ≤ r.2) (program call scope ss last) (program call scope ss last) := by
  induction ss generalizing scope last with
  | nil => exact .pure hscope
  | cons s rest ih =>
    have hstmt := judge_stmt confined_tree hcall s (Terms.admits_free _ s) fun _ => hscope
    refine .bind hstmt.attempt fun r hr => ?_
    rcases r with d | ⟨inner, v | v⟩
    · exact .pure hscope
    · exact ih v ((hr _ rfl).1 hscope)
    · exact .pure ((hr _ rfl).1 hscope)

theorem confined_exec (p : Program) {scope : Option ScopeId} (hscope : scope.elim main (k ≤ ·)) :
    Confined k main (fun _ => True) (exec call p scope) (exec call p scope) := by
  unfold exec
  split
  · refine .bind (V := (k ≤ ·)) (.asks fun m hm => ?_) fun first hfirst => ?_
    · cases scope with
      | none => exact hm.global hscope
      | some i => exact hscope
    refine .bind (confined_program hcall p.stmts .unit hfirst) fun r hlast => ?_
    refine .bind (V := fun _ => True) (.asks fun _ _ => trivial) fun global _ => ?_
    have hend : Confined k main (fun _ => True) (pure (outcome r.1)) (pure (outcome r.1)) := .pure trivial
    have hmove : Confined k main (fun _ => True) (moveGlobal r.2) (moveGlobal r.2) :=
      fun m _ => ⟨⟨rfl, .inr hlast, rfl, (Machine.SameNames.refl m).store⟩, fun _ _ => trivial⟩
    dsimp only
    split
    · exact .bind hmove fun _ _ => hend
    · exact hend
  · exact .pure trivial

theorem confined_execSource (hmain : main) (name source : Bytes) :
    Confined k main (fun _ => True) (execSource call name source) (execSource call name source) :=
  .bind (.of_quiet (quiet_log _)) fun _ _ => confined_exec hcall _ hmain

theorem confined_answer {r : HostRequest} (hr : r.SparesNames k main) :
    Confined k main (r.Behind k main) (answer call r) (answer call r) := by
  cases r with
  | call f args =>
    have hf := hcall f args .unknown trivial (Terms.value_free _ f) fun v _ => Terms.value_free _ v
    exact confined_rules.weaken hf.attempt fun _ _ => trivial
  | exec p scope => exact confined_exec hcall p hr
  | execSource name source => exact confined_execSource hcall hr name source
  | define scope name v =>
    refine .of_onScopes (onScopes_define scope name v) fun s core hcore _ => ⟨?_, trivial⟩
    exact .define (Nat.ne_of_gt (Nat.lt_of_lt_of_le hcore hr)) (.inl hr) v
  | register | set => exact hr.elim
  | lookUp | core | kept => exact .asks fun _ _ => trivial
  | global => exact .asks fun m hm => hm.global
  | newScope parent => exact confined_openScope parent []
  | remember vs => exact fun m _ => ⟨.of_eq rfl rfl rfl rfl, fun _ _ => trivial⟩

theorem confined_host {action : HostAction}
    (h : action.AsksGiven (HostRequest.Behind k main) (HostRequest.SparesNames k main)) :
    Confined k main (fun _ => True) (action.run call) (action.run call) := by
  induction action with
  | answer v => exact .pure trivial
  | fail d => exact .fail d
  | ask r next ih => exact .bind (confined_answer hcall h.1) fun a ha => ih a (h.2 a ha)

theorem confined_hosts : JudgesHosts (.free (k ≤ ·)) (Confined k main) call call := by
  intro name arity index args _
  refine confined_rules.weaken (V := fun _ => True) ?_ fun v _ => Terms.value_free _ v
  refine .bind (V := fun o => ∀ operation, o = some operation → operation.SparesNames k main)
    (.asks fun m hm operation h => hm.hosts operation (Array.mem_of_getElem? h)) fun o ho => ?_
  cases o with
  | none => exact .pure trivial
  | some operation => exact confined_host hcall (ho operation rfl args)

end Hosts

/-! ## Calls -/

theorem confined_changeFrames (f : List Frame → List Frame) {x' : Eval Unit} :
    Confined k main (fun _ => True) (changeInterpreter fun i => { i with frames := f i.frames }) x' :=
  fun _ _ => ⟨.of_eq rfl rfl rfl rfl, fun _ _ => trivial⟩

theorem confined_settle (callee : Callee) (pos : Pos) (r : Except Diagnostic Completion) :
    Confined k main (fun _ => True) (settle callee pos r) (settle callee pos r) := by
  have hleave : Confined k main (fun _ => True) leave leave := confined_changeFrames List.tail
  rcases r with d | v | v
  · exact .bind (.asks (V := fun _ => True) fun _ _ => trivial) fun frames _ => .bind hleave fun _ _ => .fail _
  · refine .bind hleave fun _ _ => .bind (confined_tree.trace _ _) fun _ _ => ?_
    exact .bind (confined_tree.trace _ _) fun _ _ => .pure trivial
  · refine .bind hleave fun _ _ => .bind (confined_tree.trace _ _) fun _ _ => ?_
    exact .bind (confined_tree.trace _ _) fun _ _ => .pure trivial

theorem confined_applyWithin (room : Nat) :
    JudgesCalls (.free (k ≤ ·)) (Confined k main) (fun _ => True) (applyWithin room) (applyWithin room) := by
  induction room with
  | zero =>
    intro f args pos _ _ _
    rw [applyWithin, applyWith_eq]
    cases calleeFor f args with
    | error fault => exact .fail _
    | ok callee => exact .bind (.asks (V := fun _ => True) fun _ _ => trivial) fun limit _ => .fail _
  | succ room ih =>
    intro f args pos _ hf hargs
    rw [applyWithin, applyWith_eq]
    cases hcallee : calleeFor f args with
    | error fault => exact .fail _
    | ok callee =>
      have hbody := judge_body confined_tree confined_builtin id ih (fun f args pos _ => ih f args pos trivial)
        (confined_hosts ih) hf hargs hcallee
      refine confined_rules.weaken (V := fun _ => True) ?_ fun v _ => Terms.value_free _ v
      refine .bind (confined_changeFrames _) fun _ _ => .bind (confined_tree.trace _ _) fun _ _ => ?_
      exact .bind hbody.attempt fun r _ => confined_settle callee pos r

theorem confined_apply : JudgesCalls (.free (k ≤ ·)) (Confined k main) (fun _ => True) apply apply :=
  fun f args pos hpos hf hargs m => confined_applyWithin (room m.interpreter) f args pos hpos hf hargs m

/-- at a moment of a run, all scopes that are there are spared -/
theorem spared_here {m : Machine} (hcore : m.interpreter.core < m.size)
    (hhosts : ∀ operation ∈ m.world.hosts, operation.SparesNames m.size False) : m.Spared m.size False :=
  ⟨hcore, Nat.le_refl _, False.elim, hhosts⟩

theorem sameNames_expr {m : Machine} (hm : m.Spared m.size False) (scope : ScopeId) (e : Expr) :
    m.SameNames m.size (expr apply scope e m).2 :=
  (judge_expr confined_tree confined_apply e (.of_forall (fun _ => trivial) e) m hm).1

theorem sameNames_stmt {m : Machine} (hm : m.Spared m.size False) (scope : ScopeId) {s : Stmt} (hs : s.declares = false) :
    m.SameNames m.size (stmt apply scope s m).2 := by
  refine (judge_stmt confined_tree confined_apply s (Terms.admits_free _ s) (fun h => ?_) m hm).1
  rw [hs] at h
  cases h

end Eval

/-! ## Sessions -/

namespace Machine

variable {k : Nat} {m : Machine}

/-- the scope of the builtins holds the table, the global scope is a later one, there are so many host operations, and these
spare the scope of the builtins -/
structure Binds (m : Machine) (id : ScopeId) (t : Table) (hosts : Nat) : Prop where
  core : m.interpreter.core = id
  scope : m.world.store.scopes[id]? = some ⟨none, t⟩
  global : id < m.interpreter.global
  size : m.world.hosts.size = hosts
  hosts : ∀ operation ∈ m.world.hosts, operation.SparesNames (id + 1) True

namespace Binds

variable {id : ScopeId} {t : Table} {hosts : Nat} {m' : Machine}

theorem spared (h : m.Binds id t hosts) : m.Spared (id + 1) True := by
  refine ⟨?_, (Array.getElem?_eq_some_iff.1 h.scope).1, fun _ => h.global, h.hosts⟩
  rw [h.core]
  exact Nat.lt_succ_self id

theorem of_sameNames (h : m.Binds id t hosts) (hsame : m.SameNames (id + 1) m') : m'.Binds id t hosts := by
  have hcore := h.core
  refine ⟨hsame.core.trans h.core, ?_, (h.spared.of_sameNames hsame).global trivial, ?_, ?_⟩
  · have hscope := hsame.store.core
    rw [hcore] at hscope
    rw [hscope, h.scope]
  · rw [hsame.hosts]
    exact h.size
  · rw [hsame.hosts]
    exact h.hosts

/-- a program declares in the global scope and in those inside it -/
theorem execSource (h : m.Binds id t hosts) (name source : Bytes) : (m.execSource name source).2.Binds id t hosts := by
  obtain ⟨hsame, -⟩ := Eval.confined_execSource Eval.confined_apply trivial name source m h.spared
  have hafter := h.of_sameNames hsame
  simp only [Machine.execSource, step]
  rcases hrun : Eval.execSource Eval.apply name source m with ⟨d | o, m'⟩ <;> rw [hrun] at hafter
  · exact hafter
  · exact hafter

theorem call (h : m.Binds id t hosts) (f : Value) (args : List Value) : (m.call f args).2.Binds id t hosts := by
  obtain ⟨hsame, -⟩ := Eval.confined_apply f args .unknown trivial (Eval.Terms.value_free _ f)
    (fun v _ => Eval.Terms.value_free _ v) m h.spared
  exact h.of_sameNames hsame

theorem register (h : m.Binds id t hosts) (name : Bytes) (arity : Option Nat) {operation : HostOperation}
    (hoperation : operation.SparesNames (id + 1) True) :
    (m.register name arity operation).Binds id (t.insert name (.builtin (.ofHost name arity hosts))) (hosts + 1) := by
  refine ⟨h.core, ?_, h.global, ?_, fun other hmem => ?_⟩
  · change (m.world.store.define m.interpreter.core name _).scopes[id]? = _
    rw [h.core, h.size, Snapshot.getElem?_define, if_pos rfl, h.scope]
    rfl
  · change (m.world.hosts.push operation).size = hosts + 1
    rw [Array.size_push, h.size]
  · rcases Array.mem_push.mp hmem with hold | rfl
    · exact h.hosts other hold
    · exact hoperation

theorem start {w : World} (hhosts : ∀ operation ∈ w.hosts, operation.SparesNames (w.store.scopes.size + 1) True)
    (limit : Int) : (Machine.start w limit).Binds w.store.scopes.size coreTable w.hosts.size := by
  refine ⟨rfl, ?_, Nat.lt_succ_self _, rfl, hhosts⟩
  change ((w.store.scopes.push ⟨none, coreTable⟩).push ⟨some w.store.scopes.size, []⟩)[w.store.scopes.size]? = _
  rw [Array.getElem?_push, if_neg (by simp), Array.getElem?_push, if_pos rfl]

end Binds

end Machine

/-- what a host does in a session: it registers a builtin, runs a source text or calls a function -/
inductive Session.Step where
  | register (name : Bytes) (arity : Option Nat) (operation : HostOperation)
  | execSource (name source : Bytes)
  | call (f : Value) (args : List Value)

namespace Session

/-- the machine after a step, whether or not it failed -/
def Step.perform (m : Machine) : Step → Machine
  | .register name arity operation => m.register name arity operation
  | .execSource name source => (m.execSource name source).2
  | .call f args => (m.call f args).2

/-- the machine after steps, one after the other -/
def run (steps : List Step) (m : Machine) : Machine := steps.foldl Step.perform m

/-- the operations that steps register -/
def operations : List Step → List HostOperation
  | [] => []
  | .register _ _ operation :: rest => operation :: operations rest
  | .execSource .. :: rest | .call .. :: rest => operations rest

/-- the table with the builtins that steps register, the first of which is the host operation number `index` -/
def registered (index : Nat) : List Step → Table → Table
  | [], t => t
  | .register name arity _ :: rest, t => registered (index + 1) rest (t.insert name (.builtin (.ofHost name arity index)))
  | .execSource .. :: rest, t | .call .. :: rest, t => registered index rest t

theorem binds_run (steps : List Step) {m : Machine} {id : ScopeId} {t : Table} {hosts : Nat} (h : m.Binds id t hosts)
    (hsteps : ∀ operation ∈ operations steps, operation.SparesNames (id + 1) True) :
    ∃ n, (run steps m).Binds id (registered hosts steps t) n := by
  induction steps generalizing m t hosts with
  | nil => exact ⟨hosts, h⟩
  | cons step rest ih =>
    cases step with
    | register name arity operation =>
      obtain ⟨hoperation, hrest⟩ := List.forall_mem_cons.mp hsteps
      exact ih (h.register name arity hoperation) hrest
    | execSource name source => exact ih (h.execSource name source) hsteps
    | call f args => exact ih (h.call f args) hsteps

end Session

/-- **Declarations stay where they are written, and builtins are never rebound.** On a machine whose scope of builtins is
there, and whose host brings no names to scopes that are there, evaluating an expression, or running a statement that does
not declare in the scope in which it runs, leaves every scope with the names it binds and the scope of the builtins as it
is, whatever it calls and whether or not it fails. In every session, if the host's operations leave the scope of the
builtins alone while they run, this scope holds the language's own builtins and those that the host has registered, each as
it was registered last. -/
theorem Machine.declarations_stay :
    (∀ (m : Machine) (scope : ScopeId) (e : Expr), m.interpreter.core < m.size →
      (∀ operation ∈ m.world.hosts, operation.SparesNames m.size False) →
      m.SameNames m.size (Eval.expr Eval.apply scope e m).2) ∧
    (∀ (m : Machine) (scope : ScopeId) (s : Stmt), m.interpreter.core < m.size → s.declares = false →
      (∀ operation ∈ m.world.hosts, operation.SparesNames m.size False) →
      m.SameNames m.size (Eval.stmt Eval.apply scope s m).2) ∧
    ∀ (w : World) (limit : Int) (steps : List Session.Step),
      (∀ operation ∈ w.hosts, operation.SparesNames (w.store.scopes.size + 1) True) →
      (∀ operation ∈ Session.operations steps, operation.SparesNames (w.store.scopes.size + 1) True) →
      (Session.run steps (start w limit)).interpreter.core = w.store.scopes.size ∧
      (Session.run steps (start w limit)).world.store.scopes[w.store.scopes.size]? =
        some ⟨none, Session.registered w.hosts.size steps coreTable⟩ := by
  refine ⟨fun m scope e hcore hhosts => Eval.sameNames_expr (Eval.spared_here hcore hhosts) scope e,
    fun m scope s hcore hs hhosts => Eval.sameNames_stmt (Eval.spared_here hcore hhosts) scope hs,
    fun w limit steps hhosts hsteps => ?_⟩
  obtain ⟨n, h⟩ := Session.binds_run steps (Binds.start hhosts limit) hsteps
  exact ⟨h.core, h.scope⟩

/-- a block with a `print` of its own, which gets a new value; then the builtin `len` is to get one, and that fails -/
def shadowing : Stmt := .block ⟨1, 1⟩ [
  .letDecl ⟨1, 3⟩ (text "print") none (.string ⟨1, 15⟩ (text "mine")),
  .assign ⟨2, 3⟩ (text "print") (.string ⟨2, 11⟩ (text "other")),
  .assign ⟨3, 3⟩ (text "len") (.string ⟨3, 9⟩ (text "other"))]

/-- runs a program with a variable in a scope of its own, and gives the variable -/
def probing : HostOperation := fun _ =>
  .ask .core fun (core : ScopeId) => .ask (.newScope core) fun (scope : ScopeId) =>
    .ask (.exec (Program.ofSource (text "let found = 7;")) (some scope)) fun _ =>
      .ask (.lookUp scope (text "found")) fun (v : Option Value) => .answer (v.getD .unit)

/-- a host registers `probe`, and a program calls it, declares a `print` of its own and gives it a new value -/
def shadowingSession : List Session.Step :=
  [.register (text "probe") (some 0) probing,
   .execSource (text "a") (text "let print = probe(); print = \"other\"; probe = print;")]

theorem sparesNames_probing (k : Nat) (main : Prop) : probing.SparesNames k main :=
  fun _ => ⟨trivial, fun _ _ => ⟨trivial, fun _ hscope => ⟨hscope, fun _ _ => ⟨trivial, fun _ _ => trivial⟩⟩⟩⟩

theorem Machine.declarations_stay_shadowing :
    (start .fresh 10).interpreter.core < (start .fresh 10).size ∧ shadowing.declares = false ∧
    (∃ d, (Eval.stmt Eval.apply 1 shadowing (start .fresh 10)).1 = .error d ∧ d.fault = .builtinTarget (text "len")) ∧
    (start .fresh 10).SameNames (start .fresh 10).size (Eval.stmt Eval.apply 1 shadowing (start .fresh 10)).2 ∧
    (∀ operation ∈ Session.operations shadowingSession, operation.SparesNames 1 True) ∧
    (Session.run shadowingSession (start .fresh 10)).world.store.scopes[0]? =
      some ⟨none, coreTable.insert (text "probe") (.builtin (.ofHost (text "probe") (some 0) 0))⟩ := by
  obtain ⟨-, hstmt, hsession⟩ := declarations_stay
  have hcore : (start .fresh 10).interpreter.core < (start .fresh 10).size := by decide
  have hnone : ∀ k main, ∀ operation ∈ World.fresh.hosts, operation.SparesNames k main :=
    fun _ _ _ h => absurd h (Array.not_mem_empty _)
  have hsteps : ∀ operation ∈ Session.operations shadowingSession, operation.SparesNames 1 True :=
    List.forall_mem_singleton.mpr (sparesNames_probing 1 True)
  refine ⟨hcore, rfl, ⟨_, rfl, rfl⟩, hstmt (start .fresh 10) 1 shadowing hcore rfl (hnone _ _), hsteps, ?_⟩
  exact (hsession .fresh 10 shadowingSession (hnone _ _) hsteps).2

/-- runs a program in the global scope -/
def declaring : HostOperation := fun _ => .ask (.execSource (text "lib") (text "let y = 1;")) fun _ => .answer .unit

/-- registers the operation number 0 under the name of a builtin -/
def rebinding : HostOperation := fun _ => .ask (.register (text "print") none 0) fun _ => .answer .unit

/-- whether the value is a builtin of the host -/
def Value.isOfHost : Value → Bool
  | .builtin ⟨_, _, .host _⟩ => true
  | _ => false

/-- the call of a function that is visible and takes no arguments, as a statement -/
def callOf (name : Bytes) : Stmt := .expr ⟨1, 1⟩ (.call ⟨1, 2⟩ (.ident ⟨1, 1⟩ name) [])

/-- A call of the host's operation brings a name to the global scope, which was there before, and a call of another one
changes a builtin. And a builtin that is registered anew has not its first value any more. -/
theorem Machine.declarations_stray :
    (let m := (start .fresh 10).register (text "lib") (some 0) declaring
      let after := (Eval.stmt Eval.apply 1 (callOf (text "lib")) m).2
      (m.world.store.bound? 1 (text "y")).isSome = false ∧ (after.world.store.bound? 1 (text "y")).isSome = true) ∧
    (let m := (start .fresh 10).register (text "rebind") (some 0) rebinding
      let after := (Eval.stmt Eval.apply 1 (callOf (text "rebind")) m).2
      (m.world.store.bound? 0 (text "print")).map Value.isOfHost = some false ∧
        (after.world.store.bound? 0 (text "print")).map Value.isOfHost = some true) ∧
    let after := Session.run [.register (text "print") none fun _ => .answer .unit] (start .fresh 10)
    (after.world.store.bound? 0 (text "print")).map Value.isOfHost = some true := by
  decide +kernel

end Ouroboros
